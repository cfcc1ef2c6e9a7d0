import BitcoinPR.Core.Reorg
import BitcoinPR.Lib.Branches
import BitcoinPR.P2P.HeaderSync
import Mathlib.Data.List.Chain
import Mathlib.Data.Set.Function

/-!
# Heights and work of stored headers

A header is stored with the height and the work of the chain it ends. Both are
computed from the parent's – the height from where the walk stands, the work
from the last header of the batch – so they are right as long as the walk
stands on the last header of the batch whenever a header is accepted. That is
the case for a message whose headers follow one another
(`HeaderSync.onBranch_walkHeaders`): once the walk has accepted a header, all
that follow are new or above the tip, and are accepted as well. A message that
goes back to a stored header after an accepted one breaks it.

Headers are identified with their hashes, so two headers of one hash would
overwrite each other. The results are about headers of a set on which the hash
is injective and does not take the value that stands for no parent.
-/

open List Option Function PartialMap

open Branches (Extends Ancestor Closed Graded up)

/-- The hash tells the headers of `S` apart, and is never the parent of the
first block. -/
structure Collisionless [Hashing] (S : Set Header) : Prop where
  injOn : S.InjOn Header.blockHash
  ne_zero : ∀ h ∈ S, h.blockHash ≠ Hash.allZeros

/-- The parent of a stored header; the first block has none. -/
def StoredHeader.parent (stored : StoredHeader) : Option Hash :=
  if stored.height = 0 then none else some stored.header.prevBlockhash

/-- A header as it is to be stored over its parent. -/
def StoredHeader.child (parent : StoredHeader) (header : Header) : StoredHeader :=
  ⟨header, parent.height + 1,
    addChainWork parent.chainWork (calculateWork header.target)⟩

/-- A step towards the first block is one along the parent link. -/
theorem StoredHeader.up_eq {m : Hash → Option StoredHeader} {a : Hash} {stored : StoredHeader}
    (hm : m a = some stored) (hpos : 0 < stored.height) :
    up StoredHeader.parent m a = stored.header.prevBlockhash :=
  Branches.up_of_parent hm (if_neg (Nat.ne_of_gt hpos))

/-- **Every stored header is one above its stored parent and adds its work to
the parent's**; only the first block has no parent. -/
def Linked (genesis : Hash) (m : Hash → Option StoredHeader) : Prop :=
  ∀ hash stored, m hash = some stored →
    (hash = genesis ∧ stored.height = 0 ∧ stored.chainWork = zeroWork) ∨
      ∃ parent, m stored.header.prevBlockhash = some parent
        ∧ stored.height = parent.height + 1
        ∧ stored.chainWork
          = addChainWork parent.chainWork (calculateWork stored.header.target)

namespace Linked

variable {genesis a : Hash} {m : Hash → Option StoredHeader} {stored : StoredHeader}

theorem graded (h : Linked genesis m) : Graded StoredHeader.parent StoredHeader.height m := by
  intro a stored hm
  rcases h a stored hm with ⟨-, hzero, -⟩ | ⟨parent, hp, hheight, -⟩
  · exact Or.inl ⟨if_pos hzero, hzero⟩
  · exact Or.inr ⟨_, parent, if_neg (by omega), hp, hheight⟩

theorem eq_genesis (h : Linked genesis m) (hm : m a = some stored) (hzero : stored.height = 0) :
    a = genesis := by
  rcases h a stored hm with ⟨hg, -⟩ | ⟨parent, -, hheight, -⟩
  · exact hg
  · omega

/-- As many steps as a header is high lead to the first block. -/
theorem iterate_up_eq_genesis (h : Linked genesis m) (hm : m a = some stored) :
    (up StoredHeader.parent m)^[stored.height] a = genesis := by
  obtain ⟨first, hfirst, hheight⟩ := h.graded.exists_iterate_up hm stored.height
  exact h.eq_genesis hfirst (by omega)

end Linked

/-- Headers of `S`, stored under their hashes, and linked. -/
structure LinkedMap [Hashing] (S : Set Header) (genesis : Hash)
    (m : Hash → Option StoredHeader) : Prop where
  linked : Linked genesis m
  mem : ∀ hash stored, m hash = some stored → stored.header ∈ S
  keyed : ∀ hash stored, m hash = some stored → stored.header.blockHash = hash
  root : ∃ stored, m genesis = some stored ∧ stored.header.prevBlockhash = Hash.allZeros

namespace LinkedMap

variable [Hashing] {S : Set Header} {genesis : Hash} {m : Hash → Option StoredHeader}

section

variable (h : LinkedMap S genesis m) (hS : Collisionless S)
include h hS

/-- The first block has no stored parent. -/
theorem parent_genesis_eq {stored : StoredHeader} (hm : m genesis = some stored) :
    m stored.header.prevBlockhash = none := by
  obtain ⟨first, hfirst, hzero⟩ := h.root
  obtain rfl : stored = first := mem_unique hm hfirst
  rw [hzero]
  by_contra hne
  obtain ⟨parent, hp⟩ := ne_none_iff_exists'.mp hne
  exact hS.ne_zero _ (h.mem _ parent hp) (h.keyed _ parent hp)

/-- A header with a stored parent is stored over it. -/
theorem parent_of_eq {hash : Hash} {stored parent : StoredHeader} (hm : m hash = some stored)
    (hp : m stored.header.prevBlockhash = some parent) :
    stored = parent.child stored.header := by
  rcases h.linked hash stored hm with ⟨rfl, -, -⟩ | ⟨parent', hp', hheight, hwork⟩
  · rw [h.parent_genesis_eq hS hm] at hp
    cases hp
  · obtain rfl : parent' = parent := mem_unique hp' hp
    rw [StoredHeader.child, ← hheight, ← hwork]

/-- A header is stored as itself. -/
theorem header_eq {header : Header} (hmem : header ∈ S) {stored : StoredHeader}
    (hm : m header.blockHash = some stored) : stored.header = header :=
  hS.injOn (h.mem _ stored hm) hmem (h.keyed _ stored hm)

/-- **Storing a header over its stored parent** loses nothing, and keeps the
map linked. -/
theorem insert {header : Header} (hmem : header ∈ S) {parent : StoredHeader}
    (hp : m header.prevBlockhash = some parent) :
    Extends m (update m header.blockHash (some (parent.child header)))
      ∧ LinkedMap S genesis
          (update m header.blockHash (some (parent.child header))) := by
  have hext : Extends m (update m header.blockHash (some (parent.child header))) := by
    intro hash stored hm
    by_cases hh : hash = header.blockHash
    · -- the header is stored already, and by the invariant as it is stored now
      subst hh
      have heq := h.header_eq hS hmem hm
      rw [update_self, h.parent_of_eq hS hm (heq ▸ hp), heq]
    · rw [update_of_ne hh, hm]
  have hcases : ∀ {hash stored},
      update m header.blockHash (some (parent.child header)) hash = some stored →
      (hash = header.blockHash ∧ stored = parent.child header) ∨ m hash = some stored := by
    intro hash stored hm
    rcases update_eq_some.mp hm with ⟨rfl, hnew⟩ | ⟨-, hold⟩
    · exact Or.inl ⟨rfl, (Option.some.inj hnew).symm⟩
    · exact Or.inr hold
  refine ⟨hext, fun hash stored hm => ?_, fun hash stored hm => ?_, fun hash stored hm => ?_, ?_⟩
  · rcases hcases hm with ⟨rfl, rfl⟩ | hm
    · exact Or.inr ⟨parent, hext _ _ hp, rfl, rfl⟩
    · rcases h.linked hash stored hm with hg | ⟨p, hp', hrest⟩
      · exact Or.inl hg
      · exact Or.inr ⟨p, hext _ _ hp', hrest⟩
  · rcases hcases hm with ⟨rfl, rfl⟩ | hm
    · exact hmem
    · exact h.mem hash stored hm
  · rcases hcases hm with ⟨rfl, rfl⟩ | hm
    · rfl
    · exact h.keyed hash stored hm
  · obtain ⟨first, hfirst, hzero⟩ := h.root
    exact ⟨first, hext _ _ hfirst, hzero⟩

end

/-- Whoever has a parent has it stored. -/
theorem closed (h : LinkedMap S genesis m) : Closed StoredHeader.parent m := h.linked.graded.closed

end LinkedMap

/-! ## What the walk does to the index -/

/-- An index in which at most the blocks `hs` were marked since; nothing else
has changed. -/
structure HeaderIndex.Marks (ix ix' : HeaderIndex) (hs : List Hash) : Prop where
  headers : ix'.headers = ix.headers
  heightIndex : ix'.heightIndex = ix.heightIndex
  mono : ∀ h ∈ ix.invalidSet, h ∈ ix'.invalidSet
  new : ∀ h ∈ ix'.invalidSet, h ∈ ix.invalidSet ∨ h ∈ hs
  generation_le : ix.invalidGeneration ≤ ix'.invalidGeneration
  same : ix'.invalidGeneration = ix.invalidGeneration → ix'.invalidSet = ix.invalidSet

namespace HeaderIndex

variable {ix ix' ix'' : HeaderIndex}

theorem Marks.refl (ix : HeaderIndex) (hs : List Hash) : ix.Marks ix hs :=
  ⟨rfl, rfl, fun _ h => h, fun _ h => Or.inl h, Nat.le_refl _, fun _ => rfl⟩

theorem Marks.trans {hs hs' : List Hash} (h : ix.Marks ix' hs) (h' : ix'.Marks ix'' hs') :
    ix.Marks ix'' (hs ++ hs') where
  headers := h'.headers.trans h.headers
  heightIndex := h'.heightIndex.trans h.heightIndex
  mono := fun a ha => h'.mono a (h.mono a ha)
  new := by
    intro a ha
    rcases h'.new a ha with ha | ha
    · exact (h.new a ha).imp_right fun hm => mem_append_left hs' hm
    · exact Or.inr (mem_append_right hs ha)
  generation_le := h.generation_le.trans h'.generation_le
  same := by
    intro heq
    have hle := h.generation_le
    have hle' := h'.generation_le
    exact (h'.same (by omega)).trans (h.same (by omega))

theorem marks_markInvalid (ix : HeaderIndex) (hash : Hash) :
    ix.Marks (ix.markInvalid hash) [hash] where
  headers := rfl
  heightIndex := rfl
  mono := by
    intro a ha
    show a ∈ if hash ∈ ix.invalidSet then ix.invalidSet else hash :: ix.invalidSet
    split
    · exact ha
    · exact mem_cons_of_mem hash ha
  new := by
    intro a ha
    change a ∈ if hash ∈ ix.invalidSet then ix.invalidSet else hash :: ix.invalidSet at ha
    split at ha
    · exact Or.inl ha
    · exact (mem_cons.mp ha).symm.imp_right fun heq => mem_singleton.mpr heq
  generation_le := Nat.le_succ _
  same := fun h => absurd h (Nat.succ_ne_self _)

variable {a : Hash}
  (h : ∀ b, Ancestor StoredHeader.parent ix.headers a b → ix.isInvalid b = false)
include h

/-- Where no ancestor is marked, the walk finds none. -/
theorem invalidWalk_of_unmarked (validatedHeight fuel : Nat) (found : Option (Hash × Nat)) :
    ix.invalidWalk validatedHeight fuel a found = found := by
  induction fuel generalizing a with
  | zero => rfl
  | succ fuel ih =>
    rw [invalidWalk]
    cases hget : ix.getHeader a with
    | none => rfl
    | some stored =>
      simp only [h a (Ancestor.refl a), Bool.false_eq_true, if_false]
      split
      · rfl
      · split
        · rfl
        · refine ih fun b hb => h b ?_
          exact Relation.ReflTransGen.head ⟨stored, hget, if_neg ‹_›⟩ hb

theorem firstInvalidAncestor_of_unmarked (validatedHeight maxWalk : Nat) :
    ix.firstInvalidAncestor a validatedHeight maxWalk = none := by
  unfold firstInvalidAncestor
  split
  · rfl
  · exact invalidWalk_of_unmarked h _ _ none

end HeaderIndex

namespace HeaderSync

variable [Hashing]

/-- Marking a header that does not signal touches nothing but the markers. -/
theorem markSignaling_eq (s : HeaderSync) (w : Walk) (header : Header) (height : Nat) :
    ∃ ix cache, s.markSignaling w header height
        = { w with headerIndex := ix, bip110Cache := cache }
      ∧ w.headerIndex.Marks ix [header.blockHash] := by
  unfold markSignaling
  cases s.bip110 with
  | none => exact ⟨_, _, rfl, HeaderIndex.Marks.refl _ _⟩
  | some dep =>
    simp only
    split
    · refine ⟨_, _, rfl, ?_⟩
      split
      · exact HeaderIndex.marks_markInvalid _ _
      · exact HeaderIndex.Marks.refl _ _
    · exact ⟨_, _, rfl, HeaderIndex.Marks.refl _ _⟩

theorem validateHeader_eq_ok {s : HeaderSync} {w : Walk} {header : Header} {height : Nat}
    {work : Bytes} (h : s.validateHeader w header height = .ok work) :
    ∃ prev, w.prevWork header height = .ok prev
      ∧ addChainWork prev (calculateWork header.target) = work := by
  unfold validateHeader at h
  simp only [Except.bind_eq_ok, exists_unit, Except.pure_eq_ok] at h
  exact h.2.2

end HeaderSync

/-! ## The walk stays on a branch -/

/-- The stored headers together with the accepted ones. -/
def Walk.known (ix : HeaderIndex) (w : Walk) : Hash → Option StoredHeader :=
  putAll ix.headers w.batch

/-- A batch of known headers that grows from a stored parent `base` up to
`tip`. -/
structure Grows (ix : HeaderIndex) (known : Hash → Option StoredHeader)
    (batch : List (Hash × StoredHeader)) (tip base : Hash) : Prop where
  rises : ∃ parent, ix.headers base = some parent
    ∧ ∀ p ∈ batch, known p.1 = some p.2 ∧ parent.height < p.2.height
  ancestor : ∀ a, Ancestor StoredHeader.parent known tip a →
    a ∈ batch.map Prod.fst ∨ Ancestor StoredHeader.parent ix.headers base a

/-- **A walk that has not left its branch**, over the index `ix` with a best
header of height `tipHeight`. The walk stands on a known header, which is the
last of the batch if there is a batch; the batch grows from a stored parent,
which is the stored header that was announced again, if there is one. -/
structure Walk.OnBranch [Hashing] (S : Set Header) (genesis : Hash) (ix : HeaderIndex)
    (tipHeight : Nat) (w : Walk) : Prop where
  marks : ix.Marks w.headerIndex (w.batch.map Prod.fst)
  linked : LinkedMap S genesis (w.known ix)
  extend : Extends ix.headers (w.known ix)
  stands : ∃ stored, w.known ix w.prevHash = some stored ∧ stored.height = w.height
    ∧ ∀ last, w.batch.getLast? = some last → last = (w.prevHash, stored)
  /-- Once it has moved above the tip, it does not get back. -/
  above : w.batch ≠ [] ∨ w.storedWalkTip.isSome → ∀ stored, ix.headers w.prevHash = some stored →
    tipHeight < stored.height
  walkTip : ∀ t, w.storedWalkTip = some t → (w.batch = [] → w.prevHash = t.1)
    ∧ ∃ stored, ix.headers t.1 = some stored ∧ stored.height = t.2.1
      ∧ stored.chainWork = t.2.2
  branch : ∀ first, w.batch.head? = some first →
    Grows ix (w.known ix) w.batch w.prevHash first.2.header.prevBlockhash
      ∧ ∀ t, w.storedWalkTip = some t → first.2.header.prevBlockhash = t.1

/-- The ancestors of a header just stored are those of its parent. -/
theorem ancestor_update {known : Hash → Option StoredHeader}
    (hc : Closed StoredHeader.parent known) {header : Header} {hash : Hash}
    {parent : StoredHeader} (hp : known header.prevBlockhash = some parent)
    (hext : Extends known (update known hash (some (parent.child header)))) {a : Hash}
    (ha : Ancestor StoredHeader.parent
      (update known hash (some (parent.child header))) hash a) :
    a = hash ∨ Ancestor StoredHeader.parent known header.prevBlockhash a := by
  refine ((Ancestor.iff_of_eq (update_self _ _ _)).mp ha).imp_right ?_
  rintro ⟨b, hb, hrest⟩
  obtain rfl : header.prevBlockhash = b := by
    simpa [StoredHeader.parent, StoredHeader.child] using hb
  exact (Ancestor.iff_of_extends hc hext (by rw [hp]; rfl)).mp hrest

namespace Grows

variable {ix : HeaderIndex} {known : Hash → Option StoredHeader} {header : Header} {hash : Hash}
  {parent : StoredHeader}

/-- The first header of a batch. -/
theorem start (hc : Closed StoredHeader.parent ix.headers)
    (hp : ix.headers header.prevBlockhash = some parent)
    (hext : Extends ix.headers (update ix.headers hash (some (parent.child header)))) :
    Grows ix (update ix.headers hash (some (parent.child header)))
      [(hash, parent.child header)] hash header.prevBlockhash where
  rises := by
    refine ⟨parent, hp, fun p hpm => ?_⟩
    obtain rfl := mem_singleton.mp hpm
    exact ⟨update_self _ _ _, Nat.lt_succ_self _⟩
  ancestor := by
    intro a ha
    rcases ancestor_update hc hp hext ha with rfl | ha
    · exact Or.inl mem_cons_self
    · exact Or.inr ha

/-- A further header, over the last one. -/
theorem push {batch : List (Hash × StoredHeader)} {base : Hash}
    (h : Grows ix known batch header.prevBlockhash base)
    (hc : Closed StoredHeader.parent known) (hp : known header.prevBlockhash = some parent)
    (hlast : (header.prevBlockhash, parent) ∈ batch)
    (hext : Extends known (update known hash (some (parent.child header)))) :
    Grows ix (update known hash (some (parent.child header)))
      (batch ++ [(hash, parent.child header)]) hash base where
  rises := by
    obtain ⟨low, hlow, hall⟩ := h.rises
    refine ⟨low, hlow, fun p hpm => ?_⟩
    rcases mem_append.mp hpm with hpm | hpm
    · exact ⟨hext _ _ (hall p hpm).1, (hall p hpm).2⟩
    · obtain rfl := mem_singleton.mp hpm
      exact ⟨update_self _ _ _, Nat.lt_succ_of_lt (hall _ hlast).2⟩
  ancestor := by
    intro a ha
    rw [map_append]
    rcases ancestor_update hc hp hext ha with rfl | ha
    · exact Or.inl (mem_append_right _ mem_cons_self)
    · exact (h.ancestor a ha).imp_left fun hm => mem_append_left _ hm

end Grows

namespace Walk.OnBranch

variable [Hashing] {S : Set Header} {genesis : Hash} {ix : HeaderIndex} {tipHeight : Nat}
  {w : Walk}

omit [Hashing] in
theorem known_of_nil (ix : HeaderIndex) (h : w.batch = []) : w.known ix = ix.headers := by
  rw [known, h]
  rfl

/-- The work of the parent is known where the parent is. -/
theorem prevWork_eq (h : w.OnBranch S genesis ix tipHeight) {header : Header}
    {parent : StoredHeader} (hp : w.known ix header.prevBlockhash = some parent)
    (hprev : header.prevBlockhash = w.prevHash ∨ w.batch = []) :
    w.prevWork header (parent.height + 1) = .ok parent.chainWork := by
  unfold Walk.prevWork
  split
  · -- only the first block is below height 1
    rcases h.linked.linked _ parent hp with ⟨-, -, hzero⟩ | ⟨grand, -, hheight, -⟩
    · rw [hzero]
    · omega
  · cases hlast : w.batch.getLast? with
    | some last =>
      obtain ⟨stored, hstands, -, heq⟩ := h.stands
      have hne : w.batch ≠ [] := by
        rintro hnil
        rw [hnil] at hlast
        cases hlast
      rw [hprev.resolve_right hne, hstands] at hp
      obtain rfl := Option.some.inj hp
      rw [heq last hlast]
    | none =>
      rw [known_of_nil ix (getLast?_eq_none_iff.mp hlast)] at hp
      simp only [HeaderIndex.getHeader, h.marks.headers, hp]

theorem known_push (w : Walk) (ix : HeaderIndex) (header : Header) (parent : StoredHeader) :
    (HeaderSync.pushHeader w header (parent.height + 1) (parent.child header).chainWork).known ix
      = update (w.known ix) header.blockHash (some (parent.child header)) :=
  putAll_append _ _ _

/-- **Accepting a header** over the header the walk stands on, or over a stored
one if nothing was accepted or remembered yet. -/
theorem push (h : w.OnBranch S genesis ix tipHeight) (hS : Collisionless S) {header : Header}
    (hmem : header ∈ S) {parent : StoredHeader}
    (hp : w.known ix header.prevBlockhash = some parent)
    (hprev : header.prevBlockhash = w.prevHash ∨ w.batch = [] ∧ w.storedWalkTip = none)
    (hnew : ∀ stored, ix.headers header.blockHash = some stored → tipHeight < stored.height) :
    (HeaderSync.pushHeader w header (parent.height + 1)
      (parent.child header).chainWork).OnBranch S genesis ix tipHeight := by
  obtain ⟨hext, hlinked⟩ := h.linked.insert hS hmem hp
  refine ⟨?_, ?_, ?_, ?_, fun _ => hnew, fun t ht => ⟨fun hnil => ?_, (h.walkTip t ht).2⟩,
    fun first hfirst => ?_⟩
  · show ix.Marks w.headerIndex ((w.batch ++ [(header.blockHash, _)]).map Prod.fst)
    rw [map_append]
    exact h.marks.trans (HeaderIndex.Marks.refl _ _)
  · rw [known_push]
    exact hlinked
  · rw [known_push]
    exact h.extend.trans hext
  · rw [known_push]
    refine ⟨parent.child header, update_self _ _ _, rfl, fun last hlast => ?_⟩
    exact (Option.some.inj (getLast?_concat.symm.trans hlast)).symm
  · exact absurd hnil (append_ne_nil_of_right_ne_nil _ (cons_ne_nil _ _))
  · rw [known_push]
    change (w.batch ++ [(header.blockHash, parent.child header)]).head? = some first at hfirst
    show Grows ix _ (w.batch ++ [(header.blockHash, parent.child header)]) header.blockHash _
      ∧ ∀ t, w.storedWalkTip = some t → _
    by_cases hbatch : w.batch = []
    · rw [hbatch] at hfirst ⊢
      obtain rfl := Option.some.inj hfirst
      have hknown := known_of_nil ix hbatch
      rw [hknown] at hp hext ⊢
      refine ⟨Grows.start (hknown ▸ h.linked.closed) hp hext, fun t ht => ?_⟩
      rcases hprev with hprev | ⟨-, hnone⟩
      · exact hprev.trans ((h.walkTip t ht).1 hbatch)
      · rw [hnone] at ht
        cases ht
    · have hprev' := hprev.resolve_right fun hn => hbatch hn.1
      rw [head?_append_of_ne_nil _ hbatch] at hfirst
      obtain ⟨hgrows, htip⟩ := h.branch first hfirst
      obtain ⟨stored, hstands, -, hlast⟩ := h.stands
      rw [← hprev'] at hgrows hstands hlast
      obtain rfl : stored = parent := mem_unique hstands hp
      refine ⟨hgrows.push h.linked.closed hp ?_ hext, htip⟩
      rw [← hlast _ (getLast?_eq_getLast_of_ne_nil hbatch)]
      exact getLast_mem hbatch

/-- **Moving to a stored header** before anything is accepted. -/
theorem move (h : w.OnBranch S genesis ix tipHeight) (hbatch : w.batch = []) {hash : Hash}
    {stored : StoredHeader} (found : ix.headers hash = some stored)
    {tip : Option (Hash × Nat × Bytes)}
    (htip : tip = none ∨
      (tip = some (hash, stored.height, stored.chainWork) ∧ tipHeight < stored.height)) :
    Walk.OnBranch S genesis ix tipHeight
      { w with prevHash := hash, height := stored.height, storedWalkTip := tip } := by
  refine ⟨h.marks, h.linked, h.extend, ⟨stored, h.extend _ _ found, rfl, fun last hlast => ?_⟩,
    fun habove stored' hs => ?_, fun t ht => ?_, fun first hfirst => ?_⟩
  · rw [hbatch] at hlast
    cases hlast
  · rcases htip with rfl | ⟨-, hlt⟩
    · exact absurd habove (by simp [hbatch])
    · exact mem_unique found hs ▸ hlt
  · rcases htip with rfl | ⟨rfl, -⟩
    · cases ht
    · obtain rfl := Option.some.inj ht
      exact ⟨fun _ => rfl, stored, found, rfl, rfl⟩
  · rw [hbatch] at hfirst
    cases hfirst

/-- Marking accepted headers keeps the walk where it is. -/
theorem mark (h : w.OnBranch S genesis ix tipHeight) {ix' : HeaderIndex} {hash : Hash}
    (hmarks : w.headerIndex.Marks ix' [hash]) (hmem : hash ∈ w.batch.map Prod.fst)
    (cache : Bip110Cache) :
    Walk.OnBranch S genesis ix tipHeight { w with headerIndex := ix', bip110Cache := cache } := by
  refine ⟨?_, h.linked, h.extend, h.stands, h.above, h.walkTip, h.branch⟩
  have hm := h.marks.trans hmarks
  refine ⟨hm.headers, hm.heightIndex, hm.mono, fun a ha => ?_, hm.generation_le, hm.same⟩
  refine (hm.new a ha).imp_right fun hin => ?_
  rcases mem_append.mp hin with hin | hin
  · exact hin
  · exact mem_singleton.mp hin ▸ hmem

end Walk.OnBranch

/-! ## The walk over a message -/

namespace HeaderSync

variable [Hashing]

/-- Why a header is placed where it is, over the stored headers `m`. -/
inductive Placed (s : HeaderSync) (m : Hash → Option StoredHeader) (w : Walk)
    (header : Header) : Placement → Prop
  | skip {stored : StoredHeader} (found : m header.blockHash = some stored)
      (low : stored.height ≤ s.bestHeight) : Placed s m w header (.skip stored)
  | reannounced {stored : StoredHeader} (found : m header.blockHash = some stored)
      (high : s.bestHeight < stored.height) (apart : header.prevBlockhash ≠ w.prevHash) :
      Placed s m w header (.reannounced stored)
  | follow (new : ∀ stored, m header.blockHash = some stored → s.bestHeight < stored.height)
      (next : header.prevBlockhash = w.prevHash) : Placed s m w header (.child w.height)
  | fork {parent : StoredHeader}
      (new : ∀ stored, m header.blockHash = some stored → s.bestHeight < stored.height)
      (apart : header.prevBlockhash ≠ w.prevHash)
      (found : m header.prevBlockhash = some parent) : Placed s m w header (.child parent.height)
  | stop : Placed s m w header .stop
  | unconnected : Placed s m w header .unconnected

theorem placed_place (s : HeaderSync) (blockHeight : Nat) (w : Walk) (header : Header) :
    s.Placed w.headerIndex.headers w header (s.place blockHeight w header) := by
  unfold place HeaderIndex.getHeader
  cases hfound : w.headerIndex.headers header.blockHash with
  | none =>
    have hnew : ∀ stored, w.headerIndex.headers header.blockHash = some stored →
        s.bestHeight < stored.height := by
      intro stored hs
      rw [hfound] at hs
      cases hs
    simp only [filter_none]
    split
    · exact .follow hnew ‹_›
    · cases hparent : w.headerIndex.headers header.prevBlockhash with
      | none =>
        simp only
        split
        · exact .unconnected
        · exact .stop
      | some parent =>
        simp only
        split
        · exact .stop
        · exact .fork hnew ‹_› hparent
  | some stored =>
    by_cases hlow : stored.height ≤ s.bestHeight
    · rw [filter_some_pos (by simpa using hlow)]
      exact .skip hfound hlow
    · rw [filter_some_neg (by simpa using hlow)]
      simp only
      split
      · refine .follow (fun stored' hs => ?_) ‹_›
        rw [hfound] at hs
        exact Option.some.inj hs ▸ Nat.lt_of_not_le hlow
      · exact .reannounced hfound (Nat.lt_of_not_le hlow) ‹_›

variable {S : Set Header} {genesis : Hash} {ix : HeaderIndex} {s : HeaderSync} {w w' : Walk}

/-- Accepting a header, marked or not. -/
theorem onBranch_accept (h : w.OnBranch S genesis ix s.bestHeight) (hS : Collisionless S)
    {header : Header} (hmem : header ∈ S) {parent : StoredHeader}
    (hp : w.known ix header.prevBlockhash = some parent)
    (hprev : header.prevBlockhash = w.prevHash ∨ w.batch = [] ∧ w.storedWalkTip = none)
    (hnew : ∀ stored, ix.headers header.blockHash = some stored → s.bestHeight < stored.height)
    {work : Bytes} (hvalid : s.validateHeader w header (parent.height + 1) = .ok work) :
    (pushHeader (s.markSignaling w header (parent.height + 1)) header (parent.height + 1)
      work).OnBranch S genesis ix s.bestHeight := by
  obtain ⟨prevWork, hwork, rfl⟩ := validateHeader_eq_ok hvalid
  obtain rfl := Except.ok.inj ((h.prevWork_eq hp (hprev.imp_right And.left)).symm.trans hwork)
  obtain ⟨ix', cache, hmark, hmarks⟩ := s.markSignaling_eq w header (parent.height + 1)
  rw [hmark]
  refine (h.push hS hmem hp hprev hnew).mark hmarks ?_ cache
  show header.blockHash ∈ (w.batch ++ [(header.blockHash, _)]).map Prod.fst
  rw [map_append]
  exact mem_append_right _ mem_cons_self

section

variable {header : Header} (hix : LinkedMap S genesis ix.headers) (hS : Collisionless S)
  (h : w.OnBranch S genesis ix s.bestHeight) (hmem : header ∈ S)
include hix hS h hmem

/-- A stored header at or below the tip does not follow the walk once it has
moved above the tip. -/
theorem not_low_of_above (hprev : header.prevBlockhash = w.prevHash)
    (habove : w.batch ≠ [] ∨ w.storedWalkTip.isSome) {stored : StoredHeader}
    (hstored : ix.headers header.blockHash = some stored) : s.bestHeight < stored.height := by
  obtain rfl := hix.header_eq hS hmem hstored
  obtain ⟨top, htop, -, -⟩ := h.stands
  rcases hix.linked _ stored hstored with ⟨hgen, -, -⟩ | ⟨parent, hp, hheight, -⟩
  · -- the first block follows nothing
    rw [hgen] at hstored
    have hnone := h.linked.parent_genesis_eq hS (h.extend _ _ hstored)
    rw [hprev, htop] at hnone
    cases hnone
  · rw [hprev] at hp
    have hlt := h.above habove parent hp
    omega

/-- **One header** that follows the walk, or any header at its start, keeps the
walk on a branch, and the walk stands on the header then. -/
theorem onBranch_walkHeader
    (hprev : header.prevBlockhash = w.prevHash ∨ w.batch = [] ∧ w.storedWalkTip = none)
    {blockHeight : Nat} (hw : s.walkHeader blockHeight w header = .ok (some w')) :
    w'.OnBranch S genesis ix s.bestHeight ∧ w'.prevHash = header.blockHash := by
  have hplaced := s.placed_place blockHeight w header
  rw [h.marks.headers] at hplaced
  unfold walkHeader at hw
  -- where the walk has left the start behind, the header follows it
  have hstart : ∀ stored, ix.headers header.blockHash = some stored →
      stored.height ≤ s.bestHeight → w.batch = [] ∧ w.storedWalkTip = none := by
    intro stored hstored hlow
    by_contra hnot
    have habove : w.batch ≠ [] ∨ w.storedWalkTip.isSome := by
      by_cases hb : w.batch = []
      · right
        exact isSome_iff_ne_none.mpr fun ht => hnot ⟨hb, ht⟩
      · exact Or.inl hb
    have hlt := not_low_of_above hix hS h hmem (hprev.resolve_right hnot) habove hstored
    omega
  generalize s.place blockHeight w header = placement at hplaced hw
  cases hplaced with
  | @skip stored found low =>
    obtain ⟨hbatch, htip⟩ := hstart stored found low
    obtain rfl := Option.some.inj (Except.ok.inj hw)
    exact ⟨h.move hbatch found (Or.inl htip), rfl⟩
  | @reannounced stored found high apart =>
    obtain ⟨hbatch, htip⟩ := hprev.resolve_left apart
    obtain rfl := Option.some.inj (Except.ok.inj hw)
    exact ⟨h.move hbatch found (Or.inr ⟨rfl, high⟩), rfl⟩
  | follow new next =>
    obtain ⟨top, htop, hheight, -⟩ := h.stands
    simp only [← hheight, Except.bind_eq_ok, Except.pure_eq_ok, Option.some.injEq] at hw
    obtain ⟨work, hvalid, rfl⟩ := hw
    exact ⟨onBranch_accept h hS hmem (next ▸ htop) (Or.inl next) new hvalid, rfl⟩
  | @fork parent new apart found =>
    simp only [Except.bind_eq_ok, Except.pure_eq_ok, Option.some.injEq] at hw
    obtain ⟨work, hvalid, rfl⟩ := hw
    exact ⟨onBranch_accept h hS hmem (h.extend _ _ found) hprev new hvalid, rfl⟩
  | stop => cases hw
  | unconnected => cases hw

end

/-- The headers of a message follow one another. -/
abbrev Follows (headers : List Header) : Prop :=
  headers.IsChain fun a b => b.prevBlockhash = a.blockHash

/-- **The walk over headers that follow one another** stays on a branch. -/
theorem onBranch_walkHeaders (hix : LinkedMap S genesis ix.headers) (hS : Collisionless S)
    {headers : List Header} (hmem : ∀ h ∈ headers, h ∈ S) (hfollows : Follows headers)
    (blockHeight : Nat) (h : w.OnBranch S genesis ix s.bestHeight)
    (hprev : ∀ first ∈ headers.head?,
      first.prevBlockhash = w.prevHash ∨ w.batch = [] ∧ w.storedWalkTip = none) :
    (s.walkHeaders blockHeight headers w).2.OnBranch S genesis ix s.bestHeight := by
  induction headers generalizing w with
  | nil => exact h
  | cons header headers ih =>
    unfold walkHeaders
    cases hw : s.walkHeader blockHeight w header with
    | error e => exact h
    | ok next =>
      cases next with
      | none => exact h
      | some w' =>
        obtain ⟨hw', hstands⟩ := onBranch_walkHeader hix hS h (hmem _ mem_cons_self)
          (hprev header rfl) hw
        refine ih (fun a ha => hmem a (mem_cons_of_mem _ ha)) hfollows.tail hw' ?_
        intro first hfirst
        cases headers with
        | nil => cases hfirst
        | cons next rest =>
          obtain rfl := Option.some.inj hfirst
          exact Or.inl ((isChain_cons_cons.mp hfollows).1.trans hstands.symm)

end HeaderSync

/-! ## Fork choice leaves the stored headers alone -/

/-- Only the height index and the tips may have changed. -/
structure HeaderIndex.Reindexed (ix ix' : HeaderIndex) : Prop where
  headers : ix'.headers = ix.headers
  invalidSet : ix'.invalidSet = ix.invalidSet
  generation : ix'.invalidGeneration = ix.invalidGeneration

namespace HeaderIndex

theorem Reindexed.refl (ix : HeaderIndex) : ix.Reindexed ix := ⟨rfl, rfl, rfl⟩

theorem Reindexed.trans {ix ix' ix'' : HeaderIndex} (h : ix.Reindexed ix')
    (h' : ix'.Reindexed ix'') : ix.Reindexed ix'' :=
  ⟨h'.headers.trans h.headers, h'.invalidSet.trans h.invalidSet, h'.generation.trans h.generation⟩

theorem reindexed_restoreBranchHeightIndex {ix ix' : HeaderIndex} {tip : Hash}
    (h : ix.restoreBranchHeightIndex tip = some ix') : ix.Reindexed ix' := by
  unfold restoreBranchHeightIndex at h
  split at h
  · cases h
  · obtain ⟨writes, -, rfl⟩ := map_eq_some_iff.mp h
    exact ⟨rfl, rfl, rfl⟩

theorem reindexed_getD_restoreBranchHeightIndex (ix : HeaderIndex) (tip : Hash) :
    ix.Reindexed ((ix.restoreBranchHeightIndex tip).getD ix) := by
  cases h : ix.restoreBranchHeightIndex tip with
  | none => exact Reindexed.refl ix
  | some ix' => exact reindexed_restoreBranchHeightIndex h

end HeaderIndex

namespace HeaderSync

/-- The state with another memo. -/
def withMemo (s : HeaderSync) (memo : AList fun _ : Hash => Bool) : HeaderSync :=
  { s with branchTainted := memo }

theorem branchIsTainted_snd (s : HeaderSync) (tip : Hash) (floor : Nat) :
    ∃ memo, (s.branchIsTainted tip floor).2 = s.withMemo memo := by
  unfold branchIsTainted
  split
  · exact ⟨s.branchTainted, rfl⟩
  · exact ⟨_, rfl⟩

theorem reindexed_adoptBatch (s : HeaderSync) (w : Walk) (work : Bytes) :
    s.headerIndex.Reindexed (s.adoptBatch w work).headerIndex := by
  have hrestore := (s.headerIndex.updateHeightIndexBatch
    w.batch).reindexed_getD_restoreBranchHeightIndex w.prevHash
  exact ⟨hrestore.headers, hrestore.invalidSet, hrestore.generation⟩

theorem taintOfBatch_snd (s : HeaderSync) (w : Walk) (parent : Hash) (blockHeight : Nat) :
    ∃ memo, (s.taintOfBatch w parent blockHeight).2 = s.withMemo memo := by
  obtain ⟨memo, hmemo⟩ := s.branchIsTainted_snd parent blockHeight
  unfold taintOfBatch noteBranchTaint
  simp only [hmemo]
  exact ⟨_, rfl⟩

theorem chooseBatch_nil {s : HeaderSync} {w : Walk} (h : w.batch = []) (blockHeight : Nat) :
    s.chooseBatch w blockHeight = s := by
  unfold chooseBatch
  rw [h]
  rfl

/-- The batch is stored, if there is one; it is adopted, if it is not tainted and
has the work, or the tip stays. -/
theorem chooseBatch_cases (s : HeaderSync) (w : Walk) (blockHeight : Nat) :
    w.batch = [] ∧ s.chooseBatch w blockHeight = s ∨
      ∃ first memo, w.batch.head? = some first
        ∧ ((s.storeBatch w).taintOfBatch w first.2.header.prevBlockhash blockHeight).2
          = (s.storeBatch w).withMemo memo
        ∧ (s.chooseBatch w blockHeight = (s.storeBatch w).withMemo memo ∨
          ((s.storeBatch w).taintOfBatch w first.2.header.prevBlockhash blockHeight).1 = false ∧
            ∃ last, w.batch.getLast? = some last
              ∧ (((s.storeBatch w).headerIndex.getHeader s.bestHash).map
                  StoredHeader.chainWork).getD zeroWork ≤ last.2.chainWork
              ∧ s.chooseBatch w blockHeight
                = ((s.storeBatch w).withMemo memo).adoptBatch w last.2.chainWork) := by
  cases hfirst : w.batch.head? with
  | none =>
    have hnil := head?_eq_none_iff.mp hfirst
    exact Or.inl ⟨hnil, chooseBatch_nil hnil blockHeight⟩
  | some first =>
    have hne : w.batch ≠ [] := by
      rintro hnil
      rw [hnil] at hfirst
      cases hfirst
    obtain ⟨memo, hmemo⟩ := (s.storeBatch w).taintOfBatch_snd w first.2.header.prevBlockhash
      blockHeight
    refine Or.inr ⟨first, memo, rfl, hmemo, ?_⟩
    unfold chooseBatch
    rw [hfirst, getLast?_eq_getLast_of_ne_nil hne, ← hmemo]
    simp only
    split
    · rename_i hadopt
      rw [Bool.and_eq_true, Bool.not_eq_true', decide_eq_true_eq] at hadopt
      exact Or.inr ⟨hadopt.1, _, rfl, hadopt.2, rfl⟩
    · exact Or.inl rfl

/-- A stored branch is adopted, if it is not tainted, or only the memo
changes. -/
theorem chooseStored_cases (s : HeaderSync) (w : Walk) (blockHeight : Nat) :
    s.chooseStored w blockHeight = s ∨
      ∃ tip memo, w.storedWalkTip = some tip
        ∧ (s.branchIsTainted tip.1 blockHeight).2 = s.withMemo memo
        ∧ (s.chooseStored w blockHeight = s.withMemo memo ∨
          (s.branchIsTainted tip.1 blockHeight).1 = false ∧
            ∃ ix, s.headerIndex.restoreBranchHeightIndex tip.1 = some ix
              ∧ s.chooseStored w blockHeight = { s.withMemo memo with
                  headerIndex := ix.resetForkHeaderTip tip.2.1 tip.1
                  bestHash := tip.1
                  bestHeight := tip.2.1
                  bestChainWork := tip.2.2 }) := by
  unfold chooseStored
  cases htip : w.storedWalkTip with
  | none => exact Or.inl rfl
  | some t =>
    obtain ⟨tip, tipHeight, tipWork⟩ := t
    simp only
    split
    · obtain ⟨memo, hmemo⟩ := s.branchIsTainted_snd tip blockHeight
      refine Or.inr ⟨_, memo, rfl, hmemo, ?_⟩
      rw [← hmemo]
      split
      · exact Or.inl rfl
      · rename_i hclean
        cases hrestore : (s.branchIsTainted tip blockHeight).2.headerIndex.restoreBranchHeightIndex
            tip with
        | none => exact Or.inl rfl
        | some ix =>
          rw [hmemo] at hrestore
          exact Or.inr ⟨by simpa using hclean, ix, hrestore, rfl⟩
    · exact Or.inl rfl

end HeaderSync

/-! ## Messages -/

namespace HeaderSync

variable [Hashing] {S : Set Header} {genesis : Hash} {s : HeaderSync}

/-- **A sound state of header sync**: the stored headers are linked, and the
best header is stored. -/
structure Anchored (S : Set Header) (genesis : Hash) (s : HeaderSync) : Prop where
  linked : LinkedMap S genesis s.headerIndex.headers
  best : ∃ stored, s.headerIndex.headers s.bestHash = some stored
    ∧ stored.height = s.bestHeight

theorem Anchored.startWalk (h : s.Anchored S genesis) :
    s.startWalk.OnBranch S genesis s.headerIndex s.bestHeight := by
  obtain ⟨stored, hstored, hheight⟩ := h.best
  refine ⟨HeaderIndex.Marks.refl _ _, h.linked, Extends.refl _,
    ⟨stored, hstored, hheight, fun _ hl => (by cases hl)⟩, fun habove => ?_,
    fun _ ht => (by cases ht), fun _ hf => (by cases hf)⟩
  exact absurd habove (by simp [HeaderSync.startWalk])

section

variable {ix : HeaderIndex} {w : Walk} {tipHeight : Nat} (h : w.OnBranch S genesis ix tipHeight)
  (hix : s.headerIndex = w.headerIndex)
include h hix

/-- What is stored with the batch is what the walk has known. -/
theorem headers_storeBatch : (s.storeBatch w).headerIndex.headers = w.known ix := by
  show putAll s.headerIndex.headers w.batch = w.known ix
  rw [hix, h.marks.headers]
  rfl

section

variable (hbest : ∃ stored, ix.headers s.bestHash = some stored ∧ stored.height = s.bestHeight)
  (blockHeight : Nat)
include hbest blockHeight

/-- After the batch is chosen from, the headers of the walk are stored, and the
best header is one of them. -/
theorem known_chooseBatch :
    (s.chooseBatch w blockHeight).headerIndex.headers = w.known ix
      ∧ ∃ stored, w.known ix (s.chooseBatch w blockHeight).bestHash = some stored
        ∧ stored.height = (s.chooseBatch w blockHeight).bestHeight := by
  have hstored := headers_storeBatch h hix
  rcases s.chooseBatch_cases w blockHeight with
    ⟨hnil, heq⟩ | ⟨first, memo, -, -, heq | ⟨-, last, -, -, heq⟩⟩ <;> rw [heq]
  · rw [Walk.OnBranch.known_of_nil ix hnil, hix]
    exact ⟨h.marks.headers, hbest⟩
  · obtain ⟨stored, hs, hheight⟩ := hbest
    exact ⟨hstored, stored, h.extend _ _ hs, hheight⟩
  · have hre := ((s.storeBatch w).withMemo memo).reindexed_adoptBatch w last.2.chainWork
    obtain ⟨stored, hs, hheight, -⟩ := h.stands
    exact ⟨hre.headers.trans hstored, stored, hs, hheight⟩

/-- What the choice after the walk leaves is anchored again. -/
theorem anchored_choose :
    ((s.chooseBatch w blockHeight).chooseStored w blockHeight).Anchored S genesis := by
  obtain ⟨hheaders, hbest₁⟩ := known_chooseBatch h hix hbest blockHeight
  generalize s.chooseBatch w blockHeight = s₁ at hheaders hbest₁ ⊢
  have hs₁ : s₁.Anchored S genesis := ⟨hheaders ▸ h.linked, hheaders ▸ hbest₁⟩
  rcases s₁.chooseStored_cases w blockHeight with
    heq | ⟨tip, memo, htip, -, heq | ⟨-, ix', hrestore, heq⟩⟩ <;> rw [heq]
  · exact hs₁
  · exact ⟨hs₁.linked, hs₁.best⟩
  · have hre := HeaderIndex.reindexed_restoreBranchHeightIndex hrestore
    obtain ⟨-, stored, hs, hheight, -⟩ := h.walkTip tip htip
    refine ⟨hre.headers ▸ hs₁.linked, stored, ?_, hheight⟩
    exact (congrFun (hre.headers.trans hheaders) tip.1).trans (h.extend _ _ hs)

end

end

omit [Hashing] in
@[simp] theorem refreshTaintMemo_headerIndex (s : HeaderSync) :
    s.refreshTaintMemo.headerIndex = s.headerIndex := by
  unfold refreshTaintMemo
  split <;> rfl

omit [Hashing] in
@[simp] theorem refreshTaintMemo_bestHash (s : HeaderSync) :
    s.refreshTaintMemo.bestHash = s.bestHash := by
  unfold refreshTaintMemo
  split <;> rfl

omit [Hashing] in
@[simp] theorem refreshTaintMemo_bestHeight (s : HeaderSync) :
    s.refreshTaintMemo.bestHeight = s.bestHeight := by
  unfold refreshTaintMemo
  split <;> rfl

omit [Hashing] in
theorem noteSynced_eq (s : HeaderSync) (received : Nat) :
    ∃ synced, s.noteSynced received = { s with synced := synced } := by
  unfold noteSynced
  split
  · exact ⟨true, rfl⟩
  · exact ⟨s.synced, rfl⟩

section

variable {headers : List Header} (h : s.Anchored S genesis) (hS : Collisionless S)
  (hmem : ∀ a ∈ headers, a ∈ S) (hfollows : Follows headers)
include h hS hmem hfollows

/-- **What comes of a message whose headers follow one another**: the walk over
it stays on a branch, and may have marked headers; if it came to its end, the
batch and the stored branch it met are chosen from. -/
theorem Anchored.exists_walk (hne : headers ≠ []) (blockHeight : Nat) :
    ∃ w, (s.refreshTaintMemo.walkHeaders blockHeight headers s.refreshTaintMemo.startWalk).2 = w
      ∧ w.OnBranch S genesis s.headerIndex s.bestHeight
      ∧ ((s.processHeaders headers blockHeight).2 = s.refreshTaintMemo.takeWalk w ∨
          s.refreshTaintMemo.walkHeaders blockHeight headers s.refreshTaintMemo.startWalk
              = (.ok (), w)
            ∧ ∃ synced, (s.processHeaders headers blockHeight).2
              = { ((s.refreshTaintMemo.takeWalk w).chooseBatch w blockHeight).chooseStored w
                    blockHeight with synced := synced }) := by
  have hr : s.refreshTaintMemo.Anchored S genesis :=
    ⟨by simpa using h.linked, by simpa using h.best⟩
  have hwalk := onBranch_walkHeaders hr.linked hS hmem hfollows blockHeight
    hr.startWalk (fun _ _ => Or.inr ⟨rfl, rfl⟩)
  rw [refreshTaintMemo_headerIndex, refreshTaintMemo_bestHeight] at hwalk
  refine ⟨_, rfl, hwalk, ?_⟩
  unfold HeaderSync.processHeaders
  rw [if_neg (by simpa using hne)]
  simp only
  rcases s.refreshTaintMemo.walkHeaders blockHeight headers s.refreshTaintMemo.startWalk
    with ⟨result, w⟩
  cases result with
  | error e => exact Or.inl rfl
  | ok u => exact Or.inr ⟨rfl, noteSynced_eq _ _⟩

/-- **A message whose headers follow one another** leaves the state anchored,
whatever comes of it. -/
theorem Anchored.processHeaders (blockHeight : Nat) :
    (s.processHeaders headers blockHeight).2.Anchored S genesis := by
  by_cases hne : headers = []
  · subst hne
    exact h
  · obtain ⟨w, -, hwalk, heq | ⟨-, synced, heq⟩⟩ :=
      h.exists_walk hS hmem hfollows hne blockHeight <;>
      rw [heq]
    · refine ⟨?_, ?_⟩ <;> simp only [takeWalk, hwalk.marks.headers]
      · exact h.linked
      · simpa using h.best
    · have hchosen := anchored_choose (s := s.refreshTaintMemo.takeWalk w) hwalk rfl
        (by simpa [takeWalk] using h.best) blockHeight
      exact ⟨hchosen.linked, hchosen.best⟩

end

end HeaderSync

/-! ## Runs of messages -/

namespace HeaderSync

variable [Hashing]

/-- Process messages one after another, each with the height of the blocks at
its time. -/
def processAll (s : HeaderSync) (messages : List (List Header × Nat)) : HeaderSync :=
  messages.foldl (fun s message => (s.processHeaders message.1 message.2).2) s

/-- **Messages of headers that follow one another** keep the stored headers
linked. -/
theorem linked_processAll {S : Set Header} {genesis : Hash} {s : HeaderSync}
    (hs : s.Anchored S genesis) (hS : Collisionless S) (messages : List (List Header × Nat))
    (hmem : ∀ message ∈ messages, ∀ h ∈ message.1, h ∈ S)
    (hfollows : ∀ message ∈ messages, Follows message.1) :
    Linked genesis (s.processAll messages).headerIndex.headers := by
  suffices h : (s.processAll messages).Anchored S genesis from h.linked.linked
  induction messages generalizing s with
  | nil => exact hs
  | cons message messages ih =>
    have hstep := hs.processHeaders hS (hmem _ mem_cons_self) (hfollows _ mem_cons_self) message.2
    exact ih hstep (fun m hm => hmem m (mem_cons_of_mem _ hm))
      fun m hm => hfollows m (mem_cons_of_mem _ hm)

end HeaderSync

/-- Whatever messages come, the stored headers stay linked. -/
def MessagesKeepLinked : Prop :=
  ∀ [Hashing] (S : Set Header) (genesis : Hash) (s : HeaderSync)
    (messages : List (List Header × Nat)), Collisionless S → s.Anchored S genesis →
    (∀ message ∈ messages, ∀ h ∈ message.1, h ∈ S) →
    Linked genesis (s.processAll messages).headerIndex.headers

section Sample

attribute [local instance] sampleHashing

/-- Header 1 is the first block; headers 3 and 4 are both children of header 2,
and headers 2 and 5 of header 1. -/
def forkHeaders : List Header :=
  [sampleHeader 0 1 0 0, sampleHeader 1 2 1 0, sampleHeader 2 3 2 0, sampleHeader 2 4 2 0,
    sampleHeader 1 5 1 0]

/-- Header sync that knows the first block only. -/
def firstSync : HeaderSync :=
  HeaderSync.new ConsensusParams.regtest (sampleIndex [(1, 0, 0)]) 0 1#256 none fun _ => none

theorem collisionless_of_list {l : List Header} (h : ∀ a ∈ l, a.blockHash ≠ Hash.allZeros
    ∧ ∀ b ∈ l, a.blockHash = b.blockHash → a = b) : Collisionless { a | a ∈ l } :=
  ⟨fun a ha b hb => (h a ha).2 b hb, fun a ha => (h a ha).1⟩

theorem collisionless_forkHeaders : Collisionless { h | h ∈ forkHeaders } :=
  collisionless_of_list (by decide)

theorem firstSync_headers {hash : Hash} {stored : StoredHeader}
    (h : firstSync.headerIndex.headers hash = some stored) :
    hash = 1#256 ∧ stored = ⟨sampleHeader 0 1 0 0, 0, zeroWork⟩ := by
  rcases update_eq_some.mp h with ⟨rfl, hfirst⟩ | ⟨-, hnone⟩
  · exact ⟨rfl, (Option.some.inj hfirst).symm⟩
  · cases hnone

theorem anchored_withParams {l : List Header} (hfirst : sampleHeader 0 1 0 0 ∈ l)
    (params : ConsensusParams) :
    HeaderSync.Anchored { h | h ∈ l } 1#256 { firstSync with params } := by
  refine ⟨⟨fun hash stored h => ?_, fun hash stored h => ?_, fun hash stored h => ?_,
    ⟨_, rfl, by decide⟩⟩, _, rfl, rfl⟩ <;> obtain ⟨rfl, rfl⟩ := firstSync_headers h
  · exact Or.inl ⟨rfl, rfl, rfl⟩
  · exact hfirst
  · decide

theorem anchored_firstSync : firstSync.Anchored { h | h ∈ forkHeaders } 1#256 :=
  anchored_withParams (by decide) ConsensusParams.regtest

/-- A message of two headers, the second over the first. -/
theorem linked_processAll_chain :
    Linked 1#256 (firstSync.processAll
      [([sampleHeader 1 2 1 0, sampleHeader 2 3 2 0], 0)]).headerIndex.headers :=
  HeaderSync.linked_processAll anchored_firstSync collisionless_forkHeaders _
    (show ∀ message ∈ [([sampleHeader 1 2 1 0, sampleHeader 2 3 2 0], 0)],
      ∀ h ∈ message.1, h ∈ forkHeaders by decide)
    (by decide)

theorem calculateWork_sampleHeader (prev nonce time : Nat) (root : Hash) :
    calculateWork (sampleHeader prev nonce time root).target = List.replicate 31 0 ++ [2] := by
  show calculateWork (sampleHeader 0 0 0 0).target = _
  decide +kernel

/-- Header `nonce` over header `prev`, at a height: every header but the first
adds two to the work. -/
def treeStored (nonce prev height : Nat) : StoredHeader :=
  ⟨sampleHeader prev nonce height 0, height, List.replicate 31 0 ++ [UInt8.ofNat (2 * height)]⟩

/-- A tree of headers, given by name, parent and height. -/
def treeHeaders (tree : List (Nat × Nat × Nat)) : Hash → Option StoredHeader :=
  putAll (fun _ => none)
    (tree.map fun t => (BitVec.ofNat 256 t.1, treeStored t.1 t.2.1 t.2.2))

theorem chainWork_treeStored {height : Nat} (h : height < 16) (nonce prev : Nat) :
    (treeStored nonce prev (height + 1)).chainWork
      = addChainWork (treeStored 0 0 height).chainWork (calculateWork
        (sampleHeader 0 0 0 0).target) := by
  rw [calculateWork_sampleHeader]
  have hall : ∀ i < 16, List.replicate 31 0 ++ [UInt8.ofNat (2 * (i + 1))]
      = addChainWork (List.replicate 31 0 ++ [UInt8.ofNat (2 * i)])
        (List.replicate 31 0 ++ [2]) := by
    decide +kernel
  exact hall height h

/-- A tree in which every header but the first is one above its parent. -/
theorem linkedMap_treeHeaders {tree : List (Nat × Nat × Nat)}
    (hparent : ∀ t ∈ tree, t = (1, 0, 0) ∨ ∃ p ∈ tree,
      treeHeaders tree (BitVec.ofNat 256 t.2.1) = some (treeStored p.1 p.2.1 p.2.2)
        ∧ t.2.2 = p.2.2 + 1 ∧ p.2.2 < 16)
    (hkeyed : ∀ t ∈ tree, (treeStored t.1 t.2.1 t.2.2).header.blockHash = BitVec.ofNat 256 t.1)
    (hroot : treeHeaders tree 1#256 = some (treeStored 1 0 0)) {S : Set Header}
    (hS : ∀ t ∈ tree, (treeStored t.1 t.2.1 t.2.2).header ∈ S) :
    LinkedMap S 1#256 (treeHeaders tree) := by
  refine ⟨fun hash stored h => ?_, fun hash stored h => ?_, fun hash stored h => ?_,
    ⟨_, hroot, rfl⟩⟩
  all_goals
    obtain ⟨t, ht, heq⟩ := mem_map.mp (mem_of_putAll_none h)
    obtain ⟨rfl, rfl⟩ := Prod.mk.inj heq
  · rcases hparent t ht with rfl | ⟨p, -, hp, hheight, hlt⟩
    · exact Or.inl ⟨rfl, rfl, rfl⟩
    · refine Or.inr ⟨_, hp, hheight, ?_⟩
      rw [hheight]
      exact chainWork_treeStored hlt t.1 t.2.1
  · exact hS t ht
  · exact hkeyed t ht

/-- What header sync stores after a message with header 2 and one with its two
children. -/
def siblingsStored : Hash → Option StoredHeader :=
  (firstSync.processAll [([sampleHeader 1 2 1 0], 0),
    ([sampleHeader 2 3 2 0, sampleHeader 2 4 2 0], 1)]).headerIndex.headers

/-- **A message of two siblings breaks the work of the second**: header 4 is
stored with the work of header 3 below it, instead of that of its parent. -/
theorem not_messagesKeepLinked : ¬ MessagesKeepLinked := by
  intro h
  have hlinked : Linked 1#256 siblingsStored := h { h | h ∈ forkHeaders } 1#256 firstSync _
    collisionless_forkHeaders anchored_firstSync
    (show ∀ message ∈ [([sampleHeader 1 2 1 0], 0),
      ([sampleHeader 2 3 2 0, sampleHeader 2 4 2 0], 1)], ∀ h ∈ message.1, h ∈ forkHeaders by
        decide)
  have hstored : (siblingsStored 2#256, siblingsStored 4#256)
      = (some ⟨sampleHeader 1 2 1 0, 1, List.replicate 31 0 ++ [2]⟩,
        some ⟨sampleHeader 2 4 2 0, 2, List.replicate 31 0 ++ [6]⟩) := by
    decide +kernel
  obtain ⟨hparent, hchild⟩ := Prod.mk.inj hstored
  rcases hlinked _ _ hchild with ⟨hgenesis, -⟩ | ⟨parent, hp, -, hwork⟩
  · exact absurd hgenesis (by decide)
  · obtain rfl := mem_unique hparent hp
    rw [calculateWork_sampleHeader] at hwork
    exact absurd hwork (by decide)

end Sample
