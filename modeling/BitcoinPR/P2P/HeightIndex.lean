import BitcoinPR.P2P.Linked

/-!
# The height index follows the best header

The height index is to name, up to the height of the best header, the ancestors
of that header, and nothing above. Fork choice keeps it so in two ways. A stored
branch that is announced again is walked down from its tip, and every entry is
rewritten until one is met that is right already; as an entry that names a block
of the old branch has only ancestors of that block below it, this repairs the
whole index, and the entries above are dropped.

A batch is written as it is. After that the same walk is made from the tip – and
ends at once, as the entry of the tip has just been written. So nothing below
the batch is repaired: the index is right only if the batch grows out of the
chain it names already. And nothing is dropped above, so that it has to reach
the height of the old tip. `Orderly` says this of a message and the state it
finds; messages that are orderly keep the index right.
-/

open Branches (Extends Graded Indexes up)
open PartialMap List Function Option

/-- **The height index names the branch that ends in `tip`**: at every height up
to that of `tip` its ancestor, and nothing above. -/
structure HeaderIndex.Canonical (ix : HeaderIndex) (tip : Hash) (height : Nat) : Prop where
  indexes : Indexes StoredHeader.parent ix.headers ix.heightIndex tip height
  above : ∀ h, height < h → ix.heightIndex h = none

namespace HeaderIndex

variable {ix : HeaderIndex} {tip cur : Hash} {height : Nat} {stored : StoredHeader}

/-- A block that is named at its height is named with its ancestors. -/
theorem Canonical.indexes_of_eq (h : ix.Canonical tip height) {k : Nat}
    (hcur : ix.heightIndex k = some cur) :
    k ≤ height ∧ Indexes StoredHeader.parent ix.headers ix.heightIndex cur k := by
  have hle : k ≤ height := by
    by_contra hlt
    rw [h.above k (Nat.lt_of_not_le hlt)] at hcur
    cases hcur
  exact ⟨hle, h.indexes.of_apply_eq hle hcur⟩

/-! ## Walking down from a tip -/

section

variable (hg : Graded StoredHeader.parent StoredHeader.height ix.headers)
  (hdown : ∀ cur k, ix.heightIndex k = some cur →
    Indexes StoredHeader.parent ix.headers ix.heightIndex cur k)
  (hcur : ix.headers cur = some stored)
include hg hdown hcur

/-- **The entries the walk writes make the index name the branch**, provided an
entry that is right has only right ones below. -/
theorem indexes_restoreWalk {fuel : Nat} (hfuel : stored.height ≤ fuel)
    (writes : List (Nat × Hash)) :
    ∃ new, ix.restoreWalk fuel cur stored writes = some (writes ++ new)
      ∧ (∀ p ∈ new, p.1 ≤ stored.height)
      ∧ Indexes StoredHeader.parent ix.headers (putAll ix.heightIndex new) cur
          stored.height := by
  induction fuel generalizing cur stored writes with
  | zero =>
    have hzero : stored.height = 0 := Nat.le_zero.mp hfuel
    unfold restoreWalk
    by_cases hmatch : ix.getHashAtHeight stored.height = some cur
    · rw [if_pos hmatch]
      exact ⟨[], by rw [append_nil], by simp, hdown cur _ hmatch⟩
    · rw [if_neg hmatch, if_pos hzero]
      refine ⟨[(stored.height, cur)], rfl, by simp, fun i hi => ?_⟩
      obtain rfl : i = stored.height := by omega
      simp
  | succ fuel ih =>
    unfold restoreWalk
    by_cases hmatch : ix.getHashAtHeight stored.height = some cur
    · rw [if_pos hmatch]
      exact ⟨[], by rw [append_nil], by simp, hdown cur _ hmatch⟩
    · rw [if_neg hmatch]
      rcases hg cur stored hcur with ⟨-, hzero⟩ | ⟨b, parent, hb, hparent, hheight⟩
      · rw [if_pos hzero]
        refine ⟨[(stored.height, cur)], rfl, by simp, fun i hi => ?_⟩
        obtain rfl : i = stored.height := by omega
        simp
      · obtain rfl : stored.header.prevBlockhash = b := by
          simpa [StoredHeader.parent, hheight] using hb
        rw [if_neg (by omega)]
        simp only [getHeader, hparent, show parent.height < stored.height by omega, if_true]
        obtain ⟨new, hnew, hlow, hindexes⟩ :=
          ih hparent (by omega) (writes ++ [(stored.height, cur)])
        refine ⟨(stored.height, cur) :: new, ?_, ?_, ?_⟩
        · rw [hnew, append_assoc]
          rfl
        · intro p hp
          rcases mem_cons.mp hp with rfl | hp
          · exact Nat.le_refl _
          · have := hlow p hp
            omega
        · -- the entry of `cur` is above those written below it
          have htop : stored.height ∉ new.map Prod.fst := by
            rintro hmem
            obtain ⟨p, hp, heq⟩ := mem_map.mp hmem
            have := hlow p hp
            omega
          rw [hheight]
          refine Indexes.succ (hindexes.congr fun i hi => ?_) hcur hb ?_
          · rw [putAll_cons, putAll_apply _ new,
              putAll_apply ix.heightIndex new, update_of_ne (by simp; omega)]
          · rw [← hheight, putAll_cons, putAll_of_notMem _ htop, update_self]

/-- **Repointing the index at a stored branch** succeeds, and changes nothing
above its tip. -/
theorem exists_restoreBranchHeightIndex :
    ∃ index, ix.restoreBranchHeightIndex cur = some { ix with heightIndex := index }
      ∧ Indexes StoredHeader.parent ix.headers index cur stored.height
      ∧ ∀ h, stored.height < h → index h = ix.heightIndex h := by
  obtain ⟨new, hnew, hlow, hindexes⟩ := indexes_restoreWalk hg hdown hcur (Nat.le_refl _) []
  refine ⟨putAll ix.heightIndex new, ?_, hindexes, fun h hlt => ?_⟩
  · unfold restoreBranchHeightIndex
    simp only [getHeader, hcur, hnew]
    rfl
  · refine putAll_of_notMem _ fun hmem => ?_
    obtain ⟨p, hp, rfl⟩ := mem_map.mp hmem
    exact absurd (hlow p hp) (Nat.not_le_of_lt hlt)

end

/-- The walk ends where it starts if the entry of the tip is written already. -/
theorem restoreBranchHeightIndex_of_eq (hcur : ix.headers cur = some stored)
    (hmatch : ix.heightIndex stored.height = some cur) :
    ix.restoreBranchHeightIndex cur = some ix := by
  unfold restoreBranchHeightIndex restoreWalk
  simp only [getHeader, hcur, getHashAtHeight, hmatch, if_true]
  rfl

/-- **Making a stored branch the header chain**, if the tip so far is the
persisted one. -/
theorem Canonical.resetForkHeaderTip (h : ix.Canonical tip height)
    (hg : Graded StoredHeader.parent StoredHeader.height ix.headers)
    (htip : ix.headerTip = some (tip, height)) (hcur : ix.headers cur = some stored) :
    ∃ ix', ix.restoreBranchHeightIndex cur = some ix'
      ∧ (ix'.resetForkHeaderTip stored.height cur).Canonical cur stored.height := by
  obtain ⟨index, hrestore, hindexes, habove⟩ := exists_restoreBranchHeightIndex hg
    (fun cur k hk => (h.indexes_of_eq hk).2) hcur
  refine ⟨_, hrestore, ⟨hindexes.congr fun i hi => ?_, fun i hi => ?_⟩⟩
  · show Function.update (fun h => if stored.height < h ∧ h ≤ _ then none else index h)
      stored.height (some cur) i = index i
    rcases Nat.lt_or_eq_of_le hi with hlt | rfl
    · rw [update_of_ne (Nat.ne_of_lt hlt), if_neg (by omega)]
    · rw [update_self, hindexes.apply_tip]
  · show Function.update (fun h => if stored.height < h ∧ h ≤ ix.getHeaderTipHeight.getD 0
      then none else index h) stored.height (some cur) i = none
    rw [update_of_ne (Nat.ne_of_gt hi), getHeaderTipHeight, htip]
    by_cases hle : i ≤ height
    · exact if_pos ⟨hi, hle⟩
    · rw [if_neg (fun hand => hle hand.2), habove i hi, h.above i (Nat.lt_of_not_le hle)]

end HeaderIndex

/-! ## Headers stacked on a stored one -/

section

variable [Hashing]

/-- Headers as they are to be stored, each over the one before, the first over
`parent`. -/
def branchOver : StoredHeader → List Header → List (Hash × StoredHeader)
  | _, [] => []
  | parent, header :: headers =>
    (header.blockHash, parent.child header) :: branchOver (parent.child header) headers

theorem getLast?_branchOver_cons (parent : StoredHeader) (header next : Header)
    (headers : List Header) :
    (branchOver parent (header :: next :: headers)).getLast?
      = (branchOver (parent.child header) (next :: headers)).getLast? :=
  getLast?_cons_cons

/-- The last of them. -/
theorem getLast?_branchOver (parent : StoredHeader) (header : Header) (headers : List Header) :
    ∃ hash, (branchOver parent (header :: headers)).getLast?
      = some (hash, headers.foldl StoredHeader.child (parent.child header)) := by
  induction headers generalizing parent header with
  | nil => exact ⟨_, rfl⟩
  | cons next headers ih =>
    obtain ⟨hash, hlast⟩ := ih (parent.child header) next
    exact ⟨hash, (getLast?_branchOver_cons parent header next headers).trans hlast⟩

omit [Hashing] in
theorem height_foldl_child (parent : StoredHeader) (headers : List Header) :
    (headers.foldl StoredHeader.child parent).height = parent.height + headers.length := by
  induction headers generalizing parent with
  | nil => rfl
  | cons header headers ih =>
    rw [foldl_cons, ih, length_cons]
    show parent.height + 1 + headers.length = _
    omega

/-- **Writing a branch over a block the index names** makes it name the branch,
and changes nothing above. -/
theorem indexes_updateHeightIndexBatch {m : Hash → Option StoredHeader} {ix : HeaderIndex}
    {parent : StoredHeader} {base : Hash}
    (hindexes : Indexes StoredHeader.parent m ix.heightIndex base parent.height)
    {headers : List Header} (hfollows : HeaderSync.Follows headers)
    (hfirst : ∀ first ∈ headers.head?, first.prevBlockhash = base)
    (hm : ∀ p ∈ branchOver parent headers, m p.1 = some p.2) {last : Hash × StoredHeader}
    (hlast : (branchOver parent headers).getLast? = some last) :
    Indexes StoredHeader.parent m
        (ix.updateHeightIndexBatch (branchOver parent headers)).heightIndex last.1 last.2.height
      ∧ ∀ h, last.2.height < h →
        (ix.updateHeightIndexBatch (branchOver parent headers)).heightIndex h
          = ix.heightIndex h := by
  induction headers generalizing ix parent base with
  | nil => cases hlast
  | cons header headers ih =>
    have hheader : m header.blockHash = some (parent.child header) := hm _ mem_cons_self
    have hparent : (parent.child header).parent = some base := by
      rw [← hfirst header rfl]
      exact if_neg (Nat.succ_ne_zero _)
    have hnext : Indexes StoredHeader.parent m
        (ix.setHeightHash (parent.height + 1) header.blockHash).heightIndex header.blockHash
        (parent.child header).height :=
      Indexes.succ (hindexes.congr fun i hi =>
        update_of_ne (Nat.ne_of_lt (Nat.lt_succ_of_le hi)) _ _) hheader hparent
        (update_self _ _ _)
    cases headers with
    | nil =>
      obtain rfl := Option.some.inj hlast
      exact ⟨hnext, fun h hlt => update_of_ne (Nat.ne_of_gt hlt) _ _⟩
    | cons next headers =>
      have hlast' : (branchOver (parent.child header) (next :: headers)).getLast? = some last :=
        (getLast?_branchOver_cons parent header next headers).symm.trans hlast
      obtain ⟨htip, habove⟩ := ih hnext hfollows.tail
        (fun first h => Option.some.inj h ▸ (isChain_cons_cons.mp hfollows).1)
        (fun p hp => hm p (mem_cons_of_mem _ hp)) hlast'
      refine ⟨htip, fun h hlt => (habove h hlt).trans (update_of_ne ?_ _ _)⟩
      obtain ⟨hash, heq⟩ := getLast?_branchOver (parent.child header) next headers
      rw [mem_unique hlast' heq, height_foldl_child] at hlt
      have hchild : ((parent.child header).child next).height = parent.height + 2 := rfl
      omega

end

/-! ## The walk over headers in a row -/

namespace HeaderSync

variable [Hashing]

/-- The header is stored, at or below the best header. -/
def isLow (s : HeaderSync) (header : Header) : Bool :=
  (s.headerIndex.getHeader header.blockHash).any fun stored => decide (stored.height ≤ s.bestHeight)

/-- The headers of a message from the first on that is not stored at or below
the best header. -/
def unseen (s : HeaderSync) (headers : List Header) : List Header := headers.dropWhile s.isLow

/-- What a header is that is not stored at or below the best header. -/
theorem lt_of_isLow_eq_false {s : HeaderSync} {header : Header} (h : s.isLow header = false)
    {stored : StoredHeader} (hs : s.headerIndex.headers header.blockHash = some stored) :
    s.bestHeight < stored.height := by
  rw [isLow, HeaderIndex.getHeader, hs, any_some, decide_eq_false_iff_not] at h
  exact Nat.lt_of_not_le h

section Place

variable {s : HeaderSync} {w : Walk} {header : Header} {ix : HeaderIndex}

theorem place_of_low (blockHeight : Nat) {stored : StoredHeader}
    (hs : w.headerIndex.headers header.blockHash = some stored)
    (hlow : stored.height ≤ s.bestHeight) : s.place blockHeight w header = .skip stored := by
  unfold place
  rw [HeaderIndex.getHeader, hs, filter_some_pos (by simpa using hlow)]

theorem filter_eq_none (hnew : ∀ stored, w.headerIndex.headers header.blockHash = some stored →
    s.bestHeight < stored.height) :
    (w.headerIndex.getHeader header.blockHash).filter
      (fun stored => decide (stored.height ≤ s.bestHeight)) = none := by
  rw [filter_eq_none_iff]
  intro stored hs
  rw [decide_eq_true_eq]
  exact Nat.not_le_of_lt (hnew stored hs)

/-- A header over the one the walk stands on is to be accepted. -/
theorem place_of_next (blockHeight : Nat)
    (hnew : ∀ stored, w.headerIndex.headers header.blockHash = some stored →
      s.bestHeight < stored.height) (hnext : header.prevBlockhash = w.prevHash) :
    s.place blockHeight w header = .child w.height := by
  unfold place
  rw [filter_eq_none hnew]
  exact if_pos hnext

theorem place_of_stored (blockHeight : Nat) {stored : StoredHeader}
    (hs : w.headerIndex.headers header.blockHash = some stored)
    (hhigh : s.bestHeight < stored.height) (hapart : header.prevBlockhash ≠ w.prevHash) :
    s.place blockHeight w header = .reannounced stored := by
  unfold place
  rw [filter_eq_none fun stored' hs' => mem_unique hs hs' ▸ hhigh]
  simp only [HeaderIndex.getHeader, if_neg hapart, hs]

section

variable (blockHeight : Nat) (hs : w.headerIndex.headers header.blockHash = none)
  (hapart : header.prevBlockhash ≠ w.prevHash)
include blockHeight hs hapart

/-- A header over another stored one starts a fork, unless the blocks are far
behind. -/
theorem place_of_fork {parent : StoredHeader}
    (hp : w.headerIndex.headers header.prevBlockhash = some parent) :
    s.place blockHeight w header
      = if isCatchingUp blockHeight s.bestHeight then .stop else .child parent.height := by
  unfold place
  rw [filter_eq_none fun stored hs' => by rw [hs] at hs'; cases hs']
  simp only [HeaderIndex.getHeader, if_neg hapart, hs, hp]

theorem place_of_unconnected (hp : w.headerIndex.headers header.prevBlockhash = none) :
    s.place blockHeight w header = if w.batch.isEmpty then .unconnected else .stop := by
  unfold place
  rw [filter_eq_none fun stored hs' => by rw [hs] at hs'; cases hs']
  simp only [HeaderIndex.getHeader, if_neg hapart, hs, hp]

end

end Place

variable {S : Set Header} {genesis : Hash} {ix : HeaderIndex} {s : HeaderSync} {w w' : Walk}
  {header : Header} {blockHeight : Nat}

section

variable (h : w.OnBranch S genesis ix s.bestHeight)
include h

/-- An accepted header enters the batch as it is to be stored over its
parent. -/
theorem accepted_of_child {parent : StoredHeader}
    (hp : w.known ix header.prevBlockhash = some parent)
    (hprev : header.prevBlockhash = w.prevHash ∨ w.batch = [])
    (hplace : s.place blockHeight w header = .child parent.height) {next : Option Walk}
    (hw : s.walkHeader blockHeight w header = .ok next) :
    ∃ w', next = some w' ∧ w'.batch = w.batch ++ [(header.blockHash, parent.child header)]
      ∧ w'.storedWalkTip = w.storedWalkTip := by
  unfold walkHeader at hw
  rw [hplace] at hw
  simp only [Except.bind_eq_ok, Except.pure_eq_ok] at hw
  obtain ⟨work, hvalid, rfl⟩ := hw
  obtain ⟨prevWork, hwork, rfl⟩ := validateHeader_eq_ok hvalid
  obtain rfl := Except.ok.inj ((h.prevWork_eq hp hprev).symm.trans hwork)
  obtain ⟨ix', cache, hmark, -⟩ := s.markSignaling_eq w header (parent.height + 1)
  refine ⟨_, rfl, ?_, ?_⟩ <;> rw [hmark]
  · rfl
  · rfl

/-- The walk stands on the last header of the batch. -/
theorem known_prevHash_of_concat {batch : List (Hash × StoredHeader)} {p : Hash × StoredHeader}
    (hbatch : w.batch = batch ++ [p]) : w.known ix w.prevHash = some p.2 := by
  obtain ⟨stored, hstored, -, hlast⟩ := h.stands
  have heq := hlast p (by rw [hbatch, getLast?_concat])
  rw [hstored, heq]

variable {headers : List Header} (hix : LinkedMap S genesis ix.headers) (hS : Collisionless S)
include hix hS

/-- After a walk that has moved above the tip to a header, the next header of a
row is over the one the walk stands on, and not low. -/
theorem next_of_follows (hmem : ∀ a ∈ header :: headers, a ∈ S)
    (hfollows : Follows (header :: headers))
    (hprev : w.prevHash = header.blockHash) (habove : w.batch ≠ [] ∨ w.storedWalkTip.isSome) :
    ∀ first ∈ headers.head?, first.prevBlockhash = w.prevHash
      ∧ ∀ stored, ix.headers first.blockHash = some stored → s.bestHeight < stored.height := by
  intro first hf
  cases headers with
  | nil => cases hf
  | cons next headers =>
    obtain rfl := Option.some.inj hf
    have hnext := (isChain_cons_cons.mp hfollows).1.trans hprev.symm
    exact ⟨hnext, fun stored hs => not_low_of_above hix hS h (hmem _ (by simp)) hnext habove hs⟩

/-- **Headers in a row over the one the walk stands on** are all accepted, if
none is refused. -/
theorem batch_walkHeaders (hmem : ∀ a ∈ headers, a ∈ S) (hfollows : Follows headers)
    {top : StoredHeader} (htop : w.known ix w.prevHash = some top)
    (hfirst : ∀ first ∈ headers.head?, first.prevBlockhash = w.prevHash
      ∧ ∀ stored, ix.headers first.blockHash = some stored → s.bestHeight < stored.height)
    (hw : s.walkHeaders blockHeight headers w = (.ok (), w')) :
    w'.batch = w.batch ++ branchOver top headers := by
  induction headers generalizing w top with
  | nil =>
    obtain rfl := (Prod.mk.inj hw).2
    exact (append_nil _).symm
  | cons header headers ih =>
    obtain ⟨hnext, hnew⟩ := hfirst header rfl
    unfold walkHeaders at hw
    have hplace : s.place blockHeight w header = .child top.height := by
      obtain ⟨stored, hstored, hheight, -⟩ := h.stands
      obtain rfl := mem_unique htop hstored
      rw [hheight]
      exact place_of_next blockHeight (by rwa [h.marks.headers]) hnext
    cases hstep : s.walkHeader blockHeight w header with
    | error e =>
      rw [hstep] at hw
      cases (Prod.mk.inj hw).1
    | ok next =>
      obtain ⟨w₁, rfl, hbatch, -⟩ := accepted_of_child h (hnext ▸ htop) (Or.inl hnext) hplace hstep
      rw [hstep] at hw
      obtain ⟨hw₁, hprev⟩ := onBranch_walkHeader hix hS h (hmem _ mem_cons_self)
        (Or.inl hnext) hstep
      rw [ih hw₁ (fun a ha => hmem a (mem_cons_of_mem _ ha)) hfollows.tail
        (known_prevHash_of_concat hw₁ hbatch)
        (next_of_follows hw₁ hix hS hmem hfollows hprev (Or.inl (by rw [hbatch]; simp))) hw,
        hbatch, append_assoc]
      rfl

end

/-- **What a message of headers in a row puts into the batch**: nothing, or all
that is unseen, over its stored parent – but for the first header if that is
stored above the best header and does not follow it. -/
def Takes (s : HeaderSync) (headers : List Header) (batch : List (Hash × StoredHeader)) : Prop :=
  batch = [] ∨ ∃ first rest parent, s.unseen headers = first :: rest
    ∧ s.headerIndex.headers first.prevBlockhash = some parent
    ∧ (batch = branchOver parent (first :: rest) ∨
      batch = branchOver (parent.child first) rest
        ∧ s.headerIndex.headers first.blockHash = some (parent.child first)
        ∧ first.prevBlockhash ≠ s.bestHash)

section Apart

/-! A header that is not low and does not follow the walk, which has taken
nothing yet. -/

variable {headers : List Header} (hix : LinkedMap S genesis s.headerIndex.headers)
  (hS : Collisionless S) (hmem : ∀ a ∈ header :: headers, a ∈ S)
  (hfollows : Follows (header :: headers)) (h : w.OnBranch S genesis s.headerIndex s.bestHeight)
  (hstart : w.batch = [] ∧ w.storedWalkTip = none) (hapart : header.prevBlockhash ≠ w.prevHash)

include hix hS hmem hfollows h hstart hapart

/-- If it is stored, what follows it is taken. -/
theorem batch_of_stored {stored : StoredHeader}
    (hs : s.headerIndex.headers header.blockHash = some stored)
    (hnew : s.bestHeight < stored.height)
    (hw : s.walkHeaders blockHeight (header :: headers) w = (.ok (), w')) :
    w'.batch = branchOver stored headers := by
  have hstep : s.walkHeader blockHeight w header = .ok (some { w with
      prevHash := header.blockHash
      height := stored.height
      storedWalkTip := some (header.blockHash, stored.height, stored.chainWork) }) := by
    unfold walkHeader
    rw [place_of_stored blockHeight (by rw [h.marks.headers, hs]) hnew hapart]
  unfold walkHeaders at hw
  rw [hstep] at hw
  obtain ⟨hw₁, hprev⟩ := onBranch_walkHeader hix hS h (hmem _ mem_cons_self) (Or.inr hstart) hstep
  rw [batch_walkHeaders hw₁ hix hS (fun a ha => hmem a (mem_cons_of_mem _ ha)) hfollows.tail
    (hw₁.extend _ _ hs) (next_of_follows hw₁ hix hS hmem hfollows hprev (Or.inr rfl)) hw]
  rw [hstart.1, nil_append]

/-- If it is new, it is taken with what follows, unless the blocks are far
behind. -/
theorem batch_of_new (hs : s.headerIndex.headers header.blockHash = none)
    (hw : s.walkHeaders blockHeight (header :: headers) w = (.ok (), w')) :
    w'.batch = [] ∨ ∃ parent, s.headerIndex.headers header.prevBlockhash = some parent
      ∧ w'.batch = branchOver parent (header :: headers) := by
  unfold walkHeaders at hw
  cases hp : s.headerIndex.headers header.prevBlockhash with
  | none =>
    obtain ⟨e, hstep⟩ : ∃ e, s.walkHeader blockHeight w header = .error e := by
      unfold walkHeader
      rw [place_of_unconnected blockHeight (by rw [h.marks.headers, hs]) hapart
        (by rw [h.marks.headers, hp]), hstart.1, isEmpty_nil]
      exact ⟨_, rfl⟩
    rw [hstep] at hw
    cases (Prod.mk.inj hw).1
  | some parent =>
    have hplace := place_of_fork (s := s) (w := w) blockHeight (by rw [h.marks.headers, hs])
      hapart (by rw [h.marks.headers, hp])
    by_cases hcatching : isCatchingUp blockHeight s.bestHeight = true
    · have hstep : s.walkHeader blockHeight w header = .ok none := by
        unfold walkHeader
        rw [hplace, if_pos hcatching]
      rw [hstep] at hw
      obtain rfl := (Prod.mk.inj hw).2
      exact Or.inl hstart.1
    · rw [if_neg hcatching] at hplace
      cases hstep : s.walkHeader blockHeight w header with
      | error e =>
        rw [hstep] at hw
        cases (Prod.mk.inj hw).1
      | ok next =>
        rw [hstep] at hw
        obtain ⟨w₁, rfl, hbatch, -⟩ := accepted_of_child h
          (by rw [Walk.OnBranch.known_of_nil _ hstart.1, hp]) (Or.inr hstart.1) hplace hstep
        obtain ⟨hw₁, hprev⟩ := onBranch_walkHeader hix hS h (hmem _ mem_cons_self)
          (Or.inr hstart) hstep
        refine Or.inr ⟨parent, rfl, ?_⟩
        rw [batch_walkHeaders hw₁ hix hS (fun a ha => hmem a (mem_cons_of_mem _ ha))
          hfollows.tail (known_prevHash_of_concat hw₁ hbatch)
          (next_of_follows hw₁ hix hS hmem hfollows hprev (Or.inl (by rw [hbatch]; simp))) hw,
          hbatch, hstart.1]
        rfl

end Apart

/-- **The walk over headers in a row**, until the first that is not low. -/
theorem takes_walkHeaders (hix : LinkedMap S genesis s.headerIndex.headers)
    (hS : Collisionless S) (hmem : ∀ a ∈ headers, a ∈ S)
    (hfollows : Follows headers) (h : w.OnBranch S genesis s.headerIndex s.bestHeight)
    (hstart : w.batch = [] ∧ w.storedWalkTip = none)
    (hfirst : ∀ first ∈ headers.head?,
      w.prevHash = s.bestHash ∨ first.prevBlockhash = w.prevHash)
    (hw : s.walkHeaders blockHeight headers w = (.ok (), w')) : s.Takes headers w'.batch := by
  induction headers generalizing w with
  | nil =>
    obtain rfl := (Prod.mk.inj hw).2
    exact Or.inl hstart.1
  | cons header headers ih =>
    cases hlow : s.isLow header with
    | true =>
      have hunseen : s.unseen (header :: headers) = s.unseen headers :=
        dropWhile_cons_of_pos hlow
      cases hs : s.headerIndex.headers header.blockHash with
      | none =>
        rw [isLow, HeaderIndex.getHeader, hs] at hlow
        cases hlow
      | some stored =>
        rw [isLow, HeaderIndex.getHeader, hs, any_some, decide_eq_true_eq] at hlow
        have hstep : s.walkHeader blockHeight w header
            = .ok (some { w with prevHash := header.blockHash, height := stored.height }) := by
          unfold walkHeader
          rw [place_of_low blockHeight (by rw [h.marks.headers, hs]) hlow]
        unfold walkHeaders at hw
        rw [hstep] at hw
        have hw₁ := (onBranch_walkHeader hix hS h (hmem _ mem_cons_self) (Or.inr hstart) hstep).1
        rw [Takes, hunseen]
        refine ih (fun a ha => hmem a (mem_cons_of_mem _ ha)) hfollows.tail hw₁ hstart ?_ hw
        intro first hf
        cases headers with
        | nil => cases hf
        | cons next headers =>
          obtain rfl := Option.some.inj hf
          exact Or.inr (isChain_cons_cons.mp hfollows).1
    | false =>
      have hunseen : s.unseen (header :: headers) = header :: headers :=
        dropWhile_cons_of_neg (by rw [hlow]; decide)
      by_cases hnext : header.prevBlockhash = w.prevHash
      · obtain ⟨top, htop, -⟩ := h.stands
        have hbatch := batch_walkHeaders h hix hS hmem hfollows htop
          (fun first hf => Option.some.inj hf ▸ ⟨hnext, fun _ hs => lt_of_isLow_eq_false hlow hs⟩)
          hw
        rw [Walk.OnBranch.known_of_nil _ hstart.1, ← hnext] at htop
        rw [hstart.1] at hbatch
        exact Or.inr ⟨header, headers, top, hunseen, htop, Or.inl hbatch⟩
      · cases hs : s.headerIndex.headers header.blockHash with
        | none =>
          refine (batch_of_new hix hS hmem hfollows h hstart hnext hs hw).imp_right ?_
          rintro ⟨parent, hp, hbatch⟩
          exact ⟨header, headers, parent, hunseen, hp, Or.inl hbatch⟩
        | some stored =>
          have hnew := lt_of_isLow_eq_false hlow hs
          have heq := hix.header_eq hS (hmem _ mem_cons_self) hs
          rcases hix.linked _ stored hs with ⟨-, hzero, -⟩ | ⟨parent, hp, -⟩
          · omega
          · have hchild := hix.parent_of_eq hS hs hp
            rw [heq] at hp hchild
            refine Or.inr ⟨header, headers, parent, hunseen, hp, Or.inr ⟨?_, hchild ▸ hs, ?_⟩⟩
            · rw [← hchild]
              exact batch_of_stored hix hS hmem hfollows h hstart hnext hs hnew hw
            · exact fun hbest => hnext (hbest.trans ((hfirst header rfl).resolve_right hnext).symm)

end HeaderSync

/-! ## Messages that keep the index right -/

namespace HeaderSync

/-- **The height index names the chain of the best header**, which is the header
tip on disk as well. -/
structure Indexed (s : HeaderSync) : Prop where
  canonical : s.headerIndex.Canonical s.bestHash s.bestHeight
  tip : s.headerIndex.headerTip = some (s.bestHash, s.bestHeight)

variable [Hashing] {S : Set Header} {genesis : Hash} {s : HeaderSync} {w : Walk}
  {headers : List Header} {blockHeight : Nat}

/-- **A message the height index can follow**: its headers follow one another,
and those from the first unseen one on end in less work than the best header
has, or grow out of the chain the index names and are not lower than it. A
header that is stored already may be announced alone. -/
structure Orderly (s : HeaderSync) (headers : List Header) : Prop where
  follows : Follows headers
  settles : ∀ first rest parent, s.unseen headers = first :: rest →
    s.headerIndex.headers first.prevBlockhash = some parent →
    (∀ best, s.headerIndex.headers s.bestHash = some best →
      (rest.foldl StoredHeader.child (parent.child first)).chainWork < best.chainWork) ∨
    (s.headerIndex.heightIndex parent.height = some first.prevBlockhash
      ∧ s.bestHeight ≤ parent.height + (rest.length + 1)) ∨
    (headers = [first] ∧ (s.headerIndex.headers first.blockHash).isSome)

variable {first : Header}

/-- The batch grows out of the chain the index names, and is not lower. -/
def Grounded (s : HeaderSync) (batch : List (Hash × StoredHeader)) : Prop :=
  ∃ first rest parent, batch = branchOver parent (first :: rest) ∧ Follows (first :: rest)
    ∧ s.headerIndex.heightIndex parent.height = some first.prevBlockhash
    ∧ s.bestHeight ≤ parent.height + (rest.length + 1)

/-- A stored row over the chain the index names starts at the best header, if it
starts above it. -/
theorem prevBlockhash_eq_bestHash (hs : s.Indexed) {parent : StoredHeader}
    (hlow : s.isLow first = false)
    (hindex : s.headerIndex.heightIndex parent.height = some first.prevBlockhash)
    (hstored : s.headerIndex.headers first.blockHash = some (parent.child first)) :
    first.prevBlockhash = s.bestHash := by
  have hle := (hs.canonical.indexes_of_eq hindex).1
  have hlt : s.bestHeight < parent.height + 1 := lt_of_isLow_eq_false hlow hstored
  rw [show parent.height = s.bestHeight by omega, hs.canonical.indexes.apply_tip] at hindex
  exact (Option.some.inj hindex).symm

/-- The last header of a batch is the end of the unseen row. -/
theorem last_eq_foldl {rest : List Header} {parent : StoredHeader}
    {batch : List (Hash × StoredHeader)} {last : Hash × StoredHeader}
    (hbatch : batch = branchOver parent (first :: rest) ∨
      batch = branchOver (parent.child first) rest)
    (hlast : batch.getLast? = some last) :
    last.2 = rest.foldl StoredHeader.child (parent.child first) := by
  rcases hbatch with rfl | rfl
  · obtain ⟨hash, heq⟩ := getLast?_branchOver parent first rest
    rw [mem_unique hlast heq]
  · cases rest with
    | nil => cases hlast
    | cons next rest =>
      obtain ⟨hash, heq⟩ := getLast?_branchOver (parent.child first) next rest
      rw [mem_unique hlast heq]
      rfl

/-- A stored header above the best one that does not follow it puts nothing into
the batch when it is announced alone. -/
theorem batch_of_singleton (ha : s.Anchored S genesis) (hS : Collisionless S)
    (hmem : first ∈ S) (hlow : s.isLow first = false) (hapart : first.prevBlockhash ≠ s.bestHash)
    (hstored : (s.headerIndex.headers first.blockHash).isSome)
    (hw : s.walkHeaders blockHeight [first] s.startWalk = (.ok (), w)) : w.batch = [] := by
  obtain ⟨stored, hstored⟩ := isSome_iff_exists.mp hstored
  exact batch_of_stored ha.linked hS (by simpa using hmem) (isChain_singleton _) ha.startWalk
    ⟨rfl, rfl⟩ hapart hstored (lt_of_isLow_eq_false hlow hstored) hw

/-- **A batch of an orderly message that has the work to be adopted is
grounded.** -/
theorem grounded_of_orderly (ha : s.Anchored S genesis) (hs : s.Indexed) (hS : Collisionless S)
    (hmem : ∀ a ∈ headers, a ∈ S) (ho : s.Orderly headers)
    (hw : s.walkHeaders blockHeight headers s.startWalk = (.ok (), w))
    {last : Hash × StoredHeader} (hlast : w.batch.getLast? = some last)
    (hwork : ∀ best, s.headerIndex.headers s.bestHash = some best →
      best.chainWork ≤ last.2.chainWork) : s.Grounded w.batch := by
  have hne : w.batch ≠ [] := by
    rintro hnil
    rw [hnil] at hlast
    cases hlast
  obtain ⟨best, hbest, hheight⟩ := ha.best
  rcases takes_walkHeaders ha.linked hS hmem ho.follows ha.startWalk ⟨rfl, rfl⟩
    (fun _ _ => Or.inl rfl) hw with hnil | ⟨first, rest, parent, hunseen, hp, hbatch⟩
  · exact absurd hnil hne
  have hfollows : Follows (first :: rest) := by
    rw [← hunseen]
    exact ho.follows.suffix (dropWhile_suffix _)
  have hlow : s.isLow first = false := by
    have hhead := head?_dropWhile_not s.isLow headers
    rw [show headers.dropWhile s.isLow = first :: rest from hunseen] at hhead
    simpa using hhead
  rcases ho.settles first rest parent hunseen hp with hless | ⟨hindex, hle⟩ | ⟨rfl, hstored⟩
  · have hend := last_eq_foldl (hbatch.imp_right And.left) hlast
    exact absurd (hless best hbest) (by rw [← hend]; exact hwork best hbest)
  · rcases hbatch with hbatch | ⟨-, hstored, hapart⟩
    · exact ⟨first, rest, parent, hbatch, hfollows, hindex, hle⟩
    · exact absurd (prevBlockhash_eq_bestHash hs hlow hindex hstored) hapart
  · by_cases hprev : first.prevBlockhash = s.bestHash
    · -- the header follows the best one
      rw [hprev] at hp
      obtain rfl := mem_unique hbest hp
      refine ⟨first, rest, best, hbatch.resolve_right fun h => h.2.2 hprev, hfollows, ?_, by omega⟩
      rw [hheight, hprev]
      exact hs.canonical.indexes.apply_tip
    · exact absurd (batch_of_singleton ha hS (hmem _ mem_cons_self) hlow hprev hstored hw) hne

omit [Hashing] in
/-- **Adopting a batch writes its entries only**: the walk to repair the index
ends at the entry just written. -/
theorem adoptBatch_headerIndex {stored : StoredHeader}
    (hstored : s.headerIndex.headers w.prevHash = some stored)
    (htop : (s.headerIndex.updateHeightIndexBatch w.batch).heightIndex stored.height
      = some w.prevHash) (work : Bytes) :
    (s.adoptBatch w work).headerIndex
      = (s.headerIndex.updateHeightIndexBatch w.batch).setHeaderTip w.prevHash w.height := by
  unfold HeaderSync.adoptBatch
  have hrestore : (s.headerIndex.updateHeightIndexBatch w.batch).restoreBranchHeightIndex w.prevHash
      = some (s.headerIndex.updateHeightIndexBatch w.batch) :=
    HeaderIndex.restoreBranchHeightIndex_of_eq hstored htop
  simp only [hrestore, getD_some]

/-- **Adopting a grounded batch**, once it is stored. -/
theorem Indexed.adoptBatch (hs : s.Indexed) (hgrounded : s.Grounded w.batch)
    (hknown : ∀ p ∈ w.batch, s.headerIndex.headers p.1 = some p.2) {stored : StoredHeader}
    (hlast : w.batch.getLast? = some (w.prevHash, stored)) (hheight : stored.height = w.height)
    (work : Bytes) : (s.adoptBatch w work).Indexed := by
  obtain ⟨first, rest, parent, hbatch, hfollows, hindex, hle⟩ := hgrounded
  obtain ⟨hash, hend⟩ := getLast?_branchOver parent first rest
  rw [hbatch] at hknown hlast
  have htop : parent.height + (rest.length + 1) = w.height := by
    rw [← hheight, (Prod.mk.inj (mem_unique hlast hend)).2, height_foldl_child]
    show _ = parent.height + 1 + rest.length
    omega
  obtain ⟨hindexes, habove⟩ := indexes_updateHeightIndexBatch
    (hs.canonical.indexes_of_eq hindex).2 hfollows
    (fun _ hf => Option.some.inj hf ▸ rfl) hknown hlast
  rw [hheight] at hindexes habove
  have hadopt := adoptBatch_headerIndex (hknown _ (mem_of_getLast? hlast))
    (by rw [hheight, hbatch]; exact hindexes.apply_tip) work
  refine ⟨⟨?_, fun h hlt => ?_⟩, by rw [hadopt]; rfl⟩
  · rw [hadopt, hbatch]
    exact hindexes
  · rw [hadopt, hbatch]
    have hlt' : s.bestHeight < h := by
      rw [htop] at hle
      exact Nat.lt_of_le_of_lt hle hlt
    exact (habove h hlt).trans (hs.canonical.above h hlt')

/-- Only more headers and other markers: the index is as right as it was. -/
theorem Indexed.of_extends {ix' : HeaderIndex} (hs : s.Indexed) (ha : s.Anchored S genesis)
    (hext : Extends s.headerIndex.headers ix'.headers)
    (hindex : ix'.heightIndex = s.headerIndex.heightIndex)
    (htip : ix'.headerTip = s.headerIndex.headerTip) :
    ({ s with headerIndex := ix' } : HeaderSync).Indexed := by
  obtain ⟨best, hbest, -⟩ := ha.best
  refine ⟨⟨?_, fun h hlt => ?_⟩, htip.trans hs.tip⟩
  · rw [hindex]
    exact hs.canonical.indexes.of_extends ha.linked.linked.graded hext hbest
  · rw [hindex]
    exact hs.canonical.above h hlt

/-- **The batch is chosen or not**, and the index names the chain of the best
header either way. -/
theorem Indexed.chooseBatch (hs : s.Indexed) (ha : s.Anchored S genesis) {ix : HeaderIndex}
    {tipHeight : Nat} (h : w.OnBranch S genesis ix tipHeight)
    (hix : s.headerIndex = w.headerIndex) (hgrounded : ∀ last, w.batch.getLast? = some last →
      (∀ best, s.headerIndex.headers s.bestHash = some best →
        best.chainWork ≤ last.2.chainWork) → s.Grounded w.batch) :
    (s.chooseBatch w blockHeight).Indexed := by
  have hstored := headers_storeBatch h hix
  have hext : Extends s.headerIndex.headers (s.storeBatch w).headerIndex.headers := by
    rw [hstored, hix, h.marks.headers]
    exact h.extend
  have hstore : (s.storeBatch w).Indexed := hs.of_extends ha hext rfl rfl
  rcases s.chooseBatch_cases w blockHeight with
    ⟨-, heq⟩ | ⟨first, memo, hfirst, -, heq | ⟨-, last, hlast, hwork, heq⟩⟩ <;> rw [heq]
  · exact hs
  · exact ⟨hstore.canonical, hstore.tip⟩
  · have hground := hgrounded last hlast fun best hbest => by
      rwa [show (s.storeBatch w).headerIndex.getHeader s.bestHash = some best from
        hext _ _ hbest] at hwork
    obtain ⟨stored, -, hheight, hstands⟩ := h.stands
    obtain ⟨_, -, hbatch⟩ := (h.branch first hfirst).1.rises
    exact Indexed.adoptBatch (s := (s.storeBatch w).withMemo memo)
      ⟨hstore.canonical, hstore.tip⟩ hground
      (fun p hp => (congrFun hstored p.1).trans (hbatch p hp).1)
      (hstands last hlast ▸ hlast) hheight last.2.chainWork

omit [Hashing] in
/-- **A stored branch is chosen or not.** -/
theorem Indexed.chooseStored (hs : s.Indexed) (hlinked : Linked genesis s.headerIndex.headers)
    (htip : ∀ t, w.storedWalkTip = some t →
      ∃ stored, s.headerIndex.headers t.1 = some stored ∧ stored.height = t.2.1) :
    (s.chooseStored w blockHeight).Indexed := by
  rcases s.chooseStored_cases w blockHeight with
    heq | ⟨tip, memo, ht, -, heq | ⟨-, ix, hrestore, heq⟩⟩ <;> rw [heq]
  · exact hs
  · exact ⟨hs.canonical, hs.tip⟩
  · obtain ⟨stored, hstored, hheight⟩ := htip tip ht
    obtain ⟨ix', hrestore', hcanonical⟩ :=
      hs.canonical.resetForkHeaderTip hlinked.graded hs.tip hstored
    obtain rfl := mem_unique hrestore hrestore'
    rw [hheight] at hcanonical
    exact ⟨hcanonical, rfl⟩

theorem headerTip_walkHeader (s : HeaderSync) {w' : Walk} {header : Header}
    (hw : s.walkHeader blockHeight w header = .ok (some w')) :
    w'.headerIndex.headerTip = w.headerIndex.headerTip := by
  unfold walkHeader at hw
  cases hplace : s.place blockHeight w header with
  | skip stored =>
    rw [hplace] at hw
    obtain rfl := Option.some.inj (Except.ok.inj hw)
    rfl
  | reannounced stored =>
    rw [hplace] at hw
    obtain rfl := Option.some.inj (Except.ok.inj hw)
    rfl
  | child parentHeight =>
    simp only [hplace, Except.bind_eq_ok, Except.pure_eq_ok, Option.some.injEq] at hw
    obtain ⟨work, -, rfl⟩ := hw
    unfold markSignaling
    cases s.bip110 with
    | none => rfl
    | some dep =>
      simp only
      split
      · split <;> rfl
      · rfl
  | stop =>
    rw [hplace] at hw
    cases hw
  | unconnected =>
    rw [hplace] at hw
    cases hw

/-- The walk does not touch the header tip. -/
theorem headerTip_walkHeaders (s : HeaderSync) (blockHeight : Nat) (headers : List Header)
    (w : Walk) :
    (s.walkHeaders blockHeight headers w).2.headerIndex.headerTip = w.headerIndex.headerTip := by
  induction headers generalizing w with
  | nil => rfl
  | cons header headers ih =>
    unfold walkHeaders
    cases hw : s.walkHeader blockHeight w header with
    | error e => rfl
    | ok next =>
      cases next with
      | none => rfl
      | some w' => exact (ih w').trans (s.headerTip_walkHeader hw)

omit [Hashing] in
theorem refreshTaintMemo_eq (s : HeaderSync) :
    ∃ memo generation, s.refreshTaintMemo
      = { s with branchTainted := memo, taintMemoGeneration := generation } := by
  unfold refreshTaintMemo
  split
  · exact ⟨_, _, rfl⟩
  · exact ⟨_, _, rfl⟩

section

variable (hs : s.Indexed) (ha : s.Anchored S genesis) (hS : Collisionless S)
  (hmem : ∀ a ∈ headers, a ∈ S) (ho : s.Orderly headers)
include hs ha hS hmem ho

/-- The choice after the walk over an orderly message keeps the index right. -/
theorem Indexed.choose (h : w.OnBranch S genesis s.headerIndex s.bestHeight)
    (hw : s.walkHeaders blockHeight headers s.startWalk = (.ok (), w))
    (htake : (s.takeWalk w).Indexed) :
    (((s.takeWalk w).chooseBatch w blockHeight).chooseStored w blockHeight).Indexed := by
  have hmarks := h.marks
  have ha' : (s.takeWalk w).Anchored S genesis := by
    refine ⟨?_, ?_⟩ <;> simp only [takeWalk, hmarks.headers]
    · exact ha.linked
    · exact ha.best
  have hbatch : ((s.takeWalk w).chooseBatch w blockHeight).Indexed := by
    refine htake.chooseBatch ha' h rfl fun last hlast hwork => ?_
    obtain ⟨first, rest, parent, hbatch, hfollows, hindex, hle⟩ :=
      grounded_of_orderly ha hs hS hmem ho hw hlast fun best hbest =>
        hwork best ((congrFun hmarks.headers _).trans hbest)
    exact ⟨first, rest, parent, hbatch, hfollows, (congrFun hmarks.heightIndex _).trans hindex, hle⟩
  have hknown := (known_chooseBatch (s := s.takeWalk w) h rfl ha.best blockHeight).1
  refine hbatch.chooseStored (hknown ▸ h.linked.linked) fun t ht => ?_
  obtain ⟨-, stored, hstored, hheight, -⟩ := h.walkTip t ht
  exact ⟨stored, (congrFun hknown t.1).trans (h.extend _ _ hstored), hheight⟩

/-- **An orderly message keeps the index right**, whatever comes of it. -/
theorem Indexed.processHeaders (blockHeight : Nat) :
    (s.processHeaders headers blockHeight).2.Indexed := by
  by_cases hne : headers = []
  · subst hne
    exact hs
  · obtain ⟨w, hw, hwalk, hresult⟩ := ha.exists_walk hS hmem ho.follows hne blockHeight
    obtain ⟨memo, generation, hmemo⟩ := s.refreshTaintMemo_eq
    rw [hmemo] at hw hresult
    have htip : w.headerIndex.headerTip = s.headerIndex.headerTip := by
      rw [← hw, headerTip_walkHeaders]
      rfl
    -- the walk only marks headers
    have hext := hs.of_extends ha (fun _ _ hm => by rwa [hwalk.marks.headers])
      hwalk.marks.heightIndex htip
    rcases hresult with heq | ⟨hok, synced, heq⟩ <;> rw [heq]
    · exact ⟨hext.canonical, hext.tip⟩
    · have hchoose := Indexed.choose (s := { s with
          branchTainted := memo, taintMemoGeneration := generation }) ⟨hs.canonical, hs.tip⟩
        ⟨ha.linked, ha.best⟩ hS hmem ⟨ho.follows, ho.settles⟩ hwalk hok
        ⟨hext.canonical, hext.tip⟩
      exact ⟨hchoose.canonical, hchoose.tip⟩

end

/-- Every message is orderly in the state it finds. -/
def AllOrderly : HeaderSync → List (List Header × Nat) → Prop
  | _, [] => True
  | s, message :: messages =>
    s.Orderly message.1 ∧ AllOrderly (s.processHeaders message.1 message.2).2 messages

/-- **Orderly messages keep the height index right**: in every state they lead
to, it names the ancestors of the best header at all heights up to that of the
best header, and nothing above. -/
theorem canonical_processAll (hs : s.Indexed) (ha : s.Anchored S genesis) (hS : Collisionless S)
    (messages : List (List Header × Nat))
    (hmem : ∀ message ∈ messages, ∀ a ∈ message.1, a ∈ S) (ho : s.AllOrderly messages) :
    (s.processAll messages).headerIndex.Canonical (s.processAll messages).bestHash
      (s.processAll messages).bestHeight := by
  suffices h : (s.processAll messages).Indexed from h.canonical
  induction messages generalizing s with
  | nil => exact hs
  | cons message messages ih =>
    have hin := hmem _ mem_cons_self
    exact ih (hs.processHeaders ha hS hin ho.1 message.2)
      (ha.processHeaders hS hin ho.1.follows message.2)
      (fun m hm => hmem m (mem_cons_of_mem _ hm)) ho.2

end HeaderSync

/-- Whatever header list comes, the height index names the chain of the best
header afterwards, if it did before. -/
def MessagesKeepIndex : Prop :=
  ∀ [Hashing] (S : Set Header) (genesis : Hash) (s : HeaderSync) (headers : List Header)
    (blockHeight : Nat), Collisionless S → s.Anchored S genesis → s.Indexed →
    (∀ a ∈ headers, a ∈ S) →
    (s.processHeaders headers blockHeight).2.headerIndex.Canonical
      (s.processHeaders headers blockHeight).2.bestHash
      (s.processHeaders headers blockHeight).2.bestHeight

section Sample

attribute [local instance] sampleHashing

/-- Headers 2 and 3 in a row over header 1, and header 5 beside header 2. -/
def sideTree : List (Nat × Nat × Nat) := [(1, 0, 0), (2, 1, 1), (3, 2, 2), (5, 1, 1)]

/-- The headers of the tree, header 4 over header 3, and header 6 over
header 5. -/
def sideHeaders : List Header :=
  [sampleHeader 3 4 3 0, sampleHeader 5 6 2 0]
    ++ sideTree.map fun t => (treeStored t.1 t.2.1 t.2.2).header

/-- Header sync with header 3 as the best header. -/
def sideSync : HeaderSync :=
  HeaderSync.new ConsensusParams.regtest
    { HeaderIndex.empty with
      headers := treeHeaders sideTree
      heightIndex := PartialMap.putAll (fun _ => none) [(0, 1#256), (1, 2#256), (2, 3#256)]
      headerTip := some (3#256, 2) } 2 3#256 none fun _ => none

theorem collisionless_sideHeaders : Collisionless { h | h ∈ sideHeaders } :=
  collisionless_of_list (by decide)

theorem anchored_sideSync : sideSync.Anchored { h | h ∈ sideHeaders } 1#256 where
  linked := linkedMap_treeHeaders (by decide) (by decide) (by decide)
    fun _ ht => mem_append_right _ (mem_map_of_mem ht)
  best := ⟨treeStored 3 2 2, by decide, rfl⟩

theorem indexed_sideSync : sideSync.Indexed := by
  refine ⟨⟨?_, fun h hlt => ?_⟩, rfl⟩
  · have hall : ∀ h ≤ 2, sideSync.headerIndex.heightIndex h
        = some ((up StoredHeader.parent sideSync.headerIndex.headers)^[2 - h] 3#256) := by
      decide
    exact hall
  · refine putAll_of_notMem _ fun hmem => ?_
    have hall : ∀ h ∈ [0, 1, 2], ¬ 2 < h := by decide
    exact hall h hmem hlt

/-- Header 4 over the best header. -/
theorem orderly_sideSync : sideSync.Orderly [sampleHeader 3 4 3 0] := by
  refine ⟨isChain_singleton _, fun first rest parent hunseen hp => Or.inr (Or.inl ?_)⟩
  have hrow : sideSync.unseen [sampleHeader 3 4 3 0] = [sampleHeader 3 4 3 0] := by decide
  obtain ⟨rfl, rfl⟩ := List.cons.inj (hrow.symm.trans hunseen)
  obtain rfl : treeStored 3 2 2 = parent := Option.some.inj (Eq.trans (by decide) hp)
  decide

/-- A header over the best one. -/
theorem canonical_sideSync :
    (sideSync.processAll [([sampleHeader 3 4 3 0], 0)]).headerIndex.Canonical
    (sideSync.processAll [([sampleHeader 3 4 3 0], 0)]).bestHash
    (sideSync.processAll [([sampleHeader 3 4 3 0], 0)]).bestHeight :=
  HeaderSync.canonical_processAll indexed_sideSync anchored_sideSync collisionless_sideHeaders _
    (show ∀ message ∈ [([sampleHeader 3 4 3 0], 0)], ∀ h ∈ message.1, h ∈ sideHeaders by decide)
    ⟨orderly_sideSync, trivial⟩

/-- **A header over a stored side branch breaks the index**: header 6 over
header 5 is adopted, but at height 1 the index still names header 2. -/
theorem not_messagesKeepIndex : ¬ MessagesKeepIndex := by
  intro h
  have hcanonical := h { h | h ∈ sideHeaders } 1#256 sideSync [sampleHeader 5 6 2 0] 0
    collisionless_sideHeaders anchored_sideSync indexed_sideSync
    (show ∀ a ∈ [sampleHeader 5 6 2 0], a ∈ sideHeaders by decide)
  have hstate : (fun s : HeaderSync => (s.bestHash, s.bestHeight, s.headerIndex.heightIndex 1,
      up StoredHeader.parent s.headerIndex.headers 6#256))
        (sideSync.processHeaders [sampleHeader 5 6 2 0] 0).2
      = (6#256, 2, some 2#256, 5#256) := by
    decide +kernel
  generalize (sideSync.processHeaders [sampleHeader 5 6 2 0] 0).2 = s at hcanonical hstate
  simp only [Prod.mk.injEq] at hstate
  obtain ⟨hbest, hheight, hindex, hup⟩ := hstate
  rw [hbest, hheight] at hcanonical
  have hone := (hcanonical.indexes 1 (by decide)).symm.trans hindex
  rw [iterate_one, hup] at hone
  exact absurd hone (by decide)

end Sample
