import BitcoinPR.P2P.Linked

/-!
# Marked branches and fork choice

A branch is tainted if one of its blocks is marked invalid. Header sync does
not adopt a branch it believes to be tainted. What it believes rests on three
things: a memo of verdicts about tips, a walk down from a tip that is bounded
and ends at the first validated canonical block, and a look at the blocks of
the batch.

The memo is dropped when the markers have changed, so that its verdicts are
about the present markers (`HeaderSync.TruthfulOn`); within one message they
are right at least about the blocks that are asked about, which are below all
that the message adds. The walk is taken as it is: the results are about blocks
of which it sees a marker if there is one (`Conclusive`). And the batch is all
there is between the new tip and the parent asked about, if the message has not
jumped between branches (`Grows`).
-/

open List

open Branches (Extends Ancestor Closed)

/-- A block of the branch that ends in `t` is marked. -/
def Tainted (ix : HeaderIndex) (t : Hash) : Prop :=
  ∃ a, Ancestor StoredHeader.parent ix.headers t a ∧ a ∈ ix.invalidSet

/-- A marked block is at most `n - 1` links below `t`, and no block above it is
canonical at a height up to `floor`. -/
inductive InView (ix : HeaderIndex) (floor : Nat) : Nat → Hash → Prop
  | here {n : Nat} {t : Hash} {stored : StoredHeader} (found : ix.headers t = some stored)
      (marked : t ∈ ix.invalidSet) : InView ix floor (n + 1) t
  | further {n : Nat} {t : Hash} {stored : StoredHeader} (found : ix.headers t = some stored)
      (fork : ¬ (stored.height ≤ floor ∧ ix.heightIndex stored.height = some t))
      (pos : stored.height ≠ 0) (rest : InView ix floor n stored.header.prevBlockhash) :
      InView ix floor (n + 1) t

/-- If the branch that ends in `t` is tainted, a marker is in view. -/
def Conclusive (ix : HeaderIndex) (floor : Nat) (t : Hash) : Prop :=
  Tainted ix t → InView ix floor taintWalkMax t

/-! ## The walk finds what is in view -/

section

variable {ix ix' : HeaderIndex} {floor n : Nat} {t : Hash}

theorem InView.mono (h : InView ix floor n t) (hext : Extends ix.headers ix'.headers)
    (hheight : ix'.heightIndex = ix.heightIndex)
    (hmarks : ∀ a ∈ ix.invalidSet, a ∈ ix'.invalidSet) : InView ix' floor n t := by
  induction h with
  | here found marked => exact .here (hext _ _ found) (hmarks _ marked)
  | further found fork pos _ ih => exact .further (hext _ _ found) (hheight ▸ fork) pos ih

theorem InView.exists_marked (h : InView ix floor n t) : ∃ a, a ∈ ix.invalidSet := by
  induction h with
  | here _ marked => exact ⟨_, marked⟩
  | further _ _ _ _ ih => exact ih

namespace HeaderIndex

/-- What the walk has seen it does not forget. -/
theorem isSome_invalidWalk_of_isSome {found : Option (Hash × Nat)} (h : found.isSome) :
    (ix.invalidWalk floor n t found).isSome := by
  induction n generalizing t found with
  | zero => exact h
  | succ n ih =>
    unfold invalidWalk
    cases ix.getHeader t with
    | none => exact h
    | some stored =>
      have hnext : (if ix.isInvalid t then some (t, stored.height) else found).isSome := by
        split
        · rfl
        · exact h
      simp only
      split
      · exact hnext
      · split
        · exact hnext
        · exact ih hnext

theorem isSome_invalidWalk (h : InView ix floor n t) (found : Option (Hash × Nat)) :
    (ix.invalidWalk floor n t found).isSome := by
  induction h generalizing found with
  | @here n t stored hfound marked =>
    unfold invalidWalk
    rw [getHeader, hfound]
    simp only
    rw [if_pos (show ix.isInvalid t = true from decide_eq_true marked)]
    split
    · rfl
    · split
      · rfl
      · exact isSome_invalidWalk_of_isSome rfl
  | @further n t stored hfound fork pos _ ih =>
    unfold invalidWalk
    rw [getHeader, hfound]
    simp only
    rw [if_neg (by simpa [getHashAtHeight] using fork), if_neg pos]
    exact ih _

theorem isSome_firstInvalidAncestor (h : InView ix floor n t) :
    (ix.firstInvalidAncestor t floor n).isSome := by
  obtain ⟨a, ha⟩ := h.exists_marked
  unfold firstInvalidAncestor
  rw [if_neg (by simpa using ne_nil_of_mem ha)]
  exact isSome_invalidWalk h none

end HeaderIndex

/-- Taint is about the stored headers and the markers only. -/
theorem tainted_iff_of_eq (hheaders : ix'.headers = ix.headers)
    (hmarks : ix'.invalidSet = ix.invalidSet) : Tainted ix' t ↔ Tainted ix t := by
  rw [Tainted, Tainted, hheaders, hmarks]

/-- What is stored and marked later does not taint a branch it is not on. -/
theorem Tainted.of_extends (h : Tainted ix' t) (hc : Closed StoredHeader.parent ix.headers)
    (hext : Extends ix.headers ix'.headers) (ht : (ix.headers t).isSome)
    (hnew : ∀ a ∈ ix'.invalidSet,
      a ∈ ix.invalidSet ∨ ¬ Ancestor StoredHeader.parent ix.headers t a) : Tainted ix t := by
  obtain ⟨a, ha, hmarked⟩ := h
  have ha' := (Ancestor.iff_of_extends hc hext ht).mp ha
  exact ⟨a, ha', (hnew a hmarked).resolve_right fun hnot => hnot ha'⟩

end

/-! ## Verdicts and the memo -/

/-- **The memo calls a stored block clean only if it is**, for the blocks with
`P`. -/
def TruthfulOn (P : Hash → Prop) (ix : HeaderIndex) (memo : AList fun _ : Hash => Bool) : Prop :=
  ∀ t, memo.lookup t = some false → (ix.headers t).isSome ∧ (P t → ¬ Tainted ix t)

theorem truthfulOn_empty (P : Hash → Prop) (ix : HeaderIndex) : TruthfulOn P ix ∅ := by
  intro t ht
  cases ht

namespace HeaderSync

variable {P : Hash → Prop} {s : HeaderSync} {t : Hash} {floor : Nat}

section

variable (h : TruthfulOn P s.headerIndex s.branchTainted)
include h

theorem truthfulOn_noteBranchTaint {tainted : Bool} (hstored : (s.headerIndex.headers t).isSome)
    (ht : tainted = false → ¬ Tainted s.headerIndex t) :
    TruthfulOn P s.headerIndex (s.noteBranchTaint t tainted).branchTainted := by
  have hmemo : TruthfulOn P s.headerIndex
      (if taintMemoMax ≤ s.branchTainted.keys.length then ∅ else s.branchTainted) := by
    split
    · exact truthfulOn_empty P _
    · exact h
  intro a ha
  unfold noteBranchTaint at ha
  by_cases hat : a = t
  · subst hat
    rw [AList.lookup_insert] at ha
    exact ⟨hstored, fun _ => ht (Option.some.inj ha)⟩
  · rw [AList.lookup_insert_ne hat] at ha
    exact hmemo a ha

/-- **A branch that is called clean is clean**, if the memo is right about it
and the walk sees what there is. -/
theorem untainted_of_branchIsTainted (hP : P t) (hview : Conclusive s.headerIndex floor t)
    (hfalse : (s.branchIsTainted t floor).1 = false) : ¬ Tainted s.headerIndex t := by
  intro htainted
  unfold branchIsTainted at hfalse
  cases hlookup : s.branchTainted.lookup t with
  | some verdict =>
    rw [hlookup] at hfalse
    obtain rfl : verdict = false := hfalse
    exact (h t hlookup).2 hP htainted
  | none =>
    rw [hlookup] at hfalse
    have hfound := HeaderIndex.isSome_firstInvalidAncestor (hview htainted)
    simp [hfound] at hfalse

theorem truthfulOn_branchIsTainted (hP : P t) (hview : Conclusive s.headerIndex floor t)
    (hstored : (s.headerIndex.headers t).isSome) :
    TruthfulOn P s.headerIndex (s.branchIsTainted t floor).2.branchTainted := by
  have hverdict := untainted_of_branchIsTainted h hP hview
  unfold branchIsTainted at hverdict ⊢
  cases hlookup : s.branchTainted.lookup t with
  | some verdict => exact h
  | none =>
    rw [hlookup] at hverdict
    exact truthfulOn_noteBranchTaint h hstored hverdict

section

variable {w : Walk} {base : Hash} {ix : HeaderIndex} (hP : P base)
  (hview : Conclusive s.headerIndex floor base)
  (hgrows : Grows ix s.headerIndex.headers w.batch w.prevHash base)
  (hext : Extends ix.headers s.headerIndex.headers)
include hP hview hgrows hext

/-- **A batch that is called clean** is clean, and so is the branch below. -/
theorem untainted_of_taintOfBatch (hfalse : (s.taintOfBatch w base floor).1 = false) :
    ¬ Tainted s.headerIndex base ∧ ¬ Tainted s.headerIndex w.prevHash := by
  obtain ⟨memo, hmemo⟩ := s.branchIsTainted_snd base floor
  simp only [taintOfBatch, hmemo, withMemo, Bool.or_eq_false_iff] at hfalse
  have hbase := untainted_of_branchIsTainted h hP hview hfalse.1
  refine ⟨hbase, ?_⟩
  rintro ⟨a, ha, hmarked⟩
  rcases hgrows.ancestor a ha with hbatch | hbelow
  · obtain ⟨p, hp, rfl⟩ := mem_map.mp hbatch
    exact any_eq_false.mp hfalse.2 p hp (decide_eq_true hmarked)
  · exact hbase ⟨a, hbelow.mono hext, hmarked⟩

theorem truthfulOn_taintOfBatch (htip : (s.headerIndex.headers w.prevHash).isSome) :
    TruthfulOn P s.headerIndex (s.taintOfBatch w base floor).2.branchTainted := by
  have hverdict := untainted_of_taintOfBatch h hP hview hgrows hext
  obtain ⟨parent, hparent, -⟩ := hgrows.rises
  have hbase := truthfulOn_branchIsTainted h hP hview
    (hext.isSome (Option.isSome_iff_exists.mpr ⟨parent, hparent⟩))
  obtain ⟨memo, hmemo⟩ := s.branchIsTainted_snd base floor
  simp only [taintOfBatch, hmemo] at hverdict hbase ⊢
  exact truthfulOn_noteBranchTaint (s := s.withMemo memo) hbase htip fun hf => (hverdict hf).2

end

end

end HeaderSync

/-! ## The choice after a walk -/

/-- The blocks whose branch is asked about after a walk: the parent of the
batch, and the stored block that was announced again. -/
def Walk.Asked (w : Walk) (t : Hash) : Prop :=
  (∃ first, w.batch.head? = some first ∧ t = first.2.header.prevBlockhash)
    ∨ ∃ tip, w.storedWalkTip = some tip ∧ t = tip.1

/-- Such a block is stored, and nothing of the batch is on its branch. -/
theorem Walk.OnBranch.stored_of_asked [Hashing] {S : Set Header} {genesis : Hash}
    {ix : HeaderIndex} {tipHeight : Nat} {w : Walk} (h : w.OnBranch S genesis ix tipHeight)
    (hix : LinkedMap S genesis ix.headers) {t : Hash} (ht : w.Asked t) :
    (ix.headers t).isSome
      ∧ ∀ a ∈ w.batch.map Prod.fst, ¬ Ancestor StoredHeader.parent ix.headers t a := by
  cases hfirst : w.batch.head? with
  | none =>
    have hnil := head?_eq_none_iff.mp hfirst
    rcases ht with ⟨first, hf, -⟩ | ⟨tip, htip, rfl⟩
    · rw [hfirst] at hf
      cases hf
    · obtain ⟨-, stored, hstored, -⟩ := h.walkTip tip htip
      rw [hnil, hstored]
      exact ⟨rfl, fun a ha => (by cases ha)⟩
  | some first =>
    obtain ⟨hgrows, htip⟩ := h.branch first hfirst
    obtain rfl : t = first.2.header.prevBlockhash := by
      rcases ht with ⟨first', hf, rfl⟩ | ⟨tip, hw, rfl⟩
      · rw [Option.mem_unique hfirst hf]
      · exact (htip tip hw).symm
    obtain ⟨parent, hparent, hrises⟩ := hgrows.rises
    rw [hparent]
    refine ⟨rfl, fun a ha hanc => ?_⟩
    -- the batch is above its parent, and the parent's ancestors are not
    obtain ⟨p, hp, rfl⟩ := mem_map.mp ha
    obtain ⟨low, hlow⟩ := Option.isSome_iff_exists.mp
      (hanc.isSome hix.closed (Option.isSome_iff_exists.mpr ⟨parent, hparent⟩))
    have hle := ((hix.linked.graded.ancestor_iff hparent hlow).mp hanc).1
    obtain ⟨hknown, hlt⟩ := hrises p hp
    have heq : low = p.2 := Option.mem_unique (h.extend _ _ hlow) hknown
    rw [heq] at hle
    omega

theorem TruthfulOn.of_reindexed {P : Hash → Prop} {ix ix' : HeaderIndex}
    {memo : AList fun _ : Hash => Bool} (h : TruthfulOn P ix memo) (hre : ix.Reindexed ix') :
    TruthfulOn P ix' memo := by
  intro t ht
  rw [hre.headers, tainted_iff_of_eq hre.headers hre.invalidSet]
  exact h t ht

/-- What the choice has come to: it was right about what it asked, and the best
header is the former one or on a clean branch. -/
structure HeaderSync.Judged (P : Hash → Prop) (ix : HeaderIndex) (s s₀ : HeaderSync) :
    Prop where
  reindexed : ix.Reindexed s.headerIndex
  generation : s.taintMemoGeneration = s₀.taintMemoGeneration
  memo : TruthfulOn P s.headerIndex s.branchTainted
  clean : s.bestHash = s₀.bestHash ∨ ¬ Tainted s.headerIndex s.bestHash

namespace HeaderSync

variable {P : Hash → Prop} {w : Walk} {floor : Nat} {ix : HeaderIndex}
  {s₀ s : HeaderSync}

theorem judged_chooseBatch [Hashing] {S : Set Header} {genesis : Hash} {tipHeight : Nat}
    (h : w.OnBranch S genesis ix tipHeight)
    (hknown : (s.storeBatch w).headerIndex.headers = w.known ix)
    (hP : ∀ t, w.Asked t → P t)
    (hmemo : TruthfulOn P (s.storeBatch w).headerIndex s.branchTainted)
    (hview : ∀ t, w.Asked t → Conclusive (s.storeBatch w).headerIndex floor t) :
    (s.chooseBatch w floor).Judged P (s.storeBatch w).headerIndex s
      ∧ ∀ t, w.Asked t → Conclusive (s.chooseBatch w floor).headerIndex floor t := by
  rcases s.chooseBatch_cases w floor with ⟨hnil, heq⟩ | ⟨first, memo, hfirst, heqmemo, hcases⟩
  · have hsame : s.storeBatch w = s := by
      unfold storeBatch
      rw [hnil]
      rfl
    rw [heq]
    rw [hsame] at hmemo hview ⊢
    exact ⟨⟨HeaderIndex.Reindexed.refl _, rfl, hmemo, Or.inl rfl⟩, hview⟩
  · obtain ⟨hgrows, htip⟩ := h.branch first hfirst
    rw [← hknown] at hgrows
    have hasked : w.Asked first.2.header.prevBlockhash := Or.inl ⟨first, hfirst, rfl⟩
    have hext : Extends ix.headers (s.storeBatch w).headerIndex.headers := hknown ▸ h.extend
    have hstands : ((s.storeBatch w).headerIndex.headers w.prevHash).isSome := by
      obtain ⟨stored, hstored, -⟩ := h.stands
      rw [hknown, hstored]
      rfl
    have hmemo' := truthfulOn_taintOfBatch (s := s.storeBatch w) hmemo (hP _ hasked)
      (hview _ hasked) hgrows hext hstands
    have hverdict := untainted_of_taintOfBatch (s := s.storeBatch w) hmemo (hP _ hasked)
      (hview _ hasked) hgrows hext
    rw [heqmemo] at hmemo'
    rcases hcases with heq | ⟨hfalse, last, -, -, heq⟩ <;> rw [heq]
    · exact ⟨⟨HeaderIndex.Reindexed.refl _, rfl, hmemo', Or.inl rfl⟩, hview⟩
    · obtain ⟨hbase, hnew⟩ := hverdict hfalse
      have hre := ((s.storeBatch w).withMemo memo).reindexed_adoptBatch w last.2.chainWork
      refine ⟨⟨hre, rfl, hmemo'.of_reindexed hre, Or.inr ?_⟩, fun t ht htainted => ?_⟩
      · rw [tainted_iff_of_eq hre.headers hre.invalidSet]
        exact hnew
      · -- whatever was asked about is the parent of the batch, which is clean
        refine absurd ((tainted_iff_of_eq hre.headers hre.invalidSet).mp htainted) ?_
        rcases ht with ⟨first', hf, rfl⟩ | ⟨tip, hw, rfl⟩
        · rw [← Option.mem_unique hfirst hf]
          exact hbase
        · exact htip tip hw ▸ hbase

theorem judged_chooseStored (h : s.Judged P ix s₀) (hP : ∀ t, w.Asked t → P t)
    (hview : ∀ t, w.Asked t → Conclusive s.headerIndex floor t)
    (hstored : ∀ t, w.Asked t → (ix.headers t).isSome) :
    (s.chooseStored w floor).Judged P ix s₀ := by
  rcases s.chooseStored_cases w floor with heq | ⟨tip, memo, htip, hmemo, heq⟩
  · rw [heq]
    exact h
  · have hasked : w.Asked tip.1 := Or.inr ⟨tip, htip, rfl⟩
    have hmemo' := truthfulOn_branchIsTainted h.memo (hP _ hasked) (hview _ hasked)
      (h.reindexed.headers ▸ hstored _ hasked)
    have hverdict := untainted_of_branchIsTainted h.memo (hP _ hasked) (hview _ hasked)
    rw [hmemo] at hmemo'
    rcases heq with heq | ⟨hfalse, ix', hrestore, heq⟩ <;> rw [heq]
    · exact ⟨h.reindexed, h.generation, hmemo', h.clean⟩
    · have hre : s.headerIndex.Reindexed (ix'.resetForkHeaderTip tip.2.1 tip.1) :=
        (HeaderIndex.reindexed_restoreBranchHeightIndex hrestore).trans ⟨rfl, rfl, rfl⟩
      refine ⟨h.reindexed.trans hre, h.generation, hmemo'.of_reindexed hre, Or.inr ?_⟩
      rw [tainted_iff_of_eq hre.headers hre.invalidSet]
      exact hverdict hfalse

end HeaderSync

/-! ## One message -/

/-- What a walk has accepted and remembered are headers with `Q`. -/
structure Walk.From [Hashing] (Q : Header → Prop) (w : Walk) : Prop where
  batch : ∀ p ∈ w.batch, Q p.2.header
  tip : ∀ tip, w.storedWalkTip = some tip → ∃ a, Q a ∧ a.blockHash = tip.1

namespace HeaderSync

variable [Hashing] {s : HeaderSync} {blockHeight : Nat} {headers : List Header}

theorem from_walkHeader {Q : Header → Prop} {w w' : Walk} (h : w.From Q) {header : Header}
    (hq : Q header)
    (hw : s.walkHeader blockHeight w header = .ok (some w')) : w'.From Q := by
  unfold walkHeader at hw
  cases hplace : s.place blockHeight w header with
  | skip stored =>
    rw [hplace] at hw
    obtain rfl := Option.some.inj (Except.ok.inj hw)
    exact ⟨h.batch, h.tip⟩
  | reannounced stored =>
    rw [hplace] at hw
    obtain rfl := Option.some.inj (Except.ok.inj hw)
    refine ⟨h.batch, fun tip htip => ⟨header, hq, ?_⟩⟩
    rw [← Option.some.inj htip]
  | child parentHeight =>
    simp only [hplace, Except.bind_eq_ok, Except.pure_eq_ok, Option.some.injEq] at hw
    obtain ⟨work, -, rfl⟩ := hw
    obtain ⟨ix, cache, hmark, -⟩ := s.markSignaling_eq w header (parentHeight + 1)
    rw [hmark]
    refine ⟨fun p hp => ?_, h.tip⟩
    rcases mem_append.mp hp with hp | hp
    · exact h.batch p hp
    · rw [mem_singleton.mp hp]
      exact hq
  | stop =>
    rw [hplace] at hw
    cases hw
  | unconnected =>
    rw [hplace] at hw
    cases hw

theorem from_walkHeaders {Q : Header → Prop} {w : Walk} (h : w.From Q)
    (hq : ∀ a ∈ headers, Q a) (blockHeight : Nat) :
    (s.walkHeaders blockHeight headers w).2.From Q := by
  induction headers generalizing w with
  | nil => exact h
  | cons header headers ih =>
    unfold walkHeaders
    cases hw : s.walkHeader blockHeight w header with
    | error e => exact h
    | ok next =>
      cases next with
      | none => exact h
      | some w' =>
        exact ih (from_walkHeader h (hq _ mem_cons_self) hw) fun a ha => hq a (mem_cons_of_mem _ ha)

/-- What is asked about after the walk over a message is a header of it or the
parent of one. -/
theorem exists_of_asked {t : Hash}
    (ht : (s.walkHeaders blockHeight headers s.startWalk).2.Asked t) :
    ∃ a ∈ headers, t = a.blockHash ∨ t = a.prevBlockhash := by
  have hfrom : (s.walkHeaders blockHeight headers s.startWalk).2.From fun a => a ∈ headers :=
    from_walkHeaders ⟨fun _ hp => (by cases hp), fun _ hp => (by cases hp)⟩ (fun _ ha => ha)
      blockHeight
  rcases ht with ⟨first, hfirst, rfl⟩ | ⟨tip, htip, rfl⟩
  · exact ⟨_, hfrom.batch first (mem_of_mem_head? hfirst), Or.inr rfl⟩
  · obtain ⟨a, ha, heq⟩ := hfrom.tip tip htip
    exact ⟨a, ha, Or.inl heq.symm⟩

/-- **A sound state with its memo**: if the memo was built with the present
markers, it is right. -/
structure Sound (S : Set Header) (genesis : Hash) (s : HeaderSync) : Prop
    extends s.Anchored S genesis where
  generation_le : s.taintMemoGeneration ≤ s.headerIndex.invalidGeneration
  memo : s.taintMemoGeneration = s.headerIndex.invalidGeneration →
    TruthfulOn (fun _ => True) s.headerIndex s.branchTainted

omit [Hashing] in
theorem refreshTaintMemo_memo {s : HeaderSync}
    (h : s.taintMemoGeneration = s.headerIndex.invalidGeneration →
      TruthfulOn (fun _ => True) s.headerIndex s.branchTainted) :
    s.refreshTaintMemo.taintMemoGeneration = s.headerIndex.invalidGeneration
      ∧ TruthfulOn (fun _ => True) s.headerIndex s.refreshTaintMemo.branchTainted := by
  unfold refreshTaintMemo
  split
  · exact ⟨rfl, truthfulOn_empty _ _⟩
  · rename_i heq
    exact ⟨(not_not.mp heq).symm, h (not_not.mp heq).symm⟩

/-- **The choice is right about what it asks**, if the memo was right before the
walk and markers are in view: what the walk has added and marked is above the
blocks asked about. -/
theorem judged_choose {S : Set Header} {genesis : Hash} {ix : HeaderIndex} {tipHeight floor : Nat}
    {w : Walk} (h : w.OnBranch S genesis ix tipHeight) (hix : LinkedMap S genesis ix.headers)
    (hw : s.headerIndex = w.headerIndex)
    (hmemo : TruthfulOn (fun _ => True) ix s.branchTainted)
    (hview : ∀ t, w.Asked t → Conclusive ix floor t) :
    ((s.chooseBatch w floor).chooseStored w floor).Judged
      (fun t => w.headerIndex.invalidGeneration = ix.invalidGeneration ∨ w.Asked t)
      (s.storeBatch w).headerIndex s := by
  have hknown := headers_storeBatch h hw
  have hext : Extends ix.headers (s.storeBatch w).headerIndex.headers := hknown ▸ h.extend
  have hmarks : (s.storeBatch w).headerIndex.invalidSet = w.headerIndex.invalidSet :=
    congrArg (fun i => i.invalidSet) hw
  have hheight : (s.storeBatch w).headerIndex.heightIndex = ix.heightIndex :=
    (congrArg (fun i => i.heightIndex) hw).trans h.marks.heightIndex
  have hold : ∀ t, w.Asked t → Tainted (s.storeBatch w).headerIndex t → Tainted ix t := by
    intro t ht htainted
    obtain ⟨hstored, hnew⟩ := h.stored_of_asked hix ht
    refine htainted.of_extends hix.closed hext hstored fun a ha => ?_
    rw [hmarks] at ha
    exact (h.marks.new a ha).imp_right (hnew a)
  have hview₁ : ∀ t, w.Asked t → Conclusive (s.storeBatch w).headerIndex floor t := by
    intro t ht htainted
    exact (hview t ht (hold t ht htainted)).mono hext hheight (hmarks ▸ h.marks.mono)
  have hmemo₁ : TruthfulOn
      (fun t => w.headerIndex.invalidGeneration = ix.invalidGeneration ∨ w.Asked t)
      (s.storeBatch w).headerIndex s.branchTainted := by
    intro t ht
    obtain ⟨hstored, hclean⟩ := hmemo t ht
    refine ⟨hext.isSome hstored, fun hP htainted => hclean trivial ?_⟩
    rcases hP with hsame | hP
    · refine htainted.of_extends hix.closed hext hstored fun a ha => ?_
      rw [hmarks, h.marks.same hsame] at ha
      exact Or.inl ha
    · exact hold t hP htainted
  obtain ⟨hjudged, hview₂⟩ := judged_chooseBatch h hknown (fun t ht => Or.inr ht) hmemo₁ hview₁
  exact judged_chooseStored hjudged (fun t ht => Or.inr ht) hview₂
    fun t ht => hext.isSome (h.stored_of_asked hix ht).1

/-- **A message whose headers follow one another**, about branches of which the
walk sees what there is: a new best header is on a clean branch, and the memo
stays right. -/
theorem Sound.processHeaders {S : Set Header} {genesis : Hash} (h : s.Sound S genesis)
    (hS : Collisionless S) (hmem : ∀ a ∈ headers, a ∈ S)
    (hfollows : Follows headers)
    (hview : ∀ a ∈ headers, Conclusive s.headerIndex blockHeight a.blockHash
      ∧ Conclusive s.headerIndex blockHeight a.prevBlockhash) :
    (s.processHeaders headers blockHeight).2.Sound S genesis
      ∧ ((s.processHeaders headers blockHeight).2.bestHash = s.bestHash
        ∨ ¬ Tainted (s.processHeaders headers blockHeight).2.headerIndex
            (s.processHeaders headers blockHeight).2.bestHash) := by
  have hanchored := h.toAnchored.processHeaders hS hmem hfollows blockHeight
  by_cases hne : headers = []
  · subst hne
    exact ⟨h, Or.inl rfl⟩
  obtain ⟨w, hw, hwalk, hcases⟩ := h.exists_walk hS hmem hfollows hne blockHeight
  obtain ⟨hgeneration, hmemo⟩ := refreshTaintMemo_memo h.memo
  have hasked : ∀ t, w.Asked t → Conclusive s.headerIndex blockHeight t := by
    intro t ht
    rw [← hw] at ht
    obtain ⟨a, ha, rfl | rfl⟩ := exists_of_asked ht
    · exact (hview a ha).1
    · exact (hview a ha).2
  rcases hcases with heq | ⟨-, synced, heq⟩ <;> rw [heq] at hanchored ⊢
  · -- the message is refused: only markers have been added
    refine ⟨⟨hanchored, hgeneration.trans_le hwalk.marks.generation_le, fun hsame => ?_⟩,
      Or.inl (s.refreshTaintMemo_bestHash)⟩
    have hgen := hsame.symm.trans hgeneration
    exact hmemo.of_reindexed ⟨hwalk.marks.headers, hwalk.marks.same hgen, hgen⟩
  · have hjudged := judged_choose (s := s.refreshTaintMemo.takeWalk w) hwalk h.linked rfl hmemo
      hasked
    have hgen : (((s.refreshTaintMemo.takeWalk w).chooseBatch w blockHeight).chooseStored w
        blockHeight).taintMemoGeneration = s.headerIndex.invalidGeneration :=
      hjudged.generation.trans hgeneration
    have hix := hjudged.reindexed.generation
    refine ⟨⟨hanchored, ?_, fun hsame t ht => ?_⟩, ?_⟩
    · exact (hgen.trans_le hwalk.marks.generation_le).trans_eq hix.symm
    · obtain ⟨hstored, hclean⟩ := hjudged.memo t ht
      exact ⟨hstored, fun _ => hclean (Or.inl (hix.symm.trans (hsame.symm.trans hgen)))⟩
    · exact hjudged.clean.imp_left fun hbest => hbest.trans s.refreshTaintMemo_bestHash

end HeaderSync

/-! ## Runs -/

/-- What happens to header sync and its index. -/
inductive SyncEvent where
  | headers (headers : List Header) (blockHeight : Nat)
  | markInvalid (hash : Hash)
  | clearInvalid (hash : Hash)
  | clearAllInvalid
  /-- The node is started again, at a stored header. If that is the tip of the
  blocks, the canonical headers above it may be purged. -/
  | restart (tip : Hash) (purge : Bool)

/-- The headers of a message are in `S`. -/
def SyncEvent.Within (S : Set Header) : SyncEvent → Prop
  | .headers hs _ => ∀ a ∈ hs, a ∈ S
  | _ => True

namespace HeaderSync

/-- Start again at a stored header: the memo is empty, and the generation of the
markers is counted anew. -/
def restart (s : HeaderSync) (tip : Hash) (purge : Bool) : HeaderSync :=
  match s.headerIndex.getHeader tip with
  | none => s
  | some stored =>
    let ix := { s.headerIndex with invalidGeneration := 0 }
    HeaderSync.new s.params (if purge then ix.resetForkHeaderTip stored.height tip else ix)
      stored.height tip s.bip110 fun _ => none

variable [Hashing]

def step (s : HeaderSync) : SyncEvent → HeaderSync
  | .headers headers blockHeight => (s.processHeaders headers blockHeight).2
  | .markInvalid hash => { s with headerIndex := s.headerIndex.markInvalid hash }
  | .clearInvalid hash => { s with headerIndex := s.headerIndex.clearInvalid hash }
  | .clearAllInvalid => { s with headerIndex := s.headerIndex.clearAllInvalid }
  | .restart tip purge => s.restart tip purge

def run (s : HeaderSync) (events : List SyncEvent) : HeaderSync := events.foldl step s

/-- **The messages that are handled rightly**: their headers follow one another,
and the walk sees a marker on the branch of each of them, if there is one. -/
def Admissible (s : HeaderSync) : SyncEvent → Prop
  | .headers headers blockHeight =>
    Follows headers ∧ ∀ a ∈ headers, Conclusive s.headerIndex blockHeight a.blockHash
      ∧ Conclusive s.headerIndex blockHeight a.prevBlockhash
  | _ => True

def RunAdmissible (s : HeaderSync) : List SyncEvent → Prop
  | [] => True
  | e :: es => s.Admissible e ∧ RunAdmissible (s.step e) es

variable {S : Set Header} {genesis : Hash} {s : HeaderSync}

section

variable (h : s.Sound S genesis)
include h

/-- Other markers: the memo is dropped before it is used again. -/
theorem Sound.remark {ix : HeaderIndex} (hheaders : ix.headers = s.headerIndex.headers)
    (hgen : s.headerIndex.invalidGeneration < ix.invalidGeneration) :
    HeaderSync.Sound S genesis { s with headerIndex := ix } := by
  have hle := h.generation_le
  refine ⟨⟨?_, ?_⟩, ?_, fun hsame => ?_⟩
  · rw [hheaders]
    exact h.linked
  · rw [hheaders]
    exact h.best
  · show s.taintMemoGeneration ≤ ix.invalidGeneration
    omega
  · change s.taintMemoGeneration = ix.invalidGeneration at hsame
    omega

theorem Sound.restart (tip : Hash) (purge : Bool) :
    (s.restart tip purge).Sound S genesis := by
  unfold HeaderSync.restart
  cases hstored : s.headerIndex.getHeader tip with
  | none => exact h
  | some stored =>
    cases purge <;>
      exact ⟨⟨h.linked, stored, hstored, rfl⟩, Nat.zero_le _, fun _ => truthfulOn_empty _ _⟩

theorem Sound.step (hS : Collisionless S) {e : SyncEvent} (hmem : e.Within S)
    (he : s.Admissible e) : (s.step e).Sound S genesis := by
  cases e with
  | headers headers blockHeight => exact (h.processHeaders hS hmem he.1 he.2).1
  | markInvalid hash => exact h.remark rfl (Nat.lt_succ_self _)
  | clearInvalid hash =>
    by_cases hm : hash ∈ s.headerIndex.invalidSet
    · refine h.remark ?_ ?_ <;> rw [HeaderIndex.clearInvalid, if_pos hm]
      exact Nat.lt_succ_self _
    · show HeaderSync.Sound S genesis { s with headerIndex := s.headerIndex.clearInvalid hash }
      rw [HeaderIndex.clearInvalid, if_neg hm]
      exact h
  | clearAllInvalid => exact h.remark rfl (Nat.lt_succ_self _)
  | restart tip purge => exact h.restart tip purge

theorem Sound.run (hS : Collisionless S) {events : List SyncEvent}
    (hmem : ∀ e ∈ events, e.Within S) (hevents : s.RunAdmissible events) :
    (s.run events).Sound S genesis := by
  induction events generalizing s with
  | nil => exact h
  | cons e es ih =>
    exact ih (h.step hS (hmem e mem_cons_self) hevents.1)
      (fun e' he' => hmem e' (mem_cons_of_mem e he')) hevents.2

end

/-- **A tainted branch does not win fork choice**, in any run of messages that
are handled rightly and of changes to the markers and restarts: a message that
changes the best header makes it one without a marked block on its branch. -/
theorem untainted_of_runAdmissible (hs : s.Sound S genesis) (hS : Collisionless S)
    {events : List SyncEvent} (hmem : ∀ e ∈ events, e.Within S)
    (hevents : s.RunAdmissible events) {headers : List Header} {blockHeight : Nat}
    (hheaders : ∀ a ∈ headers, a ∈ S)
    (hlast : (s.run events).Admissible (.headers headers blockHeight))
    (hnew : ((s.run events).processHeaders headers blockHeight).2.bestHash
      ≠ (s.run events).bestHash) :
    ¬ Tainted ((s.run events).processHeaders headers blockHeight).2.headerIndex
      ((s.run events).processHeaders headers blockHeight).2.bestHash :=
  ((hs.run hS hmem hevents).processHeaders hS hheaders hlast.1 hlast.2).2.resolve_left hnew

end HeaderSync

/-- Whatever happens, a tainted branch does not win fork choice. -/
def TaintedNeverWins : Prop :=
  ∀ [Hashing] (S : Set Header) (genesis : Hash) (s : HeaderSync) (events : List SyncEvent)
    (headers : List Header) (blockHeight : Nat), Collisionless S → s.Sound S genesis →
    (∀ e ∈ events, e.Within S) → (∀ a ∈ headers, a ∈ S) →
    ((s.run events).processHeaders headers blockHeight).2.bestHash ≠ (s.run events).bestHash →
    ¬ Tainted ((s.run events).processHeaders headers blockHeight).2.headerIndex
      ((s.run events).processHeaders headers blockHeight).2.bestHash

section Sample

attribute [local instance] sampleHashing

theorem sound_firstSync : firstSync.Sound { h | h ∈ forkHeaders } 1#256 :=
  ⟨anchored_firstSync, Nat.le_refl _, fun _ => truthfulOn_empty _ _⟩

/-- No stored header has a parent yet, so that only a block itself taints its
branch. -/
theorem tainted_firstSync {hash t : Hash}
    (h : Tainted (firstSync.headerIndex.markInvalid hash) t) : t = hash := by
  obtain ⟨a, ha, hmarked⟩ := h
  obtain rfl : a = hash := mem_singleton.mp hmarked
  rcases Relation.ReflTransGen.cases_head ha with rfl | ⟨b, ⟨stored, hstored, hparent⟩, -⟩
  · rfl
  · rw [(firstSync_headers hstored).2] at hparent
    cases hparent

/-- Headers 2 and 3 are adopted over the first block, header 5 being marked. -/
theorem untainted_unrelatedMark :
    ¬ Tainted ((firstSync.run [.markInvalid 5#256]).processHeaders
        [sampleHeader 1 2 1 0, sampleHeader 2 3 2 0] 0).2.headerIndex
      ((firstSync.run [.markInvalid 5#256]).processHeaders
        [sampleHeader 1 2 1 0, sampleHeader 2 3 2 0] 0).2.bestHash := by
  refine HeaderSync.untainted_of_runAdmissible sound_firstSync collisionless_forkHeaders
    (fun e he => ?_) (show firstSync.RunAdmissible [.markInvalid 5#256] from ⟨trivial, trivial⟩) ?_
    ⟨by decide, fun a ha => ?_⟩ (by decide +kernel)
  · rw [mem_singleton.mp he]
    trivial
  · decide
  · have hne : ∀ a ∈ [sampleHeader 1 2 1 0, sampleHeader 2 3 2 0],
        a.blockHash ≠ 5#256 ∧ a.prevBlockhash ≠ 5#256 := by
      decide
    exact ⟨fun ht => absurd (tainted_firstSync ht) (hne a ha).1,
      fun ht => absurd (tainted_firstSync ht) (hne a ha).2⟩

/-- Header 5 is adopted, then header 2 instead, and then header 5 is marked. -/
def rivalMarked : List SyncEvent :=
  [.headers [sampleHeader 1 5 1 0] 0, .headers [sampleHeader 1 2 1 0] 0, .markInvalid 5#256]

/-- **A marked header is adopted**: a message that extends the tip by header 3
and then names the marked header 5, which is stored, ends with header 5 as the
best header. -/
theorem not_taintedNeverWins : ¬ TaintedNeverWins := by
  intro h
  have hbest : (firstSync.run rivalMarked).bestHash = 2#256
      ∧ ((firstSync.run rivalMarked).processHeaders
          [sampleHeader 2 3 2 0, sampleHeader 1 5 1 0] 1).2.bestHash = 5#256
      ∧ 5#256 ∈ ((firstSync.run rivalMarked).processHeaders
          [sampleHeader 2 3 2 0, sampleHeader 1 5 1 0] 1).2.headerIndex.invalidSet := by
    decide +kernel
  obtain ⟨hold, hnew, hmarked⟩ := hbest
  refine h { h | h ∈ forkHeaders } 1#256 firstSync rivalMarked
    [sampleHeader 2 3 2 0, sampleHeader 1 5 1 0] 1 collisionless_forkHeaders sound_firstSync
    ?_ ?_ ?_ ⟨5#256, ?_, hmarked⟩
  · have hmem : ∀ a ∈ [sampleHeader 1 5 1 0, sampleHeader 1 2 1 0], a ∈ forkHeaders := by decide
    intro e he
    rcases mem_cons.mp he with rfl | he
    · exact fun a ha => hmem a (mem_append_left [_] ha)
    rcases mem_cons.mp he with rfl | he
    · exact fun a ha => hmem a (mem_cons_of_mem _ ha)
    · rw [mem_singleton.mp he]
      trivial
  · decide
  · rw [hold, hnew]
    decide
  · rw [hnew]
    exact Branches.Ancestor.refl _

end Sample
