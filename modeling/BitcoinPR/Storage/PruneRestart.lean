import BitcoinPR.Storage.Prune

/-!
# Pruning again after an interruption

A pass first removes positions and undo records, then persists the new pruned
height, then deletes the files. If it is interrupted, the stores are left as
after a prefix of these writes (`interrupted`), and the next pass has to finish
the work. Before the pruned height is persisted it does: the heights are gone
through again, and the positions that are gone already do not stop it.

Afterwards the next pass starts above the persisted height. The files that were
not deleted are chosen again, but no height from there on has a block in them:
unless the block just above lies in a file that is to go as well, the pass takes
the files for unaccounted ones and refuses to delete them (`restarts_iff`). The
data it leaves behind is what the code calls harmless and reclaimed by the next
pass.
-/

open List Nat

namespace Storage

/-- A block is named at one height only. -/
def NamedOnce (s : Storage) : Prop :=
  ∀ h h' hash, s.index.getHashAtHeight h = some hash →
    s.index.getHashAtHeight h' = some hash → h = h'

/-- **Files filled in height order**: higher blocks are not in older files, and
a block is named at one height only. -/
structure InHeightOrder (s : Storage) : Prop extends Located s where
  mono : ∀ h h' num num', s.index.hashPosFile h = some num →
    s.index.hashPosFile h' = some num' → h ≤ h' → num ≤ num'
  unique : s.NamedOnce

/-- The stores left by a pass that got through `n` of its writes. -/
def interrupted (s : Storage) (plan : PrunePlan) (n : Nat) : Storage :=
  (applyWrites (plan.writes.take n) 0 s).2

/-- **A pass succeeds and does its work**: afterwards the files are within the
target, or none is left that is older than the first file to stay. -/
def Restarts (s : Storage) (ceiling target : Nat) : Prop :=
  ∀ ρ, (∃ report, (s.pruneBlockFiles ρ ceiling target).1 = .ok report)
    ∧ (Shed.total Prod.snd (s.pruneBlockFiles ρ ceiling target).2.blockStore.files ≤ target
      ∨ ∀ num ∈ (s.pruneBlockFiles ρ ceiling target).2.fileNums, ∀ keep,
        (s.pruneBlockFiles ρ ceiling target).2.keepFile ceiling = some keep → keep ≤ num)

/-! ## When a pass does its work -/

section Pass

variable {s s' : Storage} {ceiling target keep k : Nat} {plan : PrunePlan}

/-- What is left of the files when a pass is done. -/
theorem Filed.stop (hs : s.Filed) {left : List (Nat × Nat)} (h : s.blockStore.files
      = Shed.shed Prod.snd (fun f => decide (f.1 < keep)) target s.blockStore.files ++ left) :
    Shed.total Prod.snd left ≤ target ∨ ∀ f ∈ left, keep ≤ f.1 := by
  refine (Shed.shed_stop h).imp_right fun hhead f hf => ?_
  have hsorted : left.Pairwise fun f g => f.1 < g.1 := by
    have hall := hs.sorted
    rw [h] at hall
    exact (pairwise_append.mp hall).2.1
  cases left with
  | nil => cases hf
  | cons g left =>
    have hfirst : keep ≤ g.1 := not_lt.mp (of_decide_eq_false (hhead g rfl))
    rcases mem_cons.mp hf with rfl | hf
    · exact hfirst
    · exact hfirst.trans ((pairwise_cons.mp hsorted).1 f hf).le

/-- The positions that go are below the ceiling, so that higher blocks keep
theirs. -/
theorem Planned.hashPosFile_eq (h : s.Planned ceiling target plan keep k) (hu : s.NamedOnce)
    (hat : s'.index.headerIndex = s.index.headerIndex)
    (hpos : ∀ hash, hash ∉ plan.removed → s'.index.blockPos hash = s.index.blockPos hash)
    {height : Nat} (hhigh : s.pruneStart + k ≤ height) :
    s'.index.hashPosFile height = s.index.hashPosFile height := by
  have hsame : s'.index.getHashAtHeight height = s.index.getHashAtHeight height :=
    congrArg (fun ix : HeaderIndex => ix.getHashAtHeight height) hat
  unfold BlockIndex.hashPosFile BlockIndex.getBlockPos
  rw [hsame]
  cases hhash : s.index.getHashAtHeight height with
  | none => rfl
  | some hash =>
    have hnot : hash ∉ plan.removed := fun hin => by
      obtain ⟨low, -, hlt, hlow, -⟩ := (h.gone.mem_removed hash).mp hin
      have heq := hu low height hash hlow hhash
      omega
    simp only [hpos hash hnot]

/-- The heights a pass goes through end at the ceiling. -/
theorem Planned.le_ceiling (h : s.Planned ceiling target plan keep k) :
    s.pruneStart + k ≤ ceiling + 1 := by
  have hle := h.gone.le
  by_cases hk : k = 0
  · have hzero := h.start_eq_zero hk
    omega
  · omega

theorem Located.hashPosFile_le (hs : s.Located) {height num : Nat}
    (h : s.index.hashPosFile height = some num) : num ≤ s.blockStore.currentFile := by
  obtain ⟨hash, pos, -, hpos, rfl⟩ := hashPosFile_eq_some.mp h
  exact hs.le_current _ (hs.listed hash pos hpos)

/-- The first file to stay is that of the first block above the ceiling. -/
theorem Located.keepFile_eq (hs : s.Located) (ceiling : Nat) :
    s.keepFile ceiling = s.index.hashPosFile (ceiling + 1) := by
  unfold keepFile BlockStore.currentFileNum
  cases h : s.index.hashPosFile (ceiling + 1) with
  | none => rfl
  | some num => rw [Option.map_some, min_eq_left (hs.hashPosFile_le h)]

/-- **A pass does its work unless it is refused**, which it is exactly if there
are files to delete and it does not go ahead. -/
theorem Filed.restarts_iff_goesAhead (hs : s.Filed) (hu : s.NamedOnce) :
    s.Restarts ceiling target
      ↔ (∀ num, ¬ s.Doomed ceiling target num) ∨ s.GoesAhead ceiling target := by
  constructor
  · intro h
    rcases prunePlan_cases IterOrder.id hs ceiling target with
      ⟨-, hnone⟩ | ⟨e, hplan, -⟩ | ⟨plan, keep, k, -, -, hahead⟩
    · exact Or.inl hnone
    · obtain ⟨⟨report, hok⟩, -⟩ := h IterOrder.id
      unfold pruneBlockFiles at hok
      simp only [hplan] at hok
      cases hok
    · exact Or.inr hahead
  · intro h ρ
    rcases prunePlan_cases ρ hs ceiling target with
      ⟨hplan, hnone⟩ | ⟨e, -, ⟨num, hdoomed⟩, hrefused⟩ | ⟨plan, keep, k, hplan, hplanned, -⟩
    · have hsame : s.pruneBlockFiles ρ ceiling target = (.ok none, s) := by
        unfold pruneBlockFiles
        simp only [hplan]
      rw [hsame]
      refine ⟨⟨none, rfl⟩, ?_⟩
      cases hkeep : s.keepFile ceiling with
      | none => exact Or.inr fun num _ keep hk => (by cases hk)
      | some keep =>
        -- nothing is shed, so that all files are left
        have hnil : Shed.shed Prod.snd (fun f => decide (f.1 < keep)) target
            s.blockStore.files = [] := by
          refine eq_nil_iff_forall_not_mem.mpr fun f hf => hnone f.1 ?_
          exact (hs.mem_shed_iff hkeep).mp (mem_map_of_mem hf)
        have hstop : Shed.total Prod.snd s.blockStore.files ≤ target
            ∨ ∀ f ∈ s.blockStore.files, keep ≤ f.1 :=
          hs.stop (by rw [hnil, nil_append])
        refine hstop.imp_right fun hall num hnum keep' hk => ?_
        obtain rfl := Option.some.inj hk
        obtain ⟨f, hf, rfl⟩ := mem_map.mp hnum
        exact hall f hf
    · rcases h with hnone | hahead
      · exact absurd hdoomed (hnone num)
      · exact absurd hahead hrefused
    · obtain ⟨⟨report, hok⟩, hw⟩ := hplanned.written hs hplan
      refine ⟨⟨some report, hok⟩, ?_⟩
      obtain ⟨left, hleft⟩ := hplanned.files_prefix
      have hfiles : (s.pruneBlockFiles ρ ceiling target).2.blockStore.files = left := by
        rw [hw.files, ← hleft, filter_append]
        have hgone : (plan.files.filter fun f =>
            decide (PruneWrite.deleteBlockFile f.1 ∉ plan.writes)) = [] := by
          refine filter_eq_nil_iff.mpr fun f hf => ?_
          simpa using mem_writes_deleteBlockFile.mpr (mem_map_of_mem hf)
        rw [hgone]
        refine filter_eq_self.mpr fun f hf => decide_eq_true fun hin => ?_
        obtain ⟨g, hg, heq⟩ := mem_map.mp (mem_writes_deleteBlockFile.mp hin)
        have hall := hs.sorted
        rw [← hleft] at hall
        exact Nat.ne_of_lt ((pairwise_append.mp hall).2.2 g hg f hf) heq
      have hkeep : (s.pruneBlockFiles ρ ceiling target).2.keepFile ceiling = some keep := by
        have hpos := hplanned.hashPosFile_eq hu hw.headerIndex (fun hash hnot =>
          (hw.blockPos hash).trans (if_neg fun hin => hnot (mem_writes_removeBlockPos.mp hin)))
          hplanned.le_ceiling
        rw [← hplanned.keepFile]
        unfold keepFile BlockStore.currentFileNum
        rw [hpos, hw.currentFile]
      rw [fileNums, hfiles, hkeep]
      refine (hs.stop (hleft.symm.trans (by rw [hplanned.files]))).imp_right
        fun hall num hnum keep' hk => ?_
      obtain rfl := Option.some.inj hk
      obtain ⟨f, hf, rfl⟩ := mem_map.mp hnum
      exact hall f hf

end Pass

/-! ## The stores an interruption leaves -/

section Interrupted

variable {s : Storage} {ceiling target keep k : Nat} {plan : PrunePlan}

/-- The index writes of a plan, two for each block. -/
def PrunePlan.indexWrites (plan : PrunePlan) : List PruneWrite :=
  plan.removed.flatMap fun hash => [.removeBlockPos hash, .deleteUndo hash]

theorem length_indexWrites (plan : PrunePlan) :
    plan.indexWrites.length = 2 * plan.removed.length := by
  simp [PrunePlan.indexWrites, mul_comm]

/-- The files gone after `n` writes: none before the bookkeeping. -/
def PrunePlan.deleted (plan : PrunePlan) (n : Nat) : List Nat :=
  (plan.files.take (n - (2 * plan.removed.length + 1))).map Prod.fst

/-- Up to the bookkeeping, a prefix of the index writes. -/
theorem take_writes_of_le {n : Nat} (h : n ≤ 2 * plan.removed.length) :
    plan.writes.take n = plan.indexWrites.take n := by
  exact take_append_of_le_length (length_indexWrites plan ▸ h)

/-- From the bookkeeping on, all index writes and a prefix of the deletions. -/
theorem take_writes_of_lt {n : Nat} (h : 2 * plan.removed.length < n) :
    plan.writes.take n = plan.indexWrites ++ .setPrunedHeight plan.prunedHeight
      :: (plan.files.take (n - (2 * plan.removed.length + 1))).map
        fun f => .deleteBlockFile f.1 := by
  show (plan.indexWrites ++ _ :: _).take n = _
  rw [take_append, length_indexWrites, take_of_length_le (by rw [length_indexWrites]; omega),
    show n - 2 * plan.removed.length = n - (2 * plan.removed.length + 1) + 1 by omega,
    take_succ_cons, map_take]

theorem mem_take_deleteBlockFile {n num : Nat} :
    .deleteBlockFile num ∈ plan.writes.take n ↔ num ∈ plan.deleted n := by
  unfold PrunePlan.deleted
  by_cases h : n ≤ 2 * plan.removed.length
  · rw [take_writes_of_le h, show n - (2 * plan.removed.length + 1) = 0 by omega]
    refine iff_of_false (fun hin => ?_) (by simp)
    have hall := mem_of_mem_take hin
    simp [PrunePlan.indexWrites] at hall
  · rw [take_writes_of_lt (not_le.mp h)]
    generalize plan.files.take (n - (2 * plan.removed.length + 1)) = gone
    simp [PrunePlan.indexWrites]

section

variable (h : s.Planned ceiling target plan keep k)
include h

section

variable (hs : s.Filed)
include hs

/-- **What an interrupted pass leaves.** -/
theorem Planned.written_interrupted (n : Nat) :
    Written (plan.writes.take n) s (s.interrupted plan n) := by
  obtain ⟨hdelete, hnodup⟩ := h.deletable hs
  obtain ⟨-, -, hw⟩ := @written_applyWrites s (plan.writes.take n) 0
    (fun num hnum => hdelete num (mem_of_mem_take hnum))
    (hnodup.sublist (take_sublist _ _))
  exact hw

/-- The files left, once the stores are opened again. -/
theorem Planned.files_interrupted (n : Nat) :
    (s.interrupted plan n).reopen.blockStore.files
      = s.blockStore.files.filter fun f => decide (f.1 ∉ plan.deleted n) := by
  rw [files_reopen, (h.written_interrupted hs n).files]
  exact filter_congr fun f _ => decide_eq_decide.mpr (not_congr mem_take_deleteBlockFile)

theorem Planned.mem_fileNums_interrupted {n num : Nat} :
    num ∈ (s.interrupted plan n).reopen.fileNums
      ↔ num ∈ s.fileNums ∧ num ∉ plan.deleted n := by
  unfold fileNums
  rw [h.files_interrupted hs]
  constructor
  · intro hnum
    obtain ⟨f, hf, rfl⟩ := mem_map.mp hnum
    obtain ⟨hmem, hnot⟩ := mem_filter.mp hf
    exact ⟨mem_map_of_mem hmem, of_decide_eq_true hnot⟩
  · rintro ⟨hnum, hnot⟩
    obtain ⟨f, hf, rfl⟩ := mem_map.mp hnum
    exact mem_map_of_mem (mem_filter.mpr ⟨hf, decide_eq_true hnot⟩)

theorem Planned.filed_interrupted (n : Nat) : (s.interrupted plan n).reopen.Filed := by
  have hsorted : (s.interrupted plan n).blockStore.files.Pairwise fun f g => f.1 < g.1 := by
    rw [(h.written_interrupted hs n).files]
    exact hs.sorted.filter _
  refine ⟨by rw [files_reopen]; exact hsorted, fun num hnum => ?_⟩
  rw [fileNums, files_reopen] at hnum
  obtain ⟨f, hf, rfl⟩ := mem_map.mp hnum
  exact le_currentFile_open hsorted hf

theorem Planned.namedOnce_interrupted (hu : s.NamedOnce) (n : Nat) :
    (s.interrupted plan n).reopen.NamedOnce := by
  have hat : ∀ height, (s.interrupted plan n).reopen.index.getHashAtHeight height
      = s.index.getHashAtHeight height := fun height =>
    congrArg (fun ix : HeaderIndex => ix.getHashAtHeight height)
      (h.written_interrupted hs n).headerIndex
  intro low high hash hlow hhigh
  exact hu low high hash ((hat low).symm.trans hlow) ((hat high).symm.trans hhigh)

/-- Above the heights gone through, every block is where it was. -/
theorem Planned.hashPosFile_interrupted (hu : s.NamedOnce) (n : Nat) {height : Nat}
    (hhigh : s.pruneStart + k ≤ height) :
    (s.interrupted plan n).reopen.index.hashPosFile height = s.index.hashPosFile height := by
  have hw := h.written_interrupted hs n
  refine h.hashPosFile_eq hu hw.headerIndex (fun hash hnot => ?_) hhigh
  refine (hw.blockPos hash).trans (if_neg fun hin => hnot ?_)
  exact mem_writes_removeBlockPos.mp (mem_of_mem_take hin)

/-- A file that is left is newer than those deleted. -/
theorem Planned.lt_of_mem_files {gone : List (Nat × Nat)} (hgone : gone <+: plan.files)
    {num old : Nat} (hnum : num ∈ s.fileNums) (hnot : num ∉ gone.map Prod.fst)
    (hold : old ∈ gone.map Prod.fst) : old < num := by
  obtain ⟨left, hleft⟩ := hgone.trans h.files_prefix
  have hsorted := hs.sorted
  rw [← hleft] at hsorted
  rw [fileNums, ← hleft, map_append, mem_append, or_iff_right hnot] at hnum
  obtain ⟨f, hf, rfl⟩ := mem_map.mp hnum
  obtain ⟨g, hg, rfl⟩ := mem_map.mp hold
  exact (pairwise_append.mp hsorted).2.2 g hg f hf

end

/-- The bound of a pass with no lower ceiling is where it was. -/
theorem Planned.keepFile_interrupted (hs : s.InHeightOrder) (n : Nat) {ceiling' : Nat}
    (hle : ceiling ≤ ceiling') :
    (s.interrupted plan n).reopen.keepFile ceiling' = s.keepFile ceiling' := by
  have hpos := h.hashPosFile_interrupted hs.toFiled hs.unique n
    (show s.pruneStart + k ≤ ceiling' + 1 from h.le_ceiling.trans (by omega))
  rw [hs.keepFile_eq]
  unfold Storage.keepFile BlockStore.currentFileNum
  rw [hpos]
  cases hnum : s.index.hashPosFile (ceiling' + 1) with
  | none => rfl
  | some num =>
    rw [Option.map_some, min_eq_left]
    -- its file is not below the first file to stay, so that it is still there
    have hkeep : s.index.hashPosFile (ceiling + 1) = some keep :=
      (hs.keepFile_eq ceiling).symm.trans h.keepFile
    have hge := hs.mono _ _ keep num hkeep hnum (by omega)
    obtain ⟨hash, pos, -, hblock, rfl⟩ := hashPosFile_eq_some.mp hnum
    refine (h.filed_interrupted hs.toFiled n).le_current _
      ((h.mem_fileNums_interrupted hs.toFiled).mpr ⟨hs.listed hash pos hblock, fun hin => ?_⟩)
    have hlt := h.lt_keep (((List.take_prefix _ _).map Prod.fst).subset hin)
    omega

/-- **A file is doomed after the interruption if it was before and is still
there.** -/
theorem Planned.doomed_interrupted (hs : s.InHeightOrder) (n : Nat) {ceiling' num : Nat}
    (hle : ceiling ≤ ceiling') :
    (s.interrupted plan n).reopen.Doomed ceiling' target num
      ↔ s.Doomed ceiling' target num ∧ num ∉ plan.deleted n := by
  unfold Doomed
  simp only [h.keepFile_interrupted hs n hle, h.mem_fileNums_interrupted hs.toFiled]
  have hsize : num ∈ s.fileNums → num ∉ plan.deleted n →
      ((s.interrupted plan n).reopen.blockStore.files.filter fun f => decide (num ≤ f.1))
        = s.blockStore.files.filter fun f => decide (num ≤ f.1) := by
    intro hnum hnot
    rw [h.files_interrupted hs.toFiled, filter_filter]
    refine filter_congr fun f _ => ?_
    by_cases hge : num ≤ f.1
    · have hleft : f.1 ∉ plan.deleted n := fun hin =>
        absurd (h.lt_of_mem_files hs.toFiled (List.take_prefix _ _) hnum hnot hin) (not_lt.mpr hge)
      rw [decide_eq_true hge, decide_eq_true hleft]
      rfl
    · rw [decide_eq_false hge]
      rfl
  constructor
  · rintro ⟨keep', hkeep, hlt, ⟨hnum, hnot⟩, htotal⟩
    rw [hsize hnum hnot] at htotal
    exact ⟨⟨keep', hkeep, hlt, hnum, htotal⟩, hnot⟩
  · rintro ⟨⟨keep', hkeep, hlt, hnum, htotal⟩, hnot⟩
    rw [← hsize hnum hnot] at htotal
    exact ⟨keep', hkeep, hlt, ⟨hnum, hnot⟩, htotal⟩

/-- The block just above the pruned height is in a file that stays. -/
theorem Planned.not_mem_files (hs : s.InHeightOrder) {num : Nat}
    (hnum : s.index.hashPosFile (plan.prunedHeight + 1) = some num) :
    num ∉ plan.files.map Prod.fst := by
  have hle := h.gone.le
  by_cases hk : k = 0
  · -- the first pass, stopped by the first block
    have hzero := h.start_eq_zero hk
    have hstop := h.gone.stop (by omega)
    unfold Clear at hstop
    push Not at hstop
    obtain ⟨first, hfirst, hnot⟩ := hstop
    have hmono := hs.mono _ _ first num hfirst hnum (by omega)
    obtain ⟨hash, pos, -, hblock, rfl⟩ := hashPosFile_eq_some.mp hfirst
    intro hin
    have hlt := h.lt_of_mem_files hs.toFiled prefix_rfl (hs.listed hash pos hblock) hnot hin
    omega
  · have hnext : plan.prunedHeight + 1 = s.pruneStart + k := by
      rw [h.prunedHeight, if_neg hk]
      omega
    rw [hnext] at hnum
    by_cases hend : k < ceiling + 1 - s.pruneStart
    · intro hin
      refine h.gone.stop hend fun num' hnum' => ?_
      rwa [Option.mem_unique hnum' hnum]
    · rw [show s.pruneStart + k = ceiling + 1 by omega, ← hs.keepFile_eq, h.keepFile] at hnum
      obtain rfl := Option.some.inj hnum
      exact fun hin => lt_irrefl _ (h.lt_keep hin)

end

end Interrupted

/-- **When an interrupted pass can be taken up again**, with the same target and
no lower ceiling: if it was interrupted before the bookkeeping, if nothing is
left to delete, or if the block just above the recorded pruned height is itself
in a file that is to go. -/
theorem restarts_iff {s : Storage} (hs : s.InHeightOrder) {ρ : IterOrder Nat}
    {ceiling target : Nat} {plan : PrunePlan}
    (hplan : s.prunePlan ρ ceiling target = .ok (some plan)) (n : Nat) {ceiling' : Nat}
    (hle : ceiling ≤ ceiling') :
    (s.interrupted plan n).reopen.Restarts ceiling' target ↔
      n ≤ 2 * plan.removed.length
        ∨ (∀ num, s.Doomed ceiling' target num → num ∈ plan.deleted n)
        ∨ (plan.prunedHeight < ceiling' ∧ ∀ num,
          s.index.hashPosFile (plan.prunedHeight + 1) = some num →
            s.Doomed ceiling' target num) := by
  obtain ⟨keep, k, hplanned, hahead⟩ : ∃ keep k, s.Planned ceiling target plan keep k
      ∧ s.GoesAhead ceiling target := by
    rcases prunePlan_cases ρ hs.toFiled ceiling target with
      ⟨hnone, -⟩ | ⟨e, herror, -⟩ | ⟨plan', keep, k, hsome, hplanned, hahead⟩
    · cases hplan.symm.trans hnone
    · cases hplan.symm.trans herror
    · obtain rfl := Option.some.inj (Except.ok.inj (hplan.symm.trans hsome))
      exact ⟨keep, k, hplanned, hahead⟩
  have hw := hplanned.written_interrupted hs.toFiled n
  have hdoomed := fun num => @Planned.doomed_interrupted s ceiling target keep k plan hplanned hs n
    ceiling' num hle
  rw [(hplanned.filed_interrupted hs.toFiled n).restarts_iff_goesAhead
    (hplanned.namedOnce_interrupted hs.toFiled hs.unique n)]
  by_cases hn : n ≤ 2 * plan.removed.length
  · -- the pruned height is the old one, and what was doomed still is
    refine iff_of_true ?_ (Or.inl hn)
    have hpruned : (s.interrupted plan n).reopen.index.prunedHeight = s.index.prunedHeight := by
      refine hw.prunedHeight.trans (prunedAfter_eq fun height hin => ?_)
      rw [take_writes_of_le hn] at hin
      have hall := mem_of_mem_take hin
      simp [PrunePlan.indexWrites] at hall
    have hstart : (s.interrupted plan n).reopen.pruneStart = s.pruneStart := by
      unfold pruneStart
      rw [hpruned]
    by_cases hsome : ∃ keep', s.keepFile ceiling' = some keep'
    · refine Or.inr (hahead.imp (fun hnone => hpruned.trans hnone) ?_)
      rintro ⟨hstartle, hclear⟩
      obtain ⟨keep', hkeep'⟩ := hsome
      rw [hstart]
      refine ⟨hstartle.trans hle, fun num hnum => (hdoomed num).mpr ?_⟩
      -- the position was there before
      obtain ⟨hash, pos, hat, hpos, rfl⟩ := hashPosFile_eq_some.mp hnum
      have hold : s.index.hashPosFile s.pruneStart = some pos.fileNum := by
        refine hashPosFile_eq_some.mpr ⟨hash, pos, ?_, ?_, rfl⟩
        · exact (congrArg (fun ix : HeaderIndex => ix.getHashAtHeight s.pruneStart)
            hw.headerIndex).symm.trans hat
        · have hkept := (hw.blockPos hash).symm.trans hpos
          split at hkept
          · cases hkept
          · exact hkept
      obtain ⟨keep₁, hkeep₁, hlt, hnum', htotal⟩ := hclear _ hold
      refine ⟨⟨keep', hkeep', ?_, hnum', htotal⟩, fun hin => ?_⟩
      · rw [hs.keepFile_eq] at hkeep' hkeep₁
        exact lt_of_lt_of_le hlt (hs.mono _ _ _ _ hkeep₁ hkeep' (by omega))
      · rw [PrunePlan.deleted, show n - (2 * plan.removed.length + 1) = 0 by omega] at hin
        cases hin
    · refine Or.inl fun num hnum => hsome ?_
      obtain ⟨⟨keep', hkeep', -⟩, -⟩ := (hdoomed num).mp hnum
      exact ⟨keep', hkeep'⟩
  · have hpruned : (s.interrupted plan n).reopen.index.prunedHeight = some plan.prunedHeight := by
      refine hw.prunedHeight.trans ?_
      rw [take_writes_of_lt (not_le.mp hn), prunedAfter_append]
      show prunedAfter (some plan.prunedHeight) _ = _
      refine prunedAfter_eq fun height hin => ?_
      obtain ⟨f, -, heq⟩ := mem_map.mp hin
      cases heq
    have hstart : (s.interrupted plan n).reopen.pruneStart = plan.prunedHeight + 1 := by
      unfold pruneStart
      rw [hpruned]
    have hhigh : s.pruneStart + k ≤ plan.prunedHeight + 1 := by
      rw [hplanned.prunedHeight]
      split <;> omega
    rw [or_iff_right hn]
    refine or_congr ?_ ?_
    · refine forall_congr' fun num => ?_
      rw [hdoomed num, not_and, not_not]
    · unfold GoesAhead ClearAt
      rw [hpruned, hstart, hplanned.hashPosFile_interrupted hs.toFiled hs.unique n hhigh,
        or_iff_right (by simp)]
      refine and_congr succ_le_iff (forall₂_congr fun num hnum => ?_)
      rw [hdoomed num]
      refine and_iff_left fun hin => hplanned.not_mem_files hs hnum ?_
      exact ((List.take_prefix _ _).map Prod.fst).subset hin

/-- Every interrupted pass over files in height order can be taken up again. -/
def InterruptedPassesRestart : Prop :=
  ∀ (ρ : IterOrder Nat) (s : Storage) (ceiling target ceiling' n : Nat) (plan : PrunePlan),
    s.InHeightOrder → s.prunePlan ρ ceiling target = .ok (some plan) → ceiling ≤ ceiling' →
      (s.interrupted plan n).reopen.Restarts ceiling' target

/-- **Connecting above everything stored keeps the height order.** -/
theorem InHeightOrder.storeConnected {s : Storage} (h : s.InHeightOrder) {hash : Hash}
    {height : Nat} (len : Nat) (utxoSet : UtxoSet)
    (hnew : ∀ h, s.index.getHashAtHeight h ≠ some hash)
    (htop : ∀ h, height ≤ h → s.index.getHashAtHeight h = none) :
    (s.storeConnected hash len height utxoSet).InHeightOrder := by
  have hlocated := h.toLocated.storeConnected hash len height utxoSet
  generalize hs' : s.storeConnected hash len height utxoSet = s' at hlocated
  have hat : ∀ i, s'.index.getHashAtHeight i
      = if i = height then some hash else s.index.getHashAtHeight i := fun i => by
    rw [← hs']
    exact Function.update_apply _ _ _ _
  have hfile : ∀ i num, s'.index.hashPosFile i = some num →
      (i = height ∧ num = s'.blockStore.currentFile)
        ∨ (i < height ∧ s.index.hashPosFile i = some num) := by
    intro i num hnum
    obtain ⟨hash', pos, hati, hpos, rfl⟩ := hashPosFile_eq_some.mp hnum
    rw [hat] at hati
    split at hati
    · rename_i heq
      obtain rfl := Option.some.inj hati
      refine Or.inl ⟨heq, ?_⟩
      rw [← hs'] at hpos ⊢
      rcases PartialMap.update_eq_some.mp hpos with ⟨-, hnew⟩ | ⟨hne, -⟩
      · exact Option.some.inj hnew ▸ rfl
      · exact absurd rfl hne
    · have hlt : i < height := by
        by_contra hge
        rw [htop i (not_lt.mp hge)] at hati
        cases hati
      have hne : hash' ≠ hash := fun heq => hnew i (heq ▸ hati)
      refine Or.inr ⟨hlt, hashPosFile_eq_some.mpr ⟨hash', pos, hati, ?_, rfl⟩⟩
      rw [← hs'] at hpos
      exact (Function.update_of_ne hne _ _).symm.trans hpos
  refine ⟨hlocated, fun low high num num' hnum hnum' hle => ?_, fun low high hash' hlow hhigh => ?_⟩
  · rcases hfile high num' hnum' with ⟨-, rfl⟩ | ⟨hlt', hold'⟩
    · exact hlocated.hashPosFile_le hnum
    · rcases hfile low num hnum with ⟨rfl, -⟩ | ⟨-, hold⟩
      · omega
      · exact h.mono low high num num' hold hold' hle
  · rw [hat] at hlow hhigh
    split at hlow <;> split at hhigh
    · rename_i heq heq'
      exact heq.trans heq'.symm
    · exact absurd (Option.some.inj hlow ▸ hhigh) (hnew high)
    · exact absurd (Option.some.inj hhigh ▸ hlow) (hnew low)
    · exact h.unique low high hash' hlow hhigh

/-- Blocks at heights 0 to `n - 1`, connected in order, each in a file of its
own. -/
def filledStorage : Nat → Storage
  | 0 => fresh 100 HeaderIndex.empty (UtxoSet.openDb UtxoDb.empty 0 0)
  | n + 1 => (filledStorage n).storeConnected (BitVec.ofNat 256 (n + 1)) 60 n
      (UtxoSet.openDb UtxoDb.empty 0 0)

theorem getHashAtHeight_filledStorage {n height : Nat} {hash : Hash}
    (h : (filledStorage n).index.getHashAtHeight height = some hash) :
    height < n ∧ hash = BitVec.ofNat 256 (height + 1) := by
  induction n with
  | zero => cases h
  | succ n ih =>
    rcases PartialMap.update_eq_some.mp h with ⟨rfl, hnew⟩ | ⟨-, hold⟩
    · exact ⟨lt_succ_self _, (Option.some.inj hnew).symm⟩
    · obtain ⟨hlt, hhash⟩ := ih hold
      exact ⟨by omega, hhash⟩

theorem inHeightOrder_filledStorage {n : Nat} (hn : n < 2 ^ 256) :
    (filledStorage n).InHeightOrder := by
  induction n with
  | zero =>
    exact ⟨located_fresh _ _ _, fun _ _ _ _ hnum => (by cases hnum),
      fun _ _ _ hat => (by cases hat)⟩
  | succ n ih =>
    refine (ih (by omega)).storeConnected 60 _ (fun h hat => ?_) fun h hle => ?_
    · obtain ⟨hlt, hhash⟩ := getHashAtHeight_filledStorage hat
      have hnat := congrArg BitVec.toNat hhash
      simp only [BitVec.toNat_ofNat] at hnat
      omega
    · by_contra hsome
      obtain ⟨hash, hhash⟩ := Option.ne_none_iff_exists'.mp hsome
      have hlt := (getHashAtHeight_filledStorage hhash).1
      omega

/-- Everything up to height 3 of six blocks goes. -/
def filledPlan : PrunePlan :=
  ⟨[1#256, 2#256, 3#256, 4#256], 3, [(0, 64), (1, 64), (2, 64), (3, 64)]⟩

theorem prunePlan_filledStorage :
    (filledStorage 6).prunePlan IterOrder.id 3 0 = .ok (some filledPlan) := by decide

/-- The pass is taken up again after two of the four positions are gone. -/
theorem restarts_filledStorage :
    ((filledStorage 6).interrupted filledPlan 4).reopen.Restarts 3 0 :=
  (restarts_iff (inHeightOrder_filledStorage (by decide)) prunePlan_filledStorage 4
    (le_refl 3)).mpr (Or.inl (by decide))

/-- **Interrupted after the bookkeeping, a pass is refused**: the positions up to
height 3 are gone and height 3 is recorded, files 0 to 3 are still there, and a
pass with the same ceiling finds no indexed block in them. -/
theorem not_interruptedPassesRestart : ¬ InterruptedPassesRestart := by
  intro h
  obtain ⟨⟨report, hok⟩, -⟩ := h IterOrder.id (filledStorage 6) 3 0 3 9 filledPlan
    (inHeightOrder_filledStorage (by decide)) prunePlan_filledStorage (le_refl 3) IterOrder.id
  have hrefused : (((filledStorage 6).interrupted filledPlan 9).reopen.pruneBlockFiles IterOrder.id
      3 0).1.toOption = none := by decide
  rw [hok] at hrefused
  cases hrefused

end Storage
