import BitcoinPR.Lib.Checked
import BitcoinPR.Storage.BlockStore

/-!
# What a pruning pass loses

A pass chooses the files to delete by number and the positions to clean up by
height. The two choices fit together as long as file numbers grow with height,
which the code takes for granted: blocks are stored when they are connected,
one above the other. Three things break it. A block that is stored again – it
was found damaged, or its branch was left and taken up again – moves to the
newest file, so that a later block may be in an older file; the clean-up stops
at it, and as the first block to keep it lets files go that hold higher
blocks. A block of a branch that was left keeps its position, but no height
names it any more.

`PruneSafe` says what a pass must not do, `PassOrdered` what the store has to
look like for it: every block in a file that is about to go is named at an
unpruned height, not above the ceiling, and up to every height that names it no
block is in a file that stays. `pruneSafe_iff` shows the two equivalent, in
every store whose positions point into files that are there – which every safe
pass keeps that way, so that over whole runs all passes are safe exactly if
each of them finds the store in order (`passesSafe_iff`).
-/

open List BlockStore Nat Prod Option

namespace Storage

/-! ## The files that go -/

/-- The numbers of the files. -/
def fileNums (s : Storage) : List Nat := s.blockStore.files.map fst

/-- **A doomed file**: older than the first file to stay, while the files from
it on exceed the target. -/
def Doomed (s : Storage) (ceiling target num : Nat) : Prop :=
  ∃ keep, s.keepFile ceiling = some keep ∧ num < keep ∧ num ∈ s.fileNums
    ∧ target < Shed.total snd (s.blockStore.files.filter fun f => decide (num ≤ f.1))

/-- The files are listed in ascending order, and the current one is not below
any of them. -/
structure Filed (s : Storage) : Prop where
  sorted : s.blockStore.files.Pairwise fun f g => f.1 < g.1
  le_current : ∀ num ∈ s.fileNums, num ≤ s.blockStore.currentFile

variable {s : Storage}

/-- The files a pass selects are the doomed ones. -/
theorem Filed.mem_shed_iff (h : s.Filed) {ceiling target keep num : Nat}
    (hkeep : s.keepFile ceiling = some keep) :
    num ∈ (Shed.shed snd (fun f => decide (f.1 < keep)) target s.blockStore.files).map
        fst
      ↔ s.Doomed ceiling target num := by
  have hmay : ∀ f g : Nat × Nat, f.1 ≤ g.1 → decide (g.1 < keep) = true →
      decide (f.1 < keep) = true :=
    fun f g hle hg => decide_eq_true (lt_of_le_of_lt hle (of_decide_eq_true hg))
  constructor
  · intro hnum
    obtain ⟨f, hf, rfl⟩ := mem_map.mp hnum
    have hfile := (Shed.shed_prefix _).subset hf
    obtain ⟨hlt, hbudget⟩ := (Shed.mem_shed_iff h.sorted hmay hfile).mp hf
    exact ⟨keep, hkeep, of_decide_eq_true hlt, mem_map_of_mem hfile, hbudget⟩
  · rintro ⟨keep', hkeep', hlt, hnum, hbudget⟩
    obtain rfl := mem_unique hkeep hkeep'
    obtain ⟨f, hf, rfl⟩ := mem_map.mp hnum
    exact mem_map_of_mem ((Shed.mem_shed_iff h.sorted hmay hf).mpr ⟨decide_eq_true hlt, hbudget⟩)

/-! ## The heights a pass goes through -/

variable {ix : BlockIndex}

/-- The block at a height is in one of the files, or not stored at all. -/
def Clear (doomed : List Nat) (ix : BlockIndex) (height : Nat) : Prop :=
  ∀ num, ix.hashPosFile height = some num → num ∈ doomed

theorem hashPosFile_eq_some {height num : Nat} :
    ix.hashPosFile height = some num ↔
      ∃ hash pos, ix.getHashAtHeight height = some hash ∧ ix.blockPos hash = some pos
        ∧ pos.fileNum = num := by
  unfold BlockIndex.hashPosFile BlockIndex.getBlockPos
  cases ix.getHashAtHeight height <;> simp

variable {doomed : List Nat}

/-- Removing a position in one of the files changes nothing about what is
clear. -/
theorem clear_removeBlockPos {hash : Hash} {pos : BlockPos}
    (hpos : ix.blockPos hash = some pos) (hmem : pos.fileNum ∈ doomed) (height : Nat) :
    Clear doomed (ix.removeBlockPos hash) height ↔ Clear doomed ix height := by
  constructor
  · intro h num hnum
    obtain ⟨hash', pos', hat, hpos', rfl⟩ := hashPosFile_eq_some.mp hnum
    by_cases heq : hash' = hash
    · subst heq
      rwa [mem_unique hpos' hpos]
    · exact h _ (hashPosFile_eq_some.mpr ⟨hash', pos', hat,
        PartialMap.update_eq_some.mpr (Or.inr ⟨heq, hpos'⟩), rfl⟩)
  · intro h num hnum
    obtain ⟨hash', pos', hat, hpos', rfl⟩ := hashPosFile_eq_some.mp hnum
    rcases PartialMap.update_eq_some.mp hpos' with ⟨-, hnone⟩ | ⟨-, hold⟩
    · cases hnone
    · exact h _ (hashPosFile_eq_some.mpr ⟨hash', pos', hat, hold, rfl⟩)

/-- What went through `k` heights: they are clear, the next one is not unless
the range ends there, and the blocks removed are those of these heights that
are in the files. -/
structure GoneThrough (doomed : List Nat) (ix : BlockIndex) (n height k : Nat)
    (removed : List Hash) : Prop where
  le : k ≤ n
  clear : ∀ h, height ≤ h → h < height + k → Clear doomed ix h
  stop : k < n → ¬ Clear doomed ix (height + k)
  mem_removed : ∀ hash, hash ∈ removed ↔ ∃ h, height ≤ h ∧ h < height + k
    ∧ ix.getHashAtHeight h = some hash ∧ ∃ pos, ix.blockPos hash = some pos
    ∧ pos.fileNum ∈ doomed

/-- A height without a stored block is gone through, and nothing is removed. -/
theorem GoneThrough.skip {n height k : Nat}
    {removed : List Hash} (h : GoneThrough doomed ix n (height + 1) k removed)
    (hnone : ix.hashPosFile height = none) :
    GoneThrough doomed ix (n + 1) height (k + 1) removed := by
  have hclear : Clear doomed ix height := fun num hnum => by
    rw [hnone] at hnum
    cases hnum
  refine ⟨succ_le_succ h.le, fun i hle hlt => ?_, fun hlt => ?_, fun hash => ?_⟩
  · rcases eq_or_lt_of_le hle with rfl | hgt
    · exact hclear
    · exact h.clear i hgt (by omega)
  · rw [show height + (k + 1) = height + 1 + k by omega]
    exact h.stop (lt_of_succ_lt_succ hlt)
  · rw [h.mem_removed]
    constructor
    · rintro ⟨i, hle, hlt, hrest⟩
      exact ⟨i, by omega, by omega, hrest⟩
    · rintro ⟨i, hle, hlt, hat, pos, hpos, hmem⟩
      rcases eq_or_lt_of_le hle with rfl | hgt
      · cases hnone.symm.trans (hashPosFile_eq_some.mpr ⟨hash, pos, hat, hpos, rfl⟩)
      · exact ⟨i, hgt, by omega, hat, pos, hpos, hmem⟩

/-- A block in one of the files is removed. -/
theorem GoneThrough.remove {n height k : Nat} {removed : List Hash} {hash : Hash} {pos : BlockPos}
    (h : GoneThrough doomed (ix.removeBlockPos hash) n (height + 1) k removed)
    (hat : ix.getHashAtHeight height = some hash) (hpos : ix.blockPos hash = some pos)
    (hmem : pos.fileNum ∈ doomed) :
    GoneThrough doomed ix (n + 1) height (k + 1) (hash :: removed) := by
  refine ⟨succ_le_succ h.le, fun i hle hlt => ?_, fun hlt => ?_, fun other => ?_⟩
  · rcases eq_or_lt_of_le hle with rfl | hgt
    · intro num hnum
      obtain ⟨hash', pos', hat', hpos', rfl⟩ := hashPosFile_eq_some.mp hnum
      obtain rfl := mem_unique hat hat'
      rwa [mem_unique hpos' hpos]
    · exact (clear_removeBlockPos hpos hmem i).mp (h.clear i hgt (by omega))
  · rw [show height + (k + 1) = height + 1 + k by omega, ← clear_removeBlockPos hpos hmem]
    exact h.stop (lt_of_succ_lt_succ hlt)
  · rw [mem_cons, h.mem_removed]
    constructor
    · rintro (rfl | ⟨i, hle, hlt, hati, pos', hpos', hmem'⟩)
      · exact ⟨height, le_refl _, by omega, hat, pos, hpos, hmem⟩
      · rcases PartialMap.update_eq_some.mp hpos' with ⟨-, hnone⟩ | ⟨-, hold⟩
        · cases hnone
        · exact ⟨i, by omega, by omega, hati, pos', hold, hmem'⟩
    · rintro ⟨i, hle, hlt, hati, pos', hpos', hmem'⟩
      by_cases heq : other = hash
      · exact Or.inl heq
      · refine Or.inr ⟨i, ?_, by omega, hati, pos',
          (Function.update_of_ne heq _ _).trans hpos', hmem'⟩
        rcases eq_or_lt_of_le hle with rfl | hgt
        · exact absurd (mem_unique hati hat) heq
        · exact hgt

/-- Before anything is gone through. -/
theorem goneThrough_zero {n height : Nat}
    (hstop : 0 < n → ¬ Clear doomed ix height) : GoneThrough doomed ix n height 0 [] := by
  refine ⟨zero_le _, fun h hle hlt => by omega, hstop, fun hash => ?_⟩
  refine iff_of_false not_mem_nil ?_
  rintro ⟨h, hle, hlt, -⟩
  omega

/-- **How far the loop over the heights goes**, and what it removes. -/
theorem goneThrough_pruneHeights (doomed : List Nat) (n height pruned : Nat) (ix : BlockIndex) :
    ∃ k, GoneThrough doomed ix n height k (pruneHeights doomed n height pruned ix).1
      ∧ (pruneHeights doomed n height pruned ix).2
        = if k = 0 then pruned else height + k - 1 := by
  have hnext : ∀ height pruned k, (if k = 0 then height else height + 1 + k - 1)
      = if k + 1 = 0 then pruned else height + (k + 1) - 1 := by
    intro height pruned k
    rw [if_neg (succ_ne_zero k)]
    split <;> omega
  induction n generalizing height pruned ix with
  | zero => exact ⟨0, goneThrough_zero fun h => absurd h (lt_irrefl _), rfl⟩
  | succ n ih =>
    rw [pruneHeights]
    cases hat : ix.getHashAtHeight height with
    | none =>
      obtain ⟨k, hgone, hlast⟩ := ih (height + 1) height ix
      refine ⟨k + 1, hgone.skip ?_, hlast.trans (hnext height pruned k)⟩
      simp only [BlockIndex.hashPosFile, hat]
    | some hash =>
      simp only
      cases hpos : ix.getBlockPos hash with
      | none =>
        obtain ⟨k, hgone, hlast⟩ := ih (height + 1) height ix
        refine ⟨k + 1, hgone.skip ?_, hlast.trans (hnext height pruned k)⟩
        simp only [BlockIndex.hashPosFile, hat, hpos, map_none]
      | some pos =>
        simp only
        split
        · rename_i hmem
          obtain ⟨k, hgone, hlast⟩ := ih (height + 1) height (ix.removeBlockPos hash)
          exact ⟨k + 1, hgone.remove hat hpos hmem, hlast.trans (hnext height pruned k)⟩
        · rename_i hmem
          exact ⟨0, goneThrough_zero fun _ hclear =>
            hmem (hclear _ (hashPosFile_eq_some.mpr ⟨hash, pos, hat, hpos, rfl⟩)), rfl⟩

/-! ## The writes -/

/-- The pruned height after some writes. -/
def prunedAfter : Option Nat → List PruneWrite → Option Nat
  | pruned, [] => pruned
  | _, .setPrunedHeight height :: ws => prunedAfter (some height) ws
  | pruned, .removeBlockPos _ :: ws => prunedAfter pruned ws
  | pruned, .deleteUndo _ :: ws => prunedAfter pruned ws
  | pruned, .deleteBlockFile _ :: ws => prunedAfter pruned ws

/-- **What writes leave**, as far as blocks and files go. -/
structure Written (ws : List PruneWrite) (s s' : Storage) : Prop where
  headerIndex : s'.index.headerIndex = s.index.headerIndex
  blockPos : ∀ hash, s'.index.blockPos hash
    = if .removeBlockPos hash ∈ ws then none else s.index.blockPos hash
  prunedHeight : s'.index.prunedHeight = prunedAfter s.index.prunedHeight ws
  files : s'.blockStore.files
    = s.blockStore.files.filter fun f => decide (.deleteBlockFile f.1 ∉ ws)
  currentFile : s'.blockStore.currentFile = s.blockStore.currentFile
  maxFileSize : s'.blockStore.maxFileSize = s.blockStore.maxFileSize

/-- A write can fail only if it deletes a file. -/
theorem exists_applyWrite {w : PruneWrite} (h : ∀ num, w = .deleteBlockFile num →
      num < s.blockStore.currentFile ∧ num ∈ s.fileNums) :
    ∃ size s', s.applyWrite w = .ok (size, s') := by
  cases w with
  | removeBlockPos hash => exact ⟨0, _, rfl⟩
  | deleteUndo hash => exact ⟨0, _, rfl⟩
  | setPrunedHeight height => exact ⟨0, _, rfl⟩
  | deleteBlockFile num =>
    obtain ⟨hlt, hmem⟩ := h num rfl
    obtain ⟨f, hf, hnum⟩ := mem_map.mp hmem
    obtain ⟨size, hsize⟩ := isSome_iff_exists.mp
      (lookup_isSome_iff.mpr ⟨f, hf, beq_iff_eq.mpr hnum.symm⟩)
    refine ⟨size, { s with blockStore := { s.blockStore with
      files := s.blockStore.files.filter fun f => f.1 != num } }, ?_⟩
    simp only [applyWrite, deleteBlockFile]
    rw [if_neg (not_le.mpr hlt), hsize]
    rfl

theorem written_applyWrite {s s' : Storage} {w : PruneWrite} {size : Nat}
    (h : s.applyWrite w = .ok (size, s')) : Written [w] s s' := by
  cases w with
  | removeBlockPos hash =>
    obtain ⟨-, rfl⟩ := Prod.mk.inj (Except.ok.inj h)
    refine ⟨rfl, fun hash' => ?_, rfl, by simp, rfl, rfl⟩
    show Function.update s.index.blockPos hash none hash' = _
    rw [Function.update_apply]
    exact if_congr (by simp) rfl rfl
  | deleteUndo hash =>
    obtain ⟨-, rfl⟩ := Prod.mk.inj (Except.ok.inj h)
    exact ⟨rfl, fun hash' => by simp, rfl, by simp, rfl, rfl⟩
  | setPrunedHeight height =>
    obtain ⟨-, rfl⟩ := Prod.mk.inj (Except.ok.inj h)
    exact ⟨rfl, fun hash' => by simp [BlockIndex.setPrunedHeight], rfl, by simp, rfl, rfl⟩
  | deleteBlockFile num =>
    obtain ⟨⟨freed, store⟩, hdel, hres⟩ := Except.bind_eq_ok.mp h
    obtain ⟨-, rfl⟩ := Prod.mk.inj (Except.ok.inj hres)
    unfold deleteBlockFile at hdel
    split at hdel
    · cases hdel
    · split at hdel
      · cases hdel
      · obtain ⟨-, rfl⟩ := Prod.mk.inj (Except.ok.inj hdel)
        refine ⟨rfl, fun hash' => by simp, rfl, filter_congr fun f _ => ?_, rfl, rfl⟩
        by_cases heq : f.1 = num <;> simp [heq]

variable {ws : List PruneWrite}

/-- Writes one after the other. -/
theorem Written.cons {w : PruneWrite} {s s₁ s' : Storage}
    (h₁ : Written [w] s s₁) (h : Written ws s₁ s') : Written (w :: ws) s s' := by
  refine ⟨h.headerIndex.trans h₁.headerIndex, fun hash => ?_, ?_, ?_,
    h.currentFile.trans h₁.currentFile, h.maxFileSize.trans h₁.maxFileSize⟩
  · rw [h.blockPos, h₁.blockPos, ← ite_or]
    exact if_congr (by rw [mem_singleton, mem_cons, or_comm]) rfl rfl
  · rw [h.prunedHeight, h₁.prunedHeight]
    cases w <;> rfl
  · rw [h.files, h₁.files, List.filter_filter]
    refine filter_congr fun f _ => ?_
    rw [← Bool.decide_and]
    exact decide_eq_decide.mpr (by rw [mem_singleton, mem_cons, not_or, and_comm])

/-- **Deletions of listed files below the current one, each once, do not
fail**, and the writes leave what they say. -/
theorem written_applyWrites (freed : Nat)
    (hdelete : ∀ num, .deleteBlockFile num ∈ ws →
      num < s.blockStore.currentFile ∧ num ∈ s.fileNums)
    (hnodup : ws.Pairwise fun v w => ∀ num, v = .deleteBlockFile num → w ≠ .deleteBlockFile num) :
    ∃ freed', (applyWrites ws freed s).1 = .ok freed'
      ∧ Written ws s (applyWrites ws freed s).2 := by
  induction ws generalizing s freed with
  | nil =>
    refine ⟨freed, rfl, ⟨rfl, fun hash => ?_, rfl, by simp [applyWrites], rfl, rfl⟩⟩
    rfl
  | cons w ws ih =>
    obtain ⟨hother, hnodup⟩ := pairwise_cons.mp hnodup
    obtain ⟨size, s₁, hone⟩ := exists_applyWrite (s := s) (w := w)
      fun num heq => hdelete num (heq ▸ mem_cons_self)
    have hw := written_applyWrite hone
    obtain ⟨freed', hok, hrest⟩ := ih (s := s₁) (freed + size) (fun num hnum => by
      obtain ⟨hlt, hmem⟩ := hdelete num (mem_cons_of_mem _ hnum)
      refine ⟨hw.currentFile ▸ hlt, ?_⟩
      -- a file that is still to be deleted is another one
      obtain ⟨f, hf, rfl⟩ := mem_map.mp hmem
      refine mem_map_of_mem ?_
      rw [hw.files]
      refine mem_filter.mpr ⟨hf, decide_eq_true fun hin => ?_⟩
      exact hother _ hnum f.1 (mem_singleton.mp hin).symm rfl) hnodup
    rw [applyWrites, hone]
    exact ⟨freed', hok, hw.cons hrest⟩

/-! ## The plan -/

theorem mem_writes_removeBlockPos {plan : PrunePlan} {hash : Hash} :
    .removeBlockPos hash ∈ plan.writes ↔ hash ∈ plan.removed := by
  simp [PrunePlan.writes]

theorem mem_writes_deleteBlockFile {plan : PrunePlan} {num : Nat} :
    .deleteBlockFile num ∈ plan.writes ↔ num ∈ plan.files.map fst := by
  simp [PrunePlan.writes]

theorem prunedAfter_append (pruned : Option Nat) (ws ws' : List PruneWrite) :
    prunedAfter pruned (ws ++ ws') = prunedAfter (prunedAfter pruned ws) ws' := by
  induction ws generalizing pruned with
  | nil => rfl
  | cons w ws ih => cases w <;> exact ih _

/-- Only the bookkeeping sets the pruned height. -/
theorem prunedAfter_eq {pruned : Option Nat}
    (h : ∀ height, .setPrunedHeight height ∉ ws) : prunedAfter pruned ws = pruned := by
  induction ws with
  | nil => rfl
  | cons w ws ih =>
    have hrest := ih fun height hin => h height (mem_cons_of_mem _ hin)
    cases w with
    | setPrunedHeight height => exact absurd mem_cons_self (h height)
    | removeBlockPos hash => exact hrest
    | deleteUndo hash => exact hrest
    | deleteBlockFile num => exact hrest

theorem prunedAfter_writes (pruned : Option Nat) (plan : PrunePlan) :
    prunedAfter pruned plan.writes = some plan.prunedHeight := by
  rw [PrunePlan.writes, prunedAfter_append]
  show prunedAfter (some plan.prunedHeight)
    (plan.files.map fun f => .deleteBlockFile f.1) = some plan.prunedHeight
  refine prunedAfter_eq fun height hin => ?_
  simp at hin

/-- **What a pass that goes ahead has planned**: `k` heights are gone through,
from the first one not yet pruned. -/
structure Planned (s : Storage) (ceiling target : Nat) (plan : PrunePlan) (keep k : Nat) :
    Prop where
  keepFile : s.keepFile ceiling = some keep
  files : plan.files
    = Shed.shed snd (fun f => decide (f.1 < keep)) target s.blockStore.files
  nonempty : plan.files ≠ []
  gone : GoneThrough (plan.files.map fst) s.index (ceiling + 1 - s.pruneStart) s.pruneStart
    k plan.removed
  prunedHeight : plan.prunedHeight
    = if k = 0 then s.pruneStart - 1 else s.pruneStart + k - 1
  start_le : s.pruneStart ≤ plan.prunedHeight

/-- The block at a height is in a doomed file, or not stored. -/
def ClearAt (s : Storage) (ceiling target height : Nat) : Prop :=
  ∀ num, s.index.hashPosFile height = some num → s.Doomed ceiling target num

/-- A pass does not refuse: it is the first one, or the lowest unpruned height
is not above the ceiling and its block is not in a file that stays. -/
def GoesAhead (s : Storage) (ceiling target : Nat) : Prop :=
  s.index.prunedHeight = none
    ∨ (s.pruneStart ≤ ceiling ∧ s.ClearAt ceiling target s.pruneStart)

theorem pruneStart_eq_zero_iff : s.pruneStart = 0 ↔ s.index.prunedHeight = none := by
  unfold pruneStart
  cases s.index.prunedHeight <;> simp

/-- **The three ways a pass can go**: nothing to delete, refused, planned. -/
theorem prunePlan_cases (ρ : IterOrder Nat) (hs : s.Filed) (ceiling target : Nat) :
    (s.prunePlan ρ ceiling target = .ok none ∧ ∀ num, ¬ s.Doomed ceiling target num)
      ∨ (∃ e, s.prunePlan ρ ceiling target = .error e ∧ (∃ num, s.Doomed ceiling target num)
        ∧ ¬ s.GoesAhead ceiling target)
      ∨ ∃ plan keep k, s.prunePlan ρ ceiling target = .ok (some plan)
        ∧ s.Planned ceiling target plan keep k ∧ s.GoesAhead ceiling target := by
  unfold prunePlan listBlockFiles
  by_cases htotal : Shed.total snd s.blockStore.files ≤ target
  · refine Or.inl ⟨if_pos htotal, ?_⟩
    rintro num ⟨keep, -, -, -, hlt⟩
    exact absurd (lt_of_lt_of_le hlt (Shed.total_filter_le _ _)) (not_lt.mpr htotal)
  rw [if_neg htotal]
  cases hkeep : s.keepFile ceiling with
  | none =>
    refine Or.inl ⟨rfl, ?_⟩
    rintro num ⟨keep, hsome, -⟩
    cases hkeep.symm.trans hsome
  | some keep =>
    simp only
    generalize hfiles : Shed.shed snd (fun f => decide (f.1 < keep)) target
      s.blockStore.files = files
    have hdoomed : ∀ num, num ∈ files.map fst ↔ s.Doomed ceiling target num := fun num => by
      rw [← hfiles]
      exact hs.mem_shed_iff hkeep
    have hclear : ∀ h, Clear (files.map fst) s.index h ↔ s.ClearAt ceiling target h :=
      fun h => forall₂_congr fun num _ => hdoomed num
    cases files with
    | nil => exact Or.inl ⟨rfl, fun num hnum => by cases (hdoomed num).mpr hnum⟩
    | cons f files =>
      obtain ⟨k, hgone, hlast⟩ := goneThrough_pruneHeights ((f :: files).map fst)
        (ceiling + 1 - s.pruneStart) s.pruneStart (s.pruneStart - 1) s.index
      refine Or.inr ?_
      rw [if_neg (by simp)]
      by_cases hlow : s.pruneStart - 1 < s.pruneStart ∧ k = 0
      · -- nothing was gone through, and there is a pruned height
        obtain ⟨hpos, rfl⟩ := hlow
        refine Or.inl ⟨_, if_pos (by rw [hlast]; exact hpos),
          ⟨f.1, (hdoomed f.1).mp mem_cons_self⟩, ?_⟩
        rintro (hnone | ⟨hle, hfirst⟩)
        · rw [pruneStart_eq_zero_iff.mpr hnone] at hpos
          omega
        · exact hgone.stop (by omega) ((hclear _).mpr hfirst)
      · have hstart : s.pruneStart ≤ if k = 0 then s.pruneStart - 1 else s.pruneStart + k - 1 := by
          split <;> omega
        refine Or.inr ⟨⟨_, _, f :: files⟩, keep, k,
          if_neg (by rw [hlast]; exact not_lt.mpr hstart),
          ⟨hkeep, hfiles.symm, cons_ne_nil _ _, hgone, hlast, hlast ▸ hstart⟩, ?_⟩
        by_cases hk : k = 0
        · exact Or.inl (pruneStart_eq_zero_iff.mp (by omega))
        · have hle := hgone.le
          exact Or.inr ⟨by omega, (hclear _).mp (hgone.clear _ (le_refl _) (by omega))⟩

namespace Planned

variable {s : Storage} {ceiling target keep k : Nat} {plan : PrunePlan}

section

variable (h : s.Planned ceiling target plan keep k)
include h

theorem mem_files_iff (hs : s.Filed) {num : Nat} :
    num ∈ plan.files.map fst ↔ s.Doomed ceiling target num := by
  rw [h.files]
  exact hs.mem_shed_iff h.keepFile

theorem clear_iff (hs : s.Filed) {height : Nat} :
    Clear (plan.files.map fst) s.index height ↔ s.ClearAt ceiling target height :=
  forall₂_congr fun _ _ => h.mem_files_iff hs

theorem files_prefix : plan.files <+: s.blockStore.files := by
  rw [h.files]
  exact Shed.shed_prefix _

theorem keep_le_current : keep ≤ s.blockStore.currentFile := by
  obtain ⟨num, -, rfl⟩ := map_eq_some_iff.mp h.keepFile
  exact min_le_right _ _

theorem lt_keep {num : Nat} (hnum : num ∈ plan.files.map fst) : num < keep := by
  obtain ⟨f, hf, rfl⟩ := mem_map.mp hnum
  rw [h.files] at hf
  have hmay := Shed.may_of_mem_shed hf
  exact of_decide_eq_true hmay

/-- The writes of a plan delete listed files below the current one, each
once. -/
theorem deletable (hs : s.Filed) :
    (∀ num, .deleteBlockFile num ∈ plan.writes →
      num < s.blockStore.currentFile ∧ num ∈ s.fileNums)
      ∧ plan.writes.Pairwise fun v w =>
        ∀ num, v = .deleteBlockFile num → w ≠ .deleteBlockFile num := by
  constructor
  · intro num hnum
    have hmem := mem_writes_deleteBlockFile.mp hnum
    exact ⟨lt_of_lt_of_le (h.lt_keep hmem) h.keep_le_current,
      (h.files_prefix.map fst).subset hmem⟩
  · have hfiles : plan.files.Pairwise fun f g => f.1 < g.1 :=
      hs.sorted.sublist h.files_prefix.sublist
    refine pairwise_append.mpr ⟨pairwise_of_forall_mem_list ?_,
      pairwise_cons.mpr ⟨fun w _ num heq => (by cases heq), ?_⟩, ?_⟩
    · intro v hv w _ num heq
      subst heq
      simp at hv
    · refine pairwise_map.mpr (hfiles.imp fun hlt num heq heq' => ?_)
      have hsame := PruneWrite.deleteBlockFile.inj (heq.trans heq'.symm)
      exact Nat.ne_of_lt hlt hsame
    · intro v hv w _ num heq
      subst heq
      simp at hv

/-- **A planned pass is carried out.** -/
theorem written (hs : s.Filed) {ρ : IterOrder Nat}
    (hplan : s.prunePlan ρ ceiling target = .ok (some plan)) :
    (∃ report, (s.pruneBlockFiles ρ ceiling target).1 = .ok (some report))
      ∧ Written plan.writes s (s.pruneBlockFiles ρ ceiling target).2 := by
  obtain ⟨hdelete, hnodup⟩ := h.deletable hs
  obtain ⟨freed, hok, hw⟩ := written_applyWrites 0 hdelete hnodup
  unfold pruneBlockFiles
  simp only [hplan]
  generalize applyWrites plan.writes 0 s = result at hok hw
  obtain ⟨verdict, s'⟩ := result
  obtain rfl : verdict = .ok freed := hok
  exact ⟨⟨_, rfl⟩, hw⟩

end

end Planned

/-! ## Safe passes -/

/-- The block at a height is stored, in a file that is there. -/
def Available (s : Storage) (height : Nat) : Prop :=
  ∃ num, s.index.hashPosFile height = some num ∧ num ∈ s.fileNums

/-- **What a pass must not lose**: no file with the indexed block of a height
above the ceiling, no file a position still points into, and no data above the
recorded pruned height. -/
structure PruneSafe (s : Storage) (ceiling : Nat) (s' : Storage) : Prop where
  above : ∀ num ∈ s.fileNums, num ∉ s'.fileNums → ∀ height, ceiling < height →
    s.index.hashPosFile height ≠ some num
  located : ∀ hash pos, s'.index.blockPos hash = some pos → pos.fileNum ∈ s'.fileNums
  available : ∀ height, (∀ pruned, s'.index.prunedHeight = some pruned → pruned < height) →
    s.Available height → s'.Available height

/-- **The store is in order for a pass**, unless the pass is refused: a block in
a doomed file is named at a height not yet pruned, and every height that names
it is not above the ceiling and has, from the first unpruned height up to it,
no block in a file that stays. -/
def PassOrdered (s : Storage) (ceiling target : Nat) : Prop :=
  s.GoesAhead ceiling target →
    ∀ hash pos, s.index.blockPos hash = some pos → s.Doomed ceiling target pos.fileNum →
      (∃ height, s.pruneStart ≤ height ∧ s.index.getHashAtHeight height = some hash)
        ∧ ∀ height, s.index.getHashAtHeight height = some hash → height ≤ ceiling
          ∧ ∀ i, s.pruneStart ≤ i → i ≤ height → s.ClearAt ceiling target i

/-- The files are in order, and every position points into one of them. -/
structure Located (s : Storage) : Prop extends Filed s where
  listed : ∀ hash pos, s.index.blockPos hash = some pos → pos.fileNum ∈ s.fileNums

theorem Located.pruneSafe_self (h : s.Located) (ceiling : Nat) :
    PruneSafe s ceiling s :=
  ⟨fun _ hmem hnot => absurd hmem hnot, h.listed, fun _ _ hav => hav⟩

section Carried

variable {s s' : Storage} {ceiling target keep k : Nat} {plan : PrunePlan}

section

variable (h : s.Planned ceiling target plan keep k)
include h

/-- The files left after a pass are those that are not doomed. -/
theorem Planned.mem_fileNums_iff (hs : s.Filed) (hw : Written plan.writes s s') {num : Nat} :
    num ∈ s'.fileNums ↔ num ∈ s.fileNums ∧ ¬ s.Doomed ceiling target num := by
  unfold fileNums
  rw [hw.files]
  constructor
  · intro hnum
    obtain ⟨f, hf, rfl⟩ := mem_map.mp hnum
    obtain ⟨hmem, hkeep⟩ := mem_filter.mp hf
    refine ⟨mem_map_of_mem hmem, fun hdoomed => of_decide_eq_true hkeep ?_⟩
    exact mem_writes_deleteBlockFile.mpr ((h.mem_files_iff hs).mpr hdoomed)
  · rintro ⟨hnum, hkeep⟩
    obtain ⟨f, hf, rfl⟩ := mem_map.mp hnum
    refine mem_map_of_mem (mem_filter.mpr ⟨hf, decide_eq_true fun hin => hkeep ?_⟩)
    exact (h.mem_files_iff hs).mp (mem_writes_deleteBlockFile.mp hin)

/-- A height is gone through exactly if it is not above the ceiling and
everything up to it is clear. -/
theorem Planned.lt_iff (hs : s.Filed) {height : Nat} (hstart : s.pruneStart ≤ height) :
    height < s.pruneStart + k ↔
      height ≤ ceiling ∧ ∀ i, s.pruneStart ≤ i → i ≤ height → s.ClearAt ceiling target i := by
  have hle := h.gone.le
  constructor
  · intro hlt
    exact ⟨by omega, fun i hi hih => (h.clear_iff hs).mp (h.gone.clear i hi (by omega))⟩
  · rintro ⟨hceil, hclear⟩
    by_contra hge
    exact h.gone.stop (by omega) ((h.clear_iff hs).mpr (hclear _ (le_add_right _ _) (by omega)))

/-- A pass that has gone through nothing is the first one. -/
theorem Planned.start_eq_zero (hk : k = 0) : s.pruneStart = 0 := by
  have hle := h.start_le
  rw [h.prunedHeight, if_pos hk] at hle
  omega

/-- The pruned height is the last one gone through. -/
theorem Planned.le_prunedHeight_iff (hk : k ≠ 0) {height : Nat} :
    height ≤ plan.prunedHeight ↔ height < s.pruneStart + k := by
  rw [h.prunedHeight, if_neg hk]
  omega

/-- **A pass that is carried out is safe exactly if the store is in order.** -/
theorem Planned.pruneSafe_iff (hs : s.Located) (hahead : s.GoesAhead ceiling target)
    (hw : Written plan.writes s s') : PruneSafe s ceiling s' ↔ s.PassOrdered ceiling target := by
  have hpruned : s'.index.prunedHeight = some plan.prunedHeight :=
    hw.prunedHeight.trans (prunedAfter_writes _ _)
  have hpos : ∀ hash, s'.index.blockPos hash
      = if hash ∈ plan.removed then none else s.index.blockPos hash := fun hash =>
    (hw.blockPos hash).trans (if_congr mem_writes_removeBlockPos rfl rfl)
  have hat : ∀ height, s'.index.getHashAtHeight height = s.index.getHashAtHeight height :=
    fun height => congrArg (fun ix : HeaderIndex => ix.getHashAtHeight height) hw.headerIndex
  constructor
  · intro hsafe _ hash pos hhash hdoomed
    -- the position is gone, or it would point into a deleted file
    have hremoved : hash ∈ plan.removed := by
      by_contra hnot
      have hkept := hsafe.located hash pos (by rw [hpos, if_neg hnot]; exact hhash)
      exact ((h.mem_fileNums_iff hs.toFiled hw).mp hkept).2 hdoomed
    obtain ⟨height, hstart, hlt, hheight, -⟩ := (h.gone.mem_removed hash).mp hremoved
    have hk : k ≠ 0 := by omega
    refine ⟨⟨height, hstart, hheight⟩, fun other hother => ?_⟩
    have hle : other ≤ plan.prunedHeight := by
      by_contra hgt
      obtain ⟨num, hnum, -⟩ := hsafe.available other (fun pruned hp => by
          rw [mem_unique hp hpruned]
          omega)
        ⟨_, hashPosFile_eq_some.mpr ⟨hash, pos, hother, hhash, rfl⟩, hs.listed hash pos hhash⟩
      obtain ⟨hash', pos', hat', hpos', -⟩ := hashPosFile_eq_some.mp hnum
      rw [hat] at hat'
      obtain rfl := mem_unique hother hat'
      rw [hpos, if_pos hremoved] at hpos'
      cases hpos'
    have hlow := (h.le_prunedHeight_iff hk).mp hle
    by_cases hbelow : s.pruneStart ≤ other
    · exact (h.lt_iff hs.toFiled hbelow).mp hlow
    · have hkle := h.gone.le
      exact ⟨by omega, fun i hi hio => by omega⟩
  · intro hordered
    have hdoomed : ∀ hash pos, s.index.blockPos hash = some pos →
        s.Doomed ceiling target pos.fileNum → hash ∈ plan.removed
          ∧ ∀ height, s.index.getHashAtHeight height = some hash →
            height ≤ ceiling ∧ height ≤ plan.prunedHeight := by
      intro hash pos hhash hd
      obtain ⟨⟨height, hstart, hheight⟩, hall⟩ := hordered hahead hash pos hhash hd
      have hlt := (h.lt_iff hs.toFiled hstart).mpr (hall height hheight)
      have hk : k ≠ 0 := by omega
      refine ⟨(h.gone.mem_removed hash).mpr ⟨height, hstart, hlt, hheight, pos, hhash,
        (h.mem_files_iff hs.toFiled).mpr hd⟩, fun other hother => ⟨(hall other hother).1, ?_⟩⟩
      rw [h.le_prunedHeight_iff hk]
      by_cases hbelow : s.pruneStart ≤ other
      · exact (h.lt_iff hs.toFiled hbelow).mpr (hall other hother)
      · omega
    refine ⟨fun num hmem hnot height hgt hnum => ?_, fun hash pos hhash => ?_,
      fun height hgt hav => ?_⟩
    · have hd : s.Doomed ceiling target num := by
        by_contra hkept
        exact hnot ((h.mem_fileNums_iff hs.toFiled hw).mpr ⟨hmem, hkept⟩)
      obtain ⟨hash, pos, hheight, hhash, rfl⟩ := hashPosFile_eq_some.mp hnum
      have hle := ((hdoomed hash pos hhash hd).2 height hheight).1
      omega
    · rw [hpos] at hhash
      split at hhash
      · cases hhash
      · rename_i hnot
        exact (h.mem_fileNums_iff hs.toFiled hw).mpr
          ⟨hs.listed hash pos hhash, fun hd => hnot (hdoomed hash pos hhash hd).1⟩
    · obtain ⟨num, hnum, hmem⟩ := hav
      obtain ⟨hash, pos, hheight, hhash, rfl⟩ := hashPosFile_eq_some.mp hnum
      have hkept : ¬ s.Doomed ceiling target pos.fileNum := fun hd => by
        have hle := ((hdoomed hash pos hhash hd).2 height hheight).2
        have hlt := hgt _ hpruned
        omega
      have hnot : hash ∉ plan.removed := fun hin => by
        obtain ⟨-, -, -, -, pos', hpos', hmem'⟩ := (h.gone.mem_removed hash).mp hin
        obtain rfl := mem_unique hhash hpos'
        exact hkept ((h.mem_files_iff hs.toFiled).mp hmem')
      exact ⟨pos.fileNum, hashPosFile_eq_some.mpr
        ⟨hash, pos, (hat height).trans hheight, by rw [hpos, if_neg hnot]; exact hhash, rfl⟩,
        (h.mem_fileNums_iff hs.toFiled hw).mpr ⟨hmem, hkept⟩⟩

end

end Carried

/-- **A pass is safe exactly if it finds the store in order.** -/
theorem Located.pruneSafe_iff (hs : s.Located) (ρ : IterOrder Nat) (ceiling target : Nat) :
    PruneSafe s ceiling (s.pruneBlockFiles ρ ceiling target).2
      ↔ s.PassOrdered ceiling target := by
  rcases prunePlan_cases ρ hs.toFiled ceiling target with
    ⟨hplan, hnone⟩ | ⟨e, hplan, -, hrefused⟩ | ⟨plan, keep, k, hplan, hplanned, hahead⟩
  · have hsame : (s.pruneBlockFiles ρ ceiling target).2 = s := by
      unfold pruneBlockFiles
      simp only [hplan]
    rw [hsame]
    exact iff_of_true (hs.pruneSafe_self ceiling)
      fun _ hash pos _ hdoomed => absurd hdoomed (hnone _)
  · have hsame : (s.pruneBlockFiles ρ ceiling target).2 = s := by
      unfold pruneBlockFiles
      simp only [hplan]
    rw [hsame]
    exact iff_of_true (hs.pruneSafe_self ceiling) fun hahead => absurd hahead hrefused
  · exact hplanned.pruneSafe_iff hs hahead (hplanned.written hs.toFiled hplan).2

/-! ## Runs -/

/-- What happens to the stores: a block is connected – for the first time, on
another branch, or again – a height is made to name a block or none, a damaged
position is dropped, the stores are opened again, a pass prunes. -/
inductive Event where
  | connect (hash : Hash) (len height : Nat) (utxoSet : UtxoSet)
  | setHeightHash (height : Nat) (hash : Hash)
  | deleteHeightEntry (height : Nat)
  | removeBlockPos (hash : Hash)
  | reopen
  | prune (ρ : IterOrder Nat) (ceiling target : Nat)

def step (s : Storage) : Event → Storage
  | .connect hash len height utxoSet => s.storeConnected hash len height utxoSet
  | .setHeightHash height hash => { s with index := s.index.setHeightHash height hash }
  | .deleteHeightEntry height => { s with index := s.index.deleteHeightEntry height }
  | .removeBlockPos hash => { s with index := s.index.removeBlockPos hash }
  | .reopen => s.reopen
  | .prune ρ ceiling target => (s.pruneBlockFiles ρ ceiling target).2

/-- Stores without blocks, over any header index. -/
def fresh (maxFileSize : Nat) (headerIndex : HeaderIndex) (utxoSet : UtxoSet) : Storage :=
  ⟨BlockStore.openWithMaxFileSize [] maxFileSize, ⟨headerIndex, fun _ => none, none⟩, utxoSet⟩

/-- Every pass of a run is safe. -/
def PassesSafe : Storage → List Event → Prop
  | _, [] => True
  | s, e :: es =>
    (∀ ρ ceiling target, e = .prune ρ ceiling target → PruneSafe s ceiling (s.step e))
      ∧ PassesSafe (s.step e) es

/-- Every pass of a run finds the store in order. -/
def PassesOrdered : Storage → List Event → Prop
  | _, [] => True
  | s, e :: es =>
    (∀ ρ ceiling target, e = .prune ρ ceiling target → s.PassOrdered ceiling target)
      ∧ PassesOrdered (s.step e) es

theorem le_currentFile_open {files : List (Nat × Nat)} {maxFileSize : Nat}
    (h : files.Pairwise fun f g => f.1 < g.1) {f : Nat × Nat} (hf : f ∈ files) :
    f.1 ≤ (BlockStore.openWithMaxFileSize files maxFileSize).currentFile := by
  unfold openWithMaxFileSize
  cases hlast : files.getLast? with
  | none =>
    rw [getLast?_eq_none_iff.mp hlast] at hf
    cases hf
  | some g =>
    obtain ⟨front, rfl⟩ := getLast?_eq_some_iff.mp hlast
    have hle : f.1 ≤ g.1 := by
      rcases mem_append.mp hf with hf | hf
      · exact ((pairwise_append.mp h).2.2 f hf g mem_cons_self).le
      · rw [mem_singleton.mp hf]
    simp only
    split
    · exact hle
    · exact le_succ_of_le hle

theorem files_reopen (s : Storage) : s.reopen.blockStore.files = s.blockStore.files := by
  show (openWithMaxFileSize s.blockStore.files s.blockStore.maxFileSize).files = _
  unfold openWithMaxFileSize
  split
  · rfl
  · split <;> rfl

theorem located_fresh (maxFileSize : Nat) (headerIndex : HeaderIndex) (utxoSet : UtxoSet) :
    (fresh maxFileSize headerIndex utxoSet).Located :=
  ⟨⟨List.Pairwise.nil, fun _ h => (by cases h)⟩, fun _ _ h => (by cases h)⟩

/-- A block is stored in the current file, which is there afterwards. -/
theorem Located.storeConnected (h : s.Located) (hash : Hash) (len height : Nat)
    (utxoSet : UtxoSet) : (s.storeConnected hash len height utxoSet).Located := by
  have hrotate : (s.blockStore.rotate len).files = s.blockStore.files
      ∧ s.blockStore.currentFile ≤ (s.blockStore.rotate len).currentFile := by
    unfold BlockStore.rotate
    split
    · exact ⟨rfl, le_succ _⟩
    · exact ⟨rfl, le_refl _⟩
  have hnums : ∀ num, num ∈ (s.storeConnected hash len height utxoSet).fileNums
      ↔ num = (s.blockStore.rotate len).currentFile ∨ num ∈ s.fileNums := by
    intro num
    unfold fileNums
    rw [← hrotate.1]
    exact mem_appendTo
  refine ⟨⟨?_, fun num hnum => ?_⟩, fun hash' pos hpos => (hnums _).mpr ?_⟩
  · show (appendTo _ _ (s.blockStore.rotate len).files).Pairwise _
    rw [hrotate.1]
    exact sorted_appendTo h.sorted
  · rcases (hnums num).mp hnum with rfl | hmem
    · exact le_refl _
    · exact (h.le_current num hmem).trans hrotate.2
  · rcases PartialMap.update_eq_some.mp hpos with ⟨-, hnew⟩ | ⟨-, hold⟩
    · exact Or.inl (Option.some.inj hnew ▸ rfl)
    · exact Or.inr (h.listed hash' pos hold)

theorem Located.pruneBlockFiles (h : s.Located) {ρ : IterOrder Nat} {ceiling target : Nat}
    (hsafe : PruneSafe s ceiling (s.pruneBlockFiles ρ ceiling target).2) :
    (s.pruneBlockFiles ρ ceiling target).2.Located := by
  rcases prunePlan_cases ρ h.toFiled ceiling target with
    ⟨hplan, -⟩ | ⟨e, hplan, -⟩ | ⟨plan, keep, k, hplan, hplanned, -⟩
  · unfold Storage.pruneBlockFiles
    simp only [hplan]
    exact h
  · unfold Storage.pruneBlockFiles
    simp only [hplan]
    exact h
  · have hw := (hplanned.written h.toFiled hplan).2
    refine ⟨⟨?_, fun num hnum => ?_⟩, hsafe.located⟩
    · rw [hw.files]
      exact h.sorted.filter _
    · rw [hw.currentFile]
      exact h.le_current num ((hplanned.mem_fileNums_iff h.toFiled hw).mp hnum).1

/-- **Positions keep pointing into files that are there**, unless a pass is
unsafe. -/
theorem Located.step (h : s.Located) (e : Event)
    (hsafe : ∀ ρ ceiling target, e = .prune ρ ceiling target → PruneSafe s ceiling (s.step e)) :
    (s.step e).Located := by
  cases e with
  | connect hash len height utxoSet => exact h.storeConnected hash len height utxoSet
  | setHeightHash height hash => exact ⟨⟨h.sorted, h.le_current⟩, h.listed⟩
  | deleteHeightEntry height => exact ⟨⟨h.sorted, h.le_current⟩, h.listed⟩
  | removeBlockPos hash =>
    refine ⟨⟨h.sorted, h.le_current⟩, fun hash' pos hpos => ?_⟩
    rcases PartialMap.update_eq_some.mp hpos with ⟨-, hnone⟩ | ⟨-, hold⟩
    · cases hnone
    · exact h.listed hash' pos hold
  | reopen =>
    have hfiles : (s.step .reopen).blockStore.files = s.blockStore.files := files_reopen s
    refine ⟨⟨hfiles ▸ h.sorted, fun num hnum => ?_⟩, fun hash pos hpos => ?_⟩
    · rw [fileNums, hfiles] at hnum
      obtain ⟨f, hf, rfl⟩ := mem_map.mp hnum
      exact le_currentFile_open h.sorted hf
    · rw [fileNums, hfiles]
      exact h.listed hash pos hpos
  | prune ρ ceiling target => exact h.pruneBlockFiles (hsafe ρ ceiling target rfl)

/-- Along any run, all passes are safe exactly if each finds the store in
order. -/
theorem Located.passesSafe_iff (h : s.Located) (es : List Event) :
    PassesSafe s es ↔ PassesOrdered s es := by
  induction es generalizing s with
  | nil => exact Iff.rfl
  | cons e es ih =>
    have hone : (∀ ρ ceiling target, e = .prune ρ ceiling target → PruneSafe s ceiling (s.step e))
        ↔ ∀ ρ ceiling target, e = .prune ρ ceiling target → s.PassOrdered ceiling target := by
      refine forall₄_congr fun ρ ceiling target heq => ?_
      rw [heq]
      exact h.pruneSafe_iff ρ ceiling target
    rw [PassesSafe, hone]
    exact and_congr_right fun hordered => ih (h.step e (hone.mpr hordered))

/-- **Pruning loses nothing exactly as long as every pass finds the store in
order**, along every run of connections, reorganisations, stores of missing
blocks and passes, from stores without blocks. -/
theorem passesSafe_fresh_iff (maxFileSize : Nat) (headerIndex : HeaderIndex) (utxoSet : UtxoSet)
    (es : List Event) :
    PassesSafe (fresh maxFileSize headerIndex utxoSet) es
      ↔ PassesOrdered (fresh maxFileSize headerIndex utxoSet) es :=
  (located_fresh maxFileSize headerIndex utxoSet).passesSafe_iff es

/-- Every pass of every run is safe. -/
def PruningLosesNothing : Prop :=
  ∀ (maxFileSize : Nat) (headerIndex : HeaderIndex) (utxoSet : UtxoSet) (es : List Event),
    PassesSafe (fresh maxFileSize headerIndex utxoSet) es

/-- Six blocks of a file each are connected, the position of the fifth is found
damaged and the block is stored again, and everything up to the fourth is
pruned. -/
def restoredRun (utxoSet : UtxoSet) : List Event :=
  (List.range 6).map (fun height => .connect (BitVec.ofNat 256 (height + 1)) 60 height utxoSet)
    ++ [.removeBlockPos 5#256, .connect 5#256 60 4 utxoSet, .prune IterOrder.id 3 0]

/-- The stores before that pass: blocks 1 to 6 in files 0 to 5, and block 5
again in file 6. -/
def restoredStorage : Storage :=
  ((restoredRun (UtxoSet.openDb UtxoDb.empty 0 0)).take 8).foldl step
    (fresh 100 HeaderIndex.empty (UtxoSet.openDb UtxoDb.empty 0 0))

/-- **A block stored again takes a later one with it**: as the first block to
keep, block 5 in file 6 lets files 0 to 5 go, and file 5 holds block 6, which
is above the ceiling, keeps its position and is not recorded as pruned. -/
theorem not_pruningLosesNothing : ¬ PruningLosesNothing
    ∧ ¬ ∀ hash pos, (restoredStorage.step (.prune IterOrder.id 3 0)).index.blockPos hash
      = some pos → pos.fileNum ∈ (restoredStorage.step (.prune IterOrder.id 3 0)).fileNums := by
  constructor
  · intro h
    have hsafe : PruneSafe restoredStorage 3 (restoredStorage.step (.prune IterOrder.id 3 0)) :=
      (h 100 HeaderIndex.empty (UtxoSet.openDb UtxoDb.empty 0 0)
        (restoredRun (UtxoSet.openDb UtxoDb.empty 0 0))).2.2.2.2.2.2.2.2.1 IterOrder.id 3 0 rfl
    exact hsafe.above 5 (by decide) (by decide) 5 (by decide) (by decide)
  · intro h
    exact absurd (h 6#256 ⟨5, 0, 60⟩ (by decide)) (by decide)

end Storage
