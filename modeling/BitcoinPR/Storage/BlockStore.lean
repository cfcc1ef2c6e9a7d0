import BitcoinPR.Lib.Shed
import BitcoinPR.Storage.HeaderIndex
import BitcoinPR.Storage.Undo

/-!
# Block files and where blocks are

Raw blocks are appended to numbered files; a new file is begun when the next
block would not fit. The header index keeps, by block hash, the position at
which a block was last stored. Only sizes matter here: a file is its number and
its length, and what was written where is known from the positions.

A pruning pass (`pruneBlockFiles`) deletes the oldest files. It looks at the
index by height, and by height only: the file of the first block to keep bounds
what may go, and the positions it cleans up are those of the blocks the height
index names, from the last pruned height on, up to the first one in a file that
stays. Everything it does to the disk is a list of writes (`PruneWrite`), so
that a pass that is interrupted is one whose writes end early.
-/

open List

/-- Where a block is stored. -/
structure BlockPos where
  fileNum : Nat
  offset : Nat
  size : Nat
deriving DecidableEq, Repr

/-- The block files: number and size of each, ascending by number, and the file
that is appended to. -/
structure BlockStore where
  maxFileSize : Nat
  files : List (Nat × Nat)
  currentFile : Nat
  offset : Nat
deriving DecidableEq, Repr

namespace BlockStore

/-- Open the store over the files found: append to the last one, or begin the
next if it is full. -/
def openWithMaxFileSize (files : List (Nat × Nat)) (maxFileSize : Nat) : BlockStore :=
  match files.getLast? with
  | none => ⟨maxFileSize, files, 0, 0⟩
  | some (fileNum, size) =>
    if size < maxFileSize then ⟨maxFileSize, files, fileNum, size⟩
    else ⟨maxFileSize, files, fileNum + 1, 0⟩

def listBlockFiles (s : BlockStore) : List (Nat × Nat) := s.files

def currentFileNum (s : BlockStore) : Nat := s.currentFile

/-- Append to a file, creating it if there is none of the number. -/
def appendTo (num len : Nat) : List (Nat × Nat) → List (Nat × Nat)
  | [] => [(num, len)]
  | (n, size) :: files =>
    if n < num then (n, size) :: appendTo num len files
    else if n = num then (n, size + len) :: files
    else (num, len) :: (n, size) :: files

/-- Begin a new file if a block of this length does not fit. -/
def rotate (s : BlockStore) (len : Nat) : BlockStore :=
  if 0 < s.offset ∧ s.maxFileSize < s.offset + len then
    { s with currentFile := s.currentFile + 1, offset := 0 }
  else s

/-- Store a raw block of a length: four bytes of size and the block. -/
def storeBlockAsync (s : BlockStore) (len : Nat) : BlockStore × BlockPos :=
  let s := s.rotate len
  ({ s with
      files := appendTo s.currentFile (4 + len) s.files
      offset := s.offset + 4 + len },
    ⟨s.currentFile, s.offset, len % 2 ^ 32⟩)

/-- Delete a file, unless it is the current one or a later one. The size comes
back. -/
def deleteBlockFile (s : BlockStore) (num : Nat) : Except StorageError (Nat × BlockStore) :=
  if s.currentFile ≤ num then
    .error (.serialization
      s!"refusing to prune block file {num}: current write file is {s.currentFile}")
  else match s.files.lookup num with
    | none => .error (.io "No such file or directory (os error 2)")
    | some size => .ok (size, { s with files := s.files.filter fun f => f.1 != num })

theorem mem_appendTo {num len n : Nat} {files : List (Nat × Nat)} :
    n ∈ (appendTo num len files).map Prod.fst ↔ n = num ∨ n ∈ files.map Prod.fst := by
  induction files with
  | nil => simp [appendTo]
  | cons f files ih =>
    rw [appendTo]
    split
    · rw [map_cons, mem_cons, ih, map_cons, mem_cons]
      exact or_left_comm
    · split
      · rename_i heq
        simp [heq]
      · simp

theorem sorted_appendTo {num len : Nat} {files : List (Nat × Nat)}
    (h : files.Pairwise fun f g => f.1 < g.1) :
    (appendTo num len files).Pairwise fun f g => f.1 < g.1 := by
  induction files with
  | nil => exact pairwise_singleton _ _
  | cons f files ih =>
    obtain ⟨hf, hrest⟩ := pairwise_cons.mp h
    rw [appendTo]
    split
    · rename_i hlt
      refine pairwise_cons.mpr ⟨fun g hg => ?_, ih hrest⟩
      rcases mem_appendTo.mp (mem_map_of_mem hg) with heq | hmem
      · rw [heq]
        exact hlt
      · obtain ⟨g', hg', heq⟩ := mem_map.mp hmem
        rw [← heq]
        exact hf g' hg'
    · split
      · exact pairwise_cons.mpr ⟨hf, hrest⟩
      · refine pairwise_cons.mpr ⟨fun g hg => ?_, h⟩
        rcases mem_cons.mp hg with rfl | hg
        · omega
        · have hlt := hf g hg
          omega

end BlockStore

/-- The header index as far as it locates blocks: the height index, the block
positions and the pruned height. -/
structure BlockIndex where
  headerIndex : HeaderIndex
  blockPos : Hash → Option BlockPos
  prunedHeight : Option Nat

namespace BlockIndex

def getHashAtHeight (ix : BlockIndex) (height : Nat) : Option Hash :=
  ix.headerIndex.getHashAtHeight height

def getBlockPos (ix : BlockIndex) (hash : Hash) : Option BlockPos := ix.blockPos hash

def setBlockPos (ix : BlockIndex) (hash : Hash) (pos : BlockPos) : BlockIndex :=
  { ix with blockPos := Function.update ix.blockPos hash (some pos) }

def removeBlockPos (ix : BlockIndex) (hash : Hash) : BlockIndex :=
  { ix with blockPos := Function.update ix.blockPos hash none }

def setPrunedHeight (ix : BlockIndex) (height : Nat) : BlockIndex :=
  { ix with prunedHeight := some height }

def setHeightHash (ix : BlockIndex) (height : Nat) (hash : Hash) : BlockIndex :=
  { ix with headerIndex := ix.headerIndex.setHeightHash height hash }

def deleteHeightEntry (ix : BlockIndex) (height : Nat) : BlockIndex :=
  { ix with headerIndex := ix.headerIndex.deleteHeightEntry height }

/-- The file of the block at a height. -/
def hashPosFile (ix : BlockIndex) (height : Nat) : Option Nat :=
  match ix.getHashAtHeight height with
  | some hash => (ix.getBlockPos hash).map BlockPos.fileNum
  | none => none

end BlockIndex

/-- The stores a pruning pass works on. -/
structure Storage where
  blockStore : BlockStore
  index : BlockIndex
  utxoSet : UtxoSet

namespace Storage

/-! ## A pruning pass -/

/-- Outcome of a pass that deleted something. -/
structure PruneReport where
  filesDeleted : Nat
  bytesFreed : Nat
  prunedHeight : Nat
deriving DecidableEq, Repr

/-- A write of a pass. -/
inductive PruneWrite where
  | removeBlockPos (hash : Hash)
  | deleteUndo (hash : Hash)
  | setPrunedHeight (height : Nat)
  | deleteBlockFile (num : Nat)
deriving DecidableEq, Repr

/-- What a pass is going to do. -/
structure PrunePlan where
  /-- The blocks whose positions and undo records go, lowest first. -/
  removed : List Hash
  prunedHeight : Nat
  /-- The files that go, oldest first. -/
  files : List (Nat × Nat)
deriving DecidableEq, Repr

/-- The writes of a plan, in order: the index first, then the bookkeeping, then
the files. -/
def PrunePlan.writes (plan : PrunePlan) : List PruneWrite :=
  (plan.removed.flatMap fun hash => [.removeBlockPos hash, .deleteUndo hash])
    ++ .setPrunedHeight plan.prunedHeight
      :: plan.files.map fun f => .deleteBlockFile f.1

/-- One write, with the bytes it frees. -/
def applyWrite (s : Storage) : PruneWrite → Except StorageError (Nat × Storage)
  | .removeBlockPos hash => .ok (0, { s with index := s.index.removeBlockPos hash })
  | .deleteUndo hash => .ok (0, { s with utxoSet := s.utxoSet.deleteUndo hash })
  | .setPrunedHeight height => .ok (0, { s with index := s.index.setPrunedHeight height })
  | .deleteBlockFile num => do
    let (size, blockStore) ← s.blockStore.deleteBlockFile num
    return (size, { s with blockStore := blockStore })

/-- Writes in sequence, up to the first that fails. -/
def applyWrites : List PruneWrite → Nat → Storage → Except StorageError Nat × Storage
  | [], freed, s => (.ok freed, s)
  | w :: ws, freed, s =>
    match s.applyWrite w with
    | .error e => (.error e, s)
    | .ok (size, s) => applyWrites ws (freed + size) s

/-- The first file that has to stay: the one of the first block above the
ceiling, or the current one. Unknown if that block is not stored. -/
def keepFile (s : Storage) (ceiling : Nat) : Option Nat :=
  (s.index.hashPosFile (ceiling + 1)).map fun num => min num s.blockStore.currentFileNum

/-- The lowest height not yet pruned. -/
def pruneStart (s : Storage) : Nat :=
  match s.index.prunedHeight with
  | some h => h + 1
  | none => 0

/-- Go through `n` heights from `height` on and remove the positions of the
blocks in doomed files, up to the first block in another file. The blocks
removed come back, and the last height gone through (`pruned`, if none is). -/
def pruneHeights (doomed : List Nat) : Nat → Nat → Nat → BlockIndex → List Hash × Nat
  | 0, _, pruned, _ => ([], pruned)
  | n + 1, height, pruned, ix =>
    match ix.getHashAtHeight height with
    | none => pruneHeights doomed n (height + 1) height ix
    | some hash =>
      match ix.getBlockPos hash with
      | none => pruneHeights doomed n (height + 1) height ix
      | some pos =>
        if pos.fileNum ∈ doomed then
          let (removed, pruned) :=
            pruneHeights doomed n (height + 1) height (ix.removeBlockPos hash)
          (hash :: removed, pruned)
        else ([], pruned)

/-- The numbers of a set of files as the code prints it. -/
def debugFiles (ρ : IterOrder Nat) (nums : List Nat) : String :=
  "\x7b" ++ ", ".intercalate ((ρ.order nums).map toString) ++ "\x7d"

/-- What a pass is going to do, if anything. A pass that would delete files
without finding an indexed block in them is refused. -/
def prunePlan (ρ : IterOrder Nat) (s : Storage) (ceiling target : Nat) :
    Except StorageError (Option PrunePlan) :=
  let files := s.blockStore.listBlockFiles
  if Shed.total Prod.snd files ≤ target then .ok none
  else match s.keepFile ceiling with
    | none => .ok none
    | some keep =>
      let doomed := Shed.shed Prod.snd (fun f => decide (f.1 < keep)) target files
      if doomed.isEmpty then .ok none
      else
        let start := s.pruneStart
        let (removed, pruned) :=
          pruneHeights (doomed.map Prod.fst) (ceiling + 1 - start) start (start - 1) s.index
        if pruned < start then
          .error (.serialization (s!"prune: no indexed blocks found in files "
            ++ debugFiles ρ (doomed.map Prod.fst) ++ "; refusing to delete"))
        else .ok (some ⟨removed, pruned, doomed⟩)

/-- **A pruning pass**: if the files exceed the target, delete the oldest ones
whose blocks are not above the ceiling. -/
def pruneBlockFiles (ρ : IterOrder Nat) (s : Storage) (ceiling target : Nat) :
    Except StorageError (Option PruneReport) × Storage :=
  match s.prunePlan ρ ceiling target with
  | .error e => (.error e, s)
  | .ok none => (.ok none, s)
  | .ok (some plan) =>
    match applyWrites plan.writes 0 s with
    | (.error e, s) => (.error e, s)
    | (.ok freed, s) => (.ok (some ⟨plan.files.length, freed, plan.prunedHeight⟩), s)

/-! ## What else happens to the stores -/

/-- Store a connected block: append it, record its position and make it
canonical at its height. What validation did to the coins is `utxoSet`. -/
def storeConnected (s : Storage) (hash : Hash) (len height : Nat) (utxoSet : UtxoSet) : Storage :=
  let (blockStore, pos) := s.blockStore.storeBlockAsync len
  ⟨blockStore, (s.index.setBlockPos hash pos).setHeightHash height hash, utxoSet⟩

/-- Open the stores again over what is on disk. -/
def reopen (s : Storage) : Storage :=
  { s with
    blockStore :=
      BlockStore.openWithMaxFileSize s.blockStore.listBlockFiles s.blockStore.maxFileSize }

end Storage
