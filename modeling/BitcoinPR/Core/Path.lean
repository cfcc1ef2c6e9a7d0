import BitcoinPR.Core.Reorg
import BitcoinPR.Lib.UndoLog

/-!
# Paths of blocks

A path of blocks, top first, from a first block up: each block is on the one
below it. What is unspent at its end is the replay of the path over nothing
(`replayPath`), so that a path says what any store that followed it holds.

`Chained` lists a path with the batches its blocks were committed with. Its
levels are those of an undo log: a batch binds what its block creates, unbinds
what it spends, and keeps the coins spent.
-/

variable [Hashing]

/-- **A path of blocks**, top first, from `genesis` up to `tip`. -/
def Linear (genesis : Hash) : List Block → Hash → Prop
  | [], tip => tip = genesis
  | block :: blocks, tip =>
    tip = block.blockHash ∧ Linear genesis blocks block.header.prevBlockhash

/-- **The coins of a path**, top first: starting from nothing, every block at
its height binds what it creates and unbinds what it spends. -/
def replayPath : List Block → OutPoint → Option UtxoEntry
  | [] => fun _ => none
  | block :: blocks =>
    PartialMap.eraseAll
      (PartialMap.putAll (replayPath blocks) (blockCoins (blocks.length + 1) block))
      (ChainState.spentOutpoints block)

/-- The hash of the block on top of a path. -/
def tipHash (genesis : Hash) : List Block → Hash
  | [] => genesis
  | block :: _ => block.blockHash

theorem height_of_mem_blockCoins {height : Nat} {block : Block} {p : OutPoint × UtxoEntry}
    (hp : p ∈ blockCoins height block) : p.2.height = height := by
  rw [blockCoins, List.mem_flatMap] at hp
  obtain ⟨t, ht, hp⟩ := hp
  obtain ⟨tx, -, i, rfl⟩ := mem_transfers ht
  exact (mem_createdCoins hp).1

/-- No coin is higher than the path. -/
theorem height_le_of_replayPath {blocks : List Block} {o : OutPoint} {e : UtxoEntry}
    (h : replayPath blocks o = some e) : e.height ≤ blocks.length := by
  induction blocks with
  | nil => cases h
  | cons block blocks ih =>
    rcases PartialMap.eraseAll_putAll_eq_some h with hin | hold
    · exact Nat.le_of_eq (height_of_mem_blockCoins hin)
    · exact Nat.le_succ_of_le (ih hold)

/-- **A path with the batches of its blocks**: each block is on the one below,
its batch was committed over what the path below leaves, and no two blocks
share a hash. -/
inductive Chained (genesis : Hash) : List (Block × UtxoBatch) → Prop
  | nil : Chained genesis []
  | cons {levels : List (Block × UtxoBatch)} {block : Block} {batch : UtxoBatch}
      (below : Chained genesis levels)
      (prev : block.header.prevBlockhash = tipHash genesis (levels.map Prod.fst))
      (committed : batch.Committed (replayPath (levels.map Prod.fst)) block (levels.length + 1))
      (unique : block.blockHash ∉ levels.map fun l => l.1.blockHash) :
      Chained genesis ((block, batch) :: levels)

omit [Hashing] in
/-- The level of an undo log that a batch is. -/
def UtxoBatch.level (batch : UtxoBatch) : UndoLog.Level OutPoint UtxoEntry :=
  ⟨batch.inserts, batch.undoCoins⟩

/-- The undo log of a path. -/
def undoLevels (levels : List (Block × UtxoBatch)) : List (UndoLog.Level OutPoint UtxoEntry) :=
  levels.map fun l => l.2.level

namespace Chained

variable {genesis : Hash} {above below levels : List (Block × UtxoBatch)}

theorem inv {l : Block × UtxoBatch} (h : Chained genesis (l :: levels)) :
    Chained genesis levels
      ∧ l.1.header.prevBlockhash = tipHash genesis (levels.map Prod.fst)
      ∧ l.2.Committed (replayPath (levels.map Prod.fst)) l.1 (levels.length + 1)
      ∧ l.1.blockHash ∉ levels.map fun l => l.1.blockHash := by
  cases h with
  | cons below prev committed unique => exact ⟨below, prev, committed, unique⟩

section

variable (h : Chained genesis (above ++ below))
include h

/-- The coins of a path are those of its lower part and the levels above. -/
theorem replayPath_append :
    replayPath ((above ++ below).map Prod.fst)
      = UndoLog.redoAll (undoLevels above) (replayPath (below.map Prod.fst)) := by
  induction above with
  | nil => rfl
  | cons l above ih =>
    rw [List.cons_append] at h
    obtain ⟨h, -, committed, -⟩ := h.inv
    have hacc := committed.accepted
    show replayPath (l.1 :: (above ++ below).map Prod.fst)
      = l.2.level.redo (UndoLog.redoAll (undoLevels above) _)
    rw [replayPath, List.length_map, ← hacc.inserts, ← hacc.removals, ← ih h,
      ← hacc.map_fst_undoCoins]
    rfl

theorem validOver :
    UndoLog.ValidOver (replayPath (below.map Prod.fst)) (undoLevels above) := by
  induction above with
  | nil => trivial
  | cons l above ih =>
    obtain ⟨h, -, committed, -⟩ := h.inv
    refine ⟨?_, ih h⟩
    show UndoLog.Level.Valid (UndoLog.redoAll (undoLevels above) _) _
    rw [← replayPath_append h]
    intro p hp
    obtain ⟨u, hu, rfl⟩ := List.mem_map.mp hp
    exact committed.accepted.coins u hu

theorem stamped :
    UndoLog.Stamped UtxoEntry.height below.length (undoLevels above) := by
  induction above with
  | nil => trivial
  | cons l above ih =>
    obtain ⟨h, -, committed, -⟩ := h.inv
    refine ⟨fun p hp => ?_, ih h⟩
    have hin : p ∈ blockCoins ((above ++ below).length + 1) l.1 :=
      committed.accepted.inserts ▸ hp
    show p.2.height = below.length + (undoLevels above).length + 1
    rw [height_of_mem_blockCoins hin, List.length_append, undoLevels, List.length_map,
      Nat.add_comm above.length]

end

end Chained
