import BitcoinPR.Core.Rollback
import BitcoinPR.Core.Runs
import BitcoinPR.Node.Fork
import BitcoinPR.Storage.TxIndex

/-!
# The transaction index and the chain

The index is written when a block is connected and deleted from when one is
disconnected. It is written apart from the coins and at once, while the coins
are flushed from time to time, so after a crash it is ahead of the chain that is
resumed. And a block that is rolled back by its undo record alone is taken off
the chain without the index being told.

`IndexedChain` is the chain state with its index. Besides it keeps the blocks
that make up the active chain, the blocks that did when the tip on disk was
flushed – this is where a restart resumes – and those that are *ahead*: taken
off the chain, by a rollback or a crash, with their entries still in the index.
If they are connected again before anything else is, the index follows the chain
(`IndexedChain.index_follows`). If the chain goes on with another block, their
entries stay for good.
-/

open List UtxoSet ChainState

/-- What happens to the chain. -/
inductive IndexEvent where
  | connect (env : Env) (block : Block) (height : UInt32)
  | disconnect (env : Env) (block : Block) (height : Nat)
  /-- Roll the tip back with its undo record alone. -/
  | rollback
  | flush (env : Env)
  /-- A crash, and the node opens its stores again. -/
  | restart (cacheCapacity writeBufferBudget : Nat)
  /-- A backfill indexes what is stored for a height. -/
  | backfill (blocks : Hash → Option Block) (height : Nat)

/-- **A chain and its transaction index.** -/
structure IndexedChain where
  state : ChainState
  txIndex : TxIndex
  /-- The blocks of the active chain above the first, last first. -/
  connected : List Block
  /-- These blocks at the time the tip on disk was flushed. -/
  flushed : List Block
  /-- Blocks taken off the chain with their entries left in the index, last
  first; they were on top of `connected`. -/
  ahead : List Block
  /-- The length of the chain before the last crash or rollback. -/
  owed : Nat

namespace ChainState

/-- The tip on disk; the first block, if none has been flushed. -/
def flushedTip (s : ChainState) (genesis : Hash) : Hash × Nat :=
  match s.utxoSet.getFlushHeight, s.utxoSet.getFlushHash with
  | .ok (some height), .ok (some hash) => (hash, height)
  | _, _ => (genesis, 0)

/-- The tip is the one on disk. -/
def isFlushed (s : ChainState) : Bool :=
  match s.utxoSet.getFlushHeight, s.utxoSet.getFlushHash with
  | .ok (some height), .ok (some hash) => height == s.bestHeight && hash == s.bestHash
  | _, _ => false

/-- **Restart**: memory is lost, and the chain resumes from the last flushed
height. -/
def restart (s : ChainState) (genesis : Hash) (cacheCapacity writeBufferBudget : Nat) :
    ChainState :=
  { s with
    utxoSet := UtxoSet.openDb s.utxoSet.db cacheCapacity writeBufferBudget
    sigCache := SigCache.new 100000
    bestHeight := (s.flushedTip genesis).2
    bestHash := (s.flushedTip genesis).1
    bip110Cache := fun _ => none }

end ChainState

namespace IndexedChain

variable [Hashing]

/-- A chain at its first block, with an empty index. -/
def start (s : ChainState) : IndexedChain := ⟨s, TxIndex.empty, [], [], [], 0⟩

/-- Every block with entries in the index, last first. -/
def indexed (c : IndexedChain) : List Block := c.ahead ++ c.connected

/-- Note the chain if the tip is on disk. -/
def noteFlush (c : IndexedChain) : IndexedChain :=
  { c with flushed := if c.state.isFlushed then c.connected else c.flushed }

/-- A block has been connected and is indexed. -/
def connectedBy (c : IndexedChain) (block : Block) (height : Nat) (s : ChainState) : IndexedChain :=
  noteFlush { c with
    state := s
    txIndex := c.txIndex.indexBlock block height
    connected := block :: c.connected
    ahead := if c.ahead.getLast? = some block then c.ahead.dropLast else c.ahead }

/-- A block has been disconnected and is deindexed. -/
def disconnectedBy (c : IndexedChain) (block : Block) (s : ChainState) : IndexedChain :=
  noteFlush { c with
    state := s
    txIndex := c.txIndex.deindexBlock block.txids
    connected := c.connected.tail }

/-- The tip has been rolled back with its undo record; the index is as it was. -/
def rolledBack (c : IndexedChain) (s : ChainState) : IndexedChain :=
  noteFlush { c with
    state := s
    connected := c.connected.tail
    ahead := c.ahead ++ c.connected.take 1
    owed := max c.owed c.connected.length }

/-- The node has been started again; the index is as it was. -/
def restarted (c : IndexedChain) (s : ChainState) : IndexedChain :=
  noteFlush { c with
    state := s
    connected := c.flushed
    ahead := c.indexed.take (c.indexed.length - c.flushed.length)
    owed := max c.owed c.connected.length }

/-- One event; `genesis` is the first block. -/
def step [ScriptEngine] (genesis : Block) (c : IndexedChain) : IndexEvent → IndexedChain
  | .connect env block height =>
    match c.state.connectBlock env block height.toNat with
    | (.ok _, s) => c.connectedBy block height.toNat s
    | (.error _, s) => { c with state := s }
  | .disconnect env block height =>
    match c.state.disconnectBlock env block height with
    | (.ok _, s) => c.disconnectedBy block s
    | (.error _, s) => { c with state := s }
  | .rollback =>
    match c.state.rollbackTip with
    | some s => c.rolledBack s
    | none => c
  | .flush env =>
    noteFlush { c with
      state := { c.state with utxoSet := c.state.utxoSet.flushToDisk env.order } }
  | .restart cacheCapacity writeBufferBudget =>
    c.restarted (c.state.restart genesis.blockHash cacheCapacity writeBufferBudget)
  | .backfill blocks height =>
    match c.state.headerIndex.getHashAtHeight height with
    | none => c
    | some hash =>
      match blocks hash with
      | none => c
      | some block => { c with
          txIndex := c.txIndex.indexBlockAtHeight hash block.txids height
            (computeTxLocations block) }

/-- A run of events. -/
def run [ScriptEngine] (genesis : Block) (c : IndexedChain) (events : List IndexEvent) :
    IndexedChain :=
  events.foldl (step genesis) c

/-- **At rest**: the chain is as long as it was before the last crash or
rollback. -/
def AtRest (c : IndexedChain) : Prop := c.owed ≤ c.connected.length

/-- The blocks of the active chain, last first. -/
def activeChain (genesis : Block) (c : IndexedChain) : List Block := c.connected ++ [genesis]

/-- **The event can happen**: a block is connected on the tip and disconnected as
it was connected, and the undo record of the tip names its parent. -/
def Possible (c : IndexedChain) : IndexEvent → Prop
  | .connect _ block height =>
    block.header.prevBlockhash = c.state.bestHash ∧ height.toNat = c.state.bestHeight + 1
  | .disconnect _ block _ => c.connected.head? = some block
  | .rollback => ∀ s, c.state.rollbackTip = some s →
      c.connected.head?.map (fun b => b.header.prevBlockhash) = some s.bestHash
  | _ => True

/-- **The index is told of everything**: a block is connected while others are
ahead only if it is the next of them; nothing is ahead when a block is
disconnected, and none of its transactions is in a lower block; a backfill finds
blocks that are indexed. -/
def Keeps (c : IndexedChain) : IndexEvent → Prop
  | .connect _ block _ => c.ahead = [] ∨ c.ahead.getLast? = some block
  | .disconnect _ block _ =>
    c.ahead = [] ∧ ∀ b ∈ c.connected.tail, ∀ txid ∈ block.txids, txid ∉ b.txids
  | .backfill blocks height =>
    ∀ hash block, c.state.headerIndex.getHashAtHeight height = some hash →
      blocks hash = some block → block.blockHash = hash ∧ block ∈ c.indexed
  | _ => True

omit [Hashing] in
theorem possible_rollback {c : IndexedChain} (h : c.state.rollbackTip.map bestHash
      = c.connected.head?.map fun b => b.header.prevBlockhash) : c.Possible .rollback := by
  intro s hs
  rw [← h, hs]
  rfl

/-- Every event of a run can happen. -/
def AllPossible [ScriptEngine] (genesis : Block) : IndexedChain → List IndexEvent → Prop
  | _, [] => True
  | c, e :: events => c.Possible e ∧ AllPossible genesis (c.step genesis e) events

/-- The index is told of everything in a run. -/
def AllKeep [ScriptEngine] (genesis : Block) : IndexedChain → List IndexEvent → Prop
  | _, [] => True
  | c, e :: events => c.Keeps e ∧ AllKeep genesis (c.step genesis e) events

/-- **What an event can do.** -/
inductive Stepped [ScriptEngine] (genesis : Block) (c : IndexedChain) :
    IndexEvent → IndexedChain → Prop where
  | connected {env : Env} {block : Block} {height : UInt32} {txids : List Hash} {s : ChainState}
      (h : c.state.connectBlock env block height.toNat = (.ok txids, s)) :
      Stepped genesis c (.connect env block height) (c.connectedBy block height.toNat s)
  | refused {env : Env} {block : Block} {height : UInt32} {s : ChainState}
      (h : ChainState.Rejected c.state s) :
      Stepped genesis c (.connect env block height) { c with state := s }
  | disconnected {env : Env} {block : Block} {height : Nat} {u : Unit} {s : ChainState}
      (h : c.state.disconnectBlock env block height = (.ok u, s)) :
      Stepped genesis c (.disconnect env block height) (c.disconnectedBy block s)
  | rolledBack {s : ChainState} (h : c.state.rollbackTip = some s) :
      Stepped genesis c .rollback (c.rolledBack s)
  | flushed {env : Env} :
      Stepped genesis c (.flush env) (noteFlush { c with
        state := { c.state with utxoSet := c.state.utxoSet.flushToDisk env.order } })
  | restarted {cacheCapacity writeBufferBudget : Nat} :
      Stepped genesis c (.restart cacheCapacity writeBufferBudget)
        (c.restarted (c.state.restart genesis.blockHash cacheCapacity writeBufferBudget))
  | backfilled {blocks : Hash → Option Block} {height : Nat} {hash : Hash} {block : Block}
      (hhash : c.state.headerIndex.getHashAtHeight height = some hash)
      (hblock : blocks hash = some block) :
      Stepped genesis c (.backfill blocks height) { c with
        txIndex := c.txIndex.indexBlockAtHeight hash block.txids height
          (computeTxLocations block) }
  | unchanged {e : IndexEvent} : Stepped genesis c e c

theorem stepped_step [ScriptEngine] (genesis : Block) (c : IndexedChain) (e : IndexEvent) :
    Stepped genesis c e (c.step genesis e) := by
  cases e with
  | connect env block height =>
    rcases hconnect : c.state.connectBlock env block height.toNat with ⟨_ | txids, s⟩
    · simp only [step, hconnect]
      exact .refused (rejected_of_connectBlock_eq_error hconnect)
    · simp only [step, hconnect]
      exact .connected hconnect
  | disconnect env block height =>
    rcases hdisconnect : c.state.disconnectBlock env block height with ⟨_ | u, s⟩
    · obtain rfl := disconnectBlock_of_error hdisconnect
      simp only [step, hdisconnect]
      exact .unchanged
    · simp only [step, hdisconnect]
      exact .disconnected hdisconnect
  | rollback =>
    rcases hroll : c.state.rollbackTip with _ | s
    · simp only [step, hroll]
      exact .unchanged
    · simp only [step, hroll]
      exact .rolledBack hroll
  | flush env => exact .flushed
  | restart cacheCapacity writeBufferBudget => exact .restarted
  | backfill blocks height =>
    rcases hhash : c.state.headerIndex.getHashAtHeight height with _ | hash
    · simp only [step, hhash]
      exact .unchanged
    · rcases hblock : blocks hash with _ | block
      · simp only [step, hhash, hblock]
        exact .unchanged
      · simp only [step, hhash, hblock]
        exact .backfilled hhash hblock

end IndexedChain

/-! ## The tip on disk -/

namespace UtxoSet

/-- The next flush is to record this tip. -/
def Pending (s : UtxoSet) (hash : Hash) (height : Nat) : Prop :=
  s.writeBuffer.pendingFlushHeight = some height ∧ s.writeBuffer.pendingFlushHash = some hash

/-- This tip is recorded. -/
def OnDisk (s : UtxoSet) (hash : Hash) (height : Nat) : Prop :=
  s.db.flushHeight = some (leBytes 4 height) ∧ s.db.flushHash = some (leBytes 32 hash.toNat)

/-- The two have the same tip on disk. -/
def SameDisk (s s' : UtxoSet) : Prop :=
  s'.db.flushHeight = s.db.flushHeight ∧ s'.db.flushHash = s.db.flushHash

variable {s : UtxoSet} {hash : Hash} {height : Nat}

/-- A flush records the tip it is to record. -/
theorem Pending.flushToDisk (h : s.Pending hash height) (ρ : MapOrder) :
    (s.flushToDisk ρ).Pending hash height ∧ (s.flushToDisk ρ).OnDisk hash height := by
  unfold UtxoSet.flushToDisk
  rw [if_neg (by simp [h.1])]
  refine ⟨⟨h.1, h.2⟩, ?_⟩
  simp only [foldl_flushWrites, h.1, h.2]
  exact ⟨rfl, rfl⟩

/-- A flush with no tip to record leaves the one on disk. -/
theorem sameDisk_flushToDisk (hheight : s.writeBuffer.pendingFlushHeight = none)
    (hhash : s.writeBuffer.pendingFlushHash = none) (ρ : MapOrder) :
    (s.flushToDisk ρ).writeBuffer.pendingFlushHeight = none
      ∧ (s.flushToDisk ρ).writeBuffer.pendingFlushHash = none
      ∧ SameDisk s (s.flushToDisk ρ) := by
  unfold flushToDisk SameDisk
  split
  · exact ⟨hheight, hhash, rfl, rfl⟩
  · simp only [foldl_flushWrites, hheight, hhash]
    exact ⟨hheight, hhash, rfl, rfl⟩

end UtxoSet

/-- The tip to be recorded is not part of a batch. -/
theorem WriteBuffer.pending_applyBatch (wb : WriteBuffer) (b : UtxoBatch) :
    ((wb.applyBatch b).pendingFlushHeight, (wb.applyBatch b).pendingFlushHash)
      = (wb.pendingFlushHeight, wb.pendingFlushHash) := by
  refine applyBatch_keeps (f := fun wb => (wb.pendingFlushHeight, wb.pendingFlushHash))
    (fun wb p => ?_) (fun wb o => ?_) (fun _ _ => rfl) wb b
  · unfold insert
    rcases wb.entries.lookup p.1 with _ | _ | old <;> rfl
  · unfold remove
    rcases wb.entries.lookup o with _ | _ | old <;> rfl

namespace UtxoSet

variable {s : UtxoSet} {hash : Hash} {height : Nat}

/-- **Applying a batch** leaves the tip on disk or records the one it is to
record. -/
theorem Pending.applyBatch (h : s.Pending hash height) (ρ : MapOrder) (b : UtxoBatch) :
    (s.applyBatch ρ b).1.Pending hash height
      ∧ (SameDisk s (s.applyBatch ρ b).1 ∨ (s.applyBatch ρ b).1.OnDisk hash height) := by
  have hr := recached_maybeEvictCache (s.bufferBatch b) ρ
  have hbuffer := Prod.mk.inj (s.writeBuffer.pending_applyBatch b)
  have hbuffered : ((s.bufferBatch b).maybeEvictCache ρ).Pending hash height := by
    unfold Pending
    rw [hr.writeBuffer]
    exact ⟨hbuffer.1.trans h.1, hbuffer.2.trans h.2⟩
  unfold UtxoSet.applyBatch
  simp only
  split
  · exact ⟨(hbuffered.flushToDisk ρ).1, Or.inr (hbuffered.flushToDisk ρ).2⟩
  · refine ⟨hbuffered, Or.inl ?_⟩
    unfold SameDisk
    rw [hr.db]
    exact ⟨rfl, rfl⟩

/-- A rollback writes coins and no tip. -/
theorem sameDisk_rollbackBlock {u : UtxoSet} {prev : Hash}
    (h : s.rollbackBlock hash = .ok (prev, u)) : SameDisk s u := by
  obtain ⟨loaded, hload, h⟩ := Except.bind_eq_ok.mp h
  rcases loaded with _ | ⟨spent, created, _ | parent⟩
  · cases h
  · cases h
  · obtain ⟨rfl, rfl⟩ := Prod.mk.inj (Except.ok.inj h)
    split
    · exact ⟨rfl, rfl⟩
    · unfold SameDisk deleteUndo
      rw [writeRollback_db]
      exact ⟨rfl, rfl⟩

end UtxoSet

namespace ChainState

variable {s s' : ChainState} {genesis hash : Hash} {height : Nat}

theorem isFlushed_of_onDisk (h : s.utxoSet.OnDisk s.bestHash s.bestHeight)
    (hlt : s.bestHeight < 2 ^ 32) : s.isFlushed = true := by
  have hheight : ofLeBytes (leBytes 4 s.bestHeight) = s.bestHeight :=
    ofLeBytes_leBytes (Nat.lt_of_lt_of_eq hlt (by norm_num))
  unfold isFlushed getFlushHeight getFlushHash
  simp only [h.1, h.2, length_leBytes, if_true, ofNat_ofLeBytes_hash, hheight, beq_self_eq_true,
    Bool.and_self]

theorem flushedTip_of_isFlushed (h : s.isFlushed = true) (genesis : Hash) :
    s.flushedTip genesis = (s.bestHash, s.bestHeight) := by
  unfold isFlushed at h
  unfold flushedTip
  split at h
  · rename_i height hash hheight hhash
    obtain ⟨rfl, rfl⟩ : height = s.bestHeight ∧ hash = s.bestHash := by
      simpa only [Bool.and_eq_true, beq_iff_eq] using h
    rfl
  · cases h

theorem flushedTip_of_sameDisk (h : SameDisk s.utxoSet s'.utxoSet) (genesis : Hash) :
    s'.flushedTip genesis = s.flushedTip genesis := by
  unfold flushedTip getFlushHeight getFlushHash
  rw [h.1, h.2]

/-- The height of a tip on disk fits in its four bytes. -/
theorem flushedTip_lt (s : ChainState) (genesis : Hash) : (s.flushedTip genesis).2 < 2 ^ 32 := by
  unfold flushedTip
  split
  · rename_i height hash hheight hhash
    unfold getFlushHeight at hheight
    split at hheight
    · cases hheight
    · rename_i data _
      split at hheight
      · rename_i hlen
        obtain rfl : ofLeBytes data = height := Option.some.inj (Except.ok.inj hheight)
        have hlt := ofLeBytes_lt data
        rw [hlen] at hlt
        exact Nat.lt_of_lt_of_eq hlt (by norm_num)
      · cases hheight
  · exact Nat.two_pow_pos 32

/-- **The tip moves**: it is to be recorded, and is recorded or not. -/
structure MovedTo (s : ChainState) (hash : Hash) (height : Nat) (s' : ChainState) : Prop where
  bestHash : s'.bestHash = hash
  bestHeight : s'.bestHeight = height
  pending : s'.utxoSet.Pending hash height
  disk : UtxoSet.SameDisk s.utxoSet s'.utxoSet ∨ s'.utxoSet.OnDisk hash height

variable [Hashing] {env : Env} {block : Block}

theorem movedTo_connectBlock [ScriptEngine] {txids : List Hash}
    (h : s.connectBlock env block height = (.ok txids, s')) :
    MovedTo s block.blockHash height s' ∧ block.txdata.length ≤ 2 ^ 32 := by
  obtain ⟨mtp, bip110, bipCache, batch, s₁, hcheck, -, -, hval, -, rfl⟩ :=
    connectBlock_eq_ok.mp h
  have hr := (rejected_validateTransactions hval).recached
  have hpending : ((s₁.utxoSet.storeUndo block.blockHash batch.spentUtxos
      (batch.inserts.map Prod.fst) block.header.prevBlockhash).setPendingFlushHeight height
      block.blockHash).Pending block.blockHash height := ⟨rfl, rfl⟩
  obtain ⟨hstill, hdisk⟩ := hpending.applyBatch env.order batch
  have hsame : UtxoSet.SameDisk s.utxoSet s₁.utxoSet := by
    unfold UtxoSet.SameDisk
    rw [hr.db]
    exact ⟨rfl, rfl⟩
  refine ⟨⟨rfl, rfl, hstill, hdisk.imp_left fun hd => ?_⟩, ?_⟩
  · exact ⟨hd.1.trans hsame.1, hd.2.trans hsame.2⟩
  · have hlen := block.length_txdata_le_weight
    have hweight := weight_le_of_checkBlock hcheck
    have hmax := s.params.maxBlockWeight.toNat_lt
    omega

/-- A disconnected tip is recorded at once. -/
theorem movedTo_disconnectBlock {u : Unit} (h : s.disconnectBlock env block height = (.ok u, s')) :
    MovedTo s block.header.prevBlockhash (s.bestHeight - 1) s'
      ∧ s'.utxoSet.OnDisk block.header.prevBlockhash (s.bestHeight - 1) := by
  obtain ⟨-, rfl, undo, -, rfl⟩ := disconnectBlock_eq_ok.mp h
  have hpending : (s.utxoSet.setPendingFlushHeight (s.bestHeight - 1)
      block.header.prevBlockhash).Pending block.header.prevBlockhash (s.bestHeight - 1) :=
    ⟨rfl, rfl⟩
  have happlied := (hpending.applyBatch env.order (reverseBatch block undo)).1
  have hdeleted : ((((s.utxoSet.setPendingFlushHeight (s.bestHeight - 1)
      block.header.prevBlockhash).applyBatch env.order (reverseBatch block undo)).1).deleteUndo
      block.blockHash).Pending block.header.prevBlockhash (s.bestHeight - 1) :=
    ⟨happlied.1, happlied.2⟩
  obtain ⟨hstill, hdisk⟩ := hdeleted.flushToDisk env.order
  exact ⟨⟨rfl, rfl, hstill, Or.inr hdisk⟩, hdisk⟩

omit [Hashing] in
theorem movedTo_rollbackTip (h : s.rollbackTip = some s') :
    MovedTo s s'.bestHash (s.bestHeight - 1) s' := by
  unfold rollbackTip at h
  split at h
  · cases h
  · rename_i prev u hroll
    obtain rfl := Option.some.inj h
    have hdisk := sameDisk_rollbackBlock hroll
    exact ⟨rfl, rfl, ⟨rfl, rfl⟩, Or.inl ⟨hdisk.1, hdisk.2⟩⟩

end ChainState

/-! ## The blocks are those of the chain -/

namespace IndexedChain

/-- The hash of the last of some blocks, or of the first block. -/
def tipHash [Hashing] (genesis : Block) : List Block → Hash
  | [] => genesis.blockHash
  | b :: _ => b.blockHash

/-- Each block names the one below it. -/
def Joined [Hashing] (genesis : Block) : List Block → Prop
  | [] => True
  | b :: blocks => b.header.prevBlockhash = tipHash genesis blocks ∧ Joined genesis blocks

variable [Hashing]

/-- The blocks lead to the tip, which is the one to be recorded. -/
structure Placed (genesis : Block) (c : IndexedChain) : Prop where
  bestHash : c.state.bestHash = tipHash genesis c.connected
  bestHeight : c.state.bestHeight = c.connected.length
  height_lt : c.state.bestHeight < 2 ^ 32
  joined : Joined genesis c.connected
  pending : (c.state.utxoSet.writeBuffer.pendingFlushHeight = none
      ∧ c.state.utxoSet.writeBuffer.pendingFlushHash = none)
    ∨ c.state.utxoSet.Pending c.state.bestHash c.state.bestHeight

/-- The blocks noted at the last flush lead to the tip on disk. -/
structure PlacedOnDisk (genesis : Block) (c : IndexedChain) : Prop where
  joined : Joined genesis c.flushed
  tip : c.state.flushedTip genesis.blockHash = (tipHash genesis c.flushed, c.flushed.length)

/-- **The chain is what the blocks say**, in memory and on disk. -/
structure Tracks (genesis : Block) (c : IndexedChain) : Prop where
  placed : c.Placed genesis
  onDisk : c.PlacedOnDisk genesis

variable {genesis : Block} {c : IndexedChain}

theorem tracks_noteFlush (h : c.Placed genesis)
    (hdisk : c.PlacedOnDisk genesis ∨ c.state.isFlushed = true) :
    c.noteFlush.Tracks genesis := by
  refine ⟨⟨h.bestHash, h.bestHeight, h.height_lt, h.joined, h.pending⟩, ?_⟩
  cases hflushed : c.state.isFlushed with
  | true =>
    have heq : c.noteFlush.flushed = c.connected := by
      unfold noteFlush
      simp only [hflushed, if_true]
    refine ⟨heq ▸ h.joined, ?_⟩
    rw [heq, ← h.bestHash, ← h.bestHeight]
    exact flushedTip_of_isFlushed hflushed genesis.blockHash
  | false =>
    have heq : c.noteFlush.flushed = c.flushed := by
      unfold noteFlush
      simp only [hflushed, Bool.false_eq_true, if_false]
    obtain hdisk | hdisk := hdisk
    · exact ⟨heq ▸ hdisk.joined, heq ▸ hdisk.tip⟩
    · rw [hflushed] at hdisk
      cases hdisk

variable {c' : IndexedChain}

section

variable (h : c.Tracks genesis) (hflushed : c'.flushed = c.flushed)
include h hflushed

/-- **The tip moves** to where other blocks lead. -/
theorem Tracks.moved {hash : Hash} {height : Nat}
    (hmoved : MovedTo c.state hash height c'.state)
    (hhash : hash = tipHash genesis c'.connected) (hheight : height = c'.connected.length)
    (hlt : height < 2 ^ 32) (hjoined : Joined genesis c'.connected) :
    c'.noteFlush.Tracks genesis := by
  obtain ⟨hbest, hbestHeight, hpending, hdisk⟩ := hmoved
  refine tracks_noteFlush ⟨hbest.trans hhash, hbestHeight.trans hheight, hbestHeight ▸ hlt, hjoined,
    Or.inr (by rw [hbest, hbestHeight]; exact hpending)⟩ ?_
  refine hdisk.imp (fun hd => ?_) fun hd => ?_
  · refine ⟨hflushed ▸ h.onDisk.joined, ?_⟩
    rw [flushedTip_of_sameDisk hd, hflushed]
    exact h.onDisk.tip
  · exact isFlushed_of_onDisk (by rw [hbest, hbestHeight]; exact hd) (hbestHeight ▸ hlt)

/-- **The tip is taken off**, one way or the other. -/
theorem Tracks.lowered {b : Block}
    (hmoved : MovedTo c.state b.header.prevBlockhash (c.state.bestHeight - 1) c'.state)
    (hhead : c.connected.head? = some b) (hconnected : c'.connected = c.connected.tail) :
    c'.noteFlush.Tracks genesis := by
  obtain ⟨rest, hrest⟩ := head?_eq_some_iff.mp hhead
  have hlt := h.placed.height_lt
  have hjoined := h.placed.joined
  have hlen := h.placed.bestHeight
  rw [hrest] at hjoined hlen hconnected
  refine h.moved hflushed hmoved ?_ ?_ (by omega) ?_
  · rw [hconnected]
    exact hjoined.1
  · rw [hconnected, hlen]
    rfl
  · rw [hconnected]
    exact hjoined.2

/-- The state changes in nothing that is tracked. -/
theorem Tracks.of_same (hbest : c'.state.bestHash = c.state.bestHash)
    (hheight : c'.state.bestHeight = c.state.bestHeight)
    (hbuffer : c'.state.utxoSet.writeBuffer = c.state.utxoSet.writeBuffer)
    (hdb : c'.state.utxoSet.db = c.state.utxoSet.db) (hconnected : c'.connected = c.connected) :
    c'.Tracks genesis := by
  have htip : c'.state.flushedTip genesis.blockHash = c.state.flushedTip genesis.blockHash :=
    flushedTip_of_sameDisk ⟨by rw [hdb], by rw [hdb]⟩ _
  refine ⟨⟨?_, ?_, ?_, ?_, ?_⟩, ?_, ?_⟩
  · rw [hbest, hconnected]
    exact h.placed.bestHash
  · rw [hheight, hconnected]
    exact h.placed.bestHeight
  · rw [hheight]
    exact h.placed.height_lt
  · rw [hconnected]
    exact h.placed.joined
  · unfold UtxoSet.Pending
    rw [hbuffer, hbest, hheight]
    exact h.placed.pending
  · rw [hflushed]
    exact h.onDisk.joined
  · rw [htip, hflushed]
    exact h.onDisk.tip

end

variable [ScriptEngine]

/-- **One event** that can happen keeps track of the chain. -/
theorem Tracks.stepped (h : c.Tracks genesis) {e : IndexEvent}
    (hstep : Stepped genesis c e c') (hpossible : c.Possible e) : c'.Tracks genesis := by
  have hp := h.placed
  cases hstep with
  | connected hconnect =>
    obtain ⟨hprev, hheight⟩ := hpossible
    exact h.moved rfl (movedTo_connectBlock hconnect).1 rfl
      (hheight.trans (congrArg (· + 1) hp.bestHeight)) (UInt32.toNat_lt _)
      ⟨hprev.trans hp.bestHash, hp.joined⟩
  | refused hrej =>
    exact h.of_same rfl hrej.bestHash hrej.bestHeight hrej.recached.writeBuffer hrej.recached.db rfl
  | disconnected hdisconnect =>
    exact h.lowered rfl (movedTo_disconnectBlock hdisconnect).1 hpossible rfl
  | rolledBack hroll =>
    obtain ⟨b, hhead, hb⟩ := Option.map_eq_some_iff.mp (hpossible _ hroll)
    refine h.lowered (b := b) rfl ?_ hhead rfl
    rw [hb]
    exact movedTo_rollbackTip hroll
  | flushed =>
    refine tracks_noteFlush ⟨hp.bestHash, hp.bestHeight, hp.height_lt, hp.joined, ?_⟩ ?_
    · refine hp.pending.imp (fun hnone => ?_) fun hpending => (hpending.flushToDisk _).1
      have hkept := sameDisk_flushToDisk hnone.1 hnone.2
      exact ⟨(hkept _).1, (hkept _).2.1⟩
    · refine hp.pending.imp (fun hnone => ⟨h.onDisk.joined, ?_⟩) fun hpending =>
        isFlushed_of_onDisk (hpending.flushToDisk _).2 hp.height_lt
      have hkept := sameDisk_flushToDisk hnone.1 hnone.2
      exact (flushedTip_of_sameDisk (hkept _).2.2 _).trans h.onDisk.tip
  | restarted =>
    have htip := Prod.mk.inj h.onDisk.tip
    exact tracks_noteFlush ⟨htip.1, htip.2, flushedTip_lt _ _, h.onDisk.joined,
      Or.inl ⟨rfl, rfl⟩⟩ (Or.inl ⟨h.onDisk.joined,
        (flushedTip_of_sameDisk ⟨rfl, rfl⟩ _).trans h.onDisk.tip⟩)
  | backfilled hhash hblock => exact h.of_same rfl rfl rfl rfl rfl rfl
  | unchanged => exact h

omit [ScriptEngine] in
/-- A chain at its first block. -/
theorem tracks_start {n : Network} {s : ChainState} (hs : s.Fresh n)
    (hbest : s.bestHash = genesis.blockHash) : (start s).Tracks genesis := by
  obtain ⟨cap, budget, hu⟩ := hs.utxoSet
  refine ⟨⟨hbest, hs.bestHeight, ?_, trivial, Or.inl ?_⟩, trivial, ?_⟩
  · show s.bestHeight < 2 ^ 32
    rw [hs.bestHeight]
    exact Nat.two_pow_pos 32
  · show s.utxoSet.writeBuffer.pendingFlushHeight = none
      ∧ s.utxoSet.writeBuffer.pendingFlushHash = none
    rw [hu]
    exact ⟨rfl, rfl⟩
  · show s.flushedTip genesis.blockHash = (genesis.blockHash, 0)
    unfold flushedTip
    rw [hu]
    rfl

/-! ## The index follows -/

/-- The index is about the blocks of the chain and those ahead of it. The chain
on disk is part of them, and while blocks are ahead the chain owes them. -/
structure InStep (c : IndexedChain) : Prop where
  length_le : ∀ b ∈ c.indexed, b.txdata.length ≤ 2 ^ 32
  flushed : c.flushed <:+ c.indexed
  owed : c.ahead ≠ [] → c.indexed.length ≤ c.owed
  follows : ∀ txid, IndexFollows c.txIndex c.indexed txid

omit [ScriptEngine] in
/-- Noting a flush, of the chain or of one below. -/
theorem inStep_noteFlush (hlength : ∀ b ∈ c.indexed, b.txdata.length ≤ 2 ^ 32)
    (hflushed : c.state.isFlushed = true ∨ c.flushed <:+ c.indexed)
    (howed : c.ahead ≠ [] → c.indexed.length ≤ c.owed)
    (hfollows : ∀ txid, IndexFollows c.txIndex c.indexed txid) : c.noteFlush.InStep := by
  refine ⟨hlength, ?_, howed, hfollows⟩
  unfold noteFlush
  cases hdisk : c.state.isFlushed with
  | true => exact suffix_append c.ahead c.connected
  | false =>
    rw [hdisk] at hflushed
    exact hflushed.resolve_left Bool.false_ne_true

omit [ScriptEngine] in
/-- Blocks come off without the index being told. -/
theorem InStep.ahead (h : c.InStep) (hindexed : c'.indexed = c.indexed)
    (hindex : c'.txIndex = c.txIndex) (hflushed : c'.flushed = c.flushed)
    (howed : c'.owed = max c.owed c.connected.length) : c'.noteFlush.InStep := by
  refine inStep_noteFlush ?_ (Or.inr ?_) (fun _ => ?_) ?_
  · rw [hindexed]
    exact h.length_le
  · rw [hindexed, hflushed]
    exact h.flushed
  · rw [hindexed, howed]
    -- either they were owed before, or they were the chain itself
    by_cases hahead : c.ahead = []
    · have heq : c.indexed = c.connected := by
        unfold indexed
        rw [hahead, nil_append]
      exact heq ▸ le_max_right _ _
    · exact (h.owed hahead).trans (le_max_left _ _)
  · rw [hindexed, hindex]
    exact h.follows

/-- **One event** of which the index is told. -/
theorem InStep.stepped (h : c.InStep) (ht : c.Tracks genesis) {e : IndexEvent}
    (hstep : Stepped genesis c e c') (hpossible : c.Possible e)
    (hkeeps : c.Keeps e) : c'.InStep := by
  cases hstep with
  | @connected env block height txids s hconnect =>
    have hlen := (movedTo_connectBlock hconnect).2
    have hfollows : ∀ txid, IndexFollows (c.txIndex.indexBlock block height.toNat)
        (block :: c.indexed) txid := fun txid => (h.follows txid).index _ hlen
    have hlength : ∀ b ∈ block :: c.indexed, b.txdata.length ≤ 2 ^ 32 :=
      forall_mem_cons.mpr ⟨hlen, h.length_le⟩
    obtain hahead | hnext := hkeeps
    · have hempty : (if c.ahead.getLast? = some block then c.ahead.dropLast else c.ahead) = [] := by
        rw [hahead]
        rfl
      have hindexed : c.indexed = c.connected := congrArg (· ++ c.connected) hahead
      have hindexed' : (c.connectedBy block height.toNat s).indexed = block :: c.indexed := by
        rw [hindexed]
        exact congrArg (· ++ block :: c.connected) hempty
      refine inStep_noteFlush (hindexed' ▸ hlength) (Or.inr ?_) (fun hne => absurd hempty hne)
        (hindexed' ▸ hfollows)
      exact hindexed' ▸ h.flushed.trans (suffix_cons block c.indexed)
    · -- the block is the next of those ahead, and indexed once more
      have hindexed' : (c.connectedBy block height.toNat s).indexed = c.indexed := by
        show (if c.ahead.getLast? = some block then c.ahead.dropLast else c.ahead)
          ++ block :: c.connected = c.ahead ++ c.connected
        rw [if_pos hnext, append_cons, dropLast_append_getLast? block hnext]
      have hmem : block ∈ c.indexed := mem_append_left _ (mem_of_getLast? hnext)
      refine inStep_noteFlush (hindexed' ▸ h.length_le) (Or.inr (hindexed' ▸ h.flushed))
        (fun _ => ?_) (hindexed' ▸ fun txid => (h.follows txid).again _ hlen hmem)
      have hne : c.ahead ≠ [] := ne_nil_of_mem (mem_of_getLast? hnext)
      exact hindexed' ▸ h.owed hne
  | refused hrej => exact ⟨h.length_le, h.flushed, h.owed, h.follows⟩
  | @disconnected env block height u s hdisconnect =>
    obtain ⟨hahead, halone⟩ := hkeeps
    obtain ⟨rest, hrest⟩ := head?_eq_some_iff.mp hpossible
    have hindexed : c.indexed = block :: rest := by
      unfold indexed
      rw [hahead, nil_append, hrest]
    have hindexed' : (c.disconnectedBy block s).indexed = rest := by
      show c.ahead ++ c.connected.tail = rest
      rw [hahead, hrest]
      rfl
    rw [hrest] at halone
    -- the new tip is on disk, so what was flushed before no longer matters
    obtain ⟨hmoved, hdisk⟩ := movedTo_disconnectBlock hdisconnect
    have hflushed : s.isFlushed = true := by
      refine isFlushed_of_onDisk ?_ ?_
      · rw [hmoved.bestHash, hmoved.bestHeight]
        exact hdisk
      · have hlt := ht.placed.height_lt
        rw [hmoved.bestHeight]
        omega
    refine inStep_noteFlush (hindexed' ▸ fun b hb => ?_) (Or.inl hflushed)
      (fun hne => absurd hahead hne) (hindexed' ▸ fun txid => ?_)
    · exact h.length_le b (hindexed ▸ mem_cons_of_mem block hb)
    · exact (hindexed ▸ h.follows txid).deindex fun hin x hx => halone x hx txid hin
  | rolledBack hroll =>
    refine h.ahead ?_ rfl rfl rfl
    show c.ahead ++ c.connected.take 1 ++ c.connected.tail = c.ahead ++ c.connected
    rw [append_assoc, ← drop_one, take_append_drop]
  | flushed =>
    exact inStep_noteFlush h.length_le (Or.inr h.flushed) h.owed h.follows
  | restarted =>
    refine h.ahead ?_ rfl rfl rfl
    exact suffix_iff_eq_append.mp h.flushed
  | backfilled hhash hblock =>
    obtain ⟨rfl, hmem⟩ := hkeeps _ _ hhash hblock
    exact ⟨h.length_le, h.flushed, h.owed,
      fun txid => (h.follows txid).again _ (h.length_le _ hmem) hmem⟩
  | unchanged => exact h

/-- **Along a run** of which the index is told. -/
theorem InStep.run (h : c.InStep) (ht : c.Tracks genesis) {events : List IndexEvent}
    (hpossible : AllPossible genesis c events) (hkeep : AllKeep genesis c events) :
    (c.run genesis events).InStep := by
  induction events generalizing c with
  | nil => exact h
  | cons e events ih =>
    have hstep := stepped_step genesis c e
    exact ih (h.stepped ht hstep hpossible.1 hkeep.1) (ht.stepped hstep hpossible.1) hpossible.2
      hkeep.2

omit [ScriptEngine] in
theorem inStep_start (s : ChainState) : (start s).InStep :=
  ⟨fun b hb => (by cases hb), suffix_rfl, fun h => absurd rfl h, IndexFollows.empty⟩

omit [ScriptEngine] in
/-- At rest no block is ahead. -/
theorem InStep.ahead_eq_nil (h : c.InStep) (hrest : c.AtRest) : c.ahead = [] := by
  by_contra hne
  have howed := (h.owed hne).trans hrest
  have hpos := length_pos_iff.mpr hne
  unfold indexed at howed
  rw [length_append] at howed
  omega

/-- **The index follows the active chain**: after any run in which the index is
told of everything, once the chain is at rest, a lookup finds just the
transactions of the active chain, each where it is. The transactions of the
first block are never indexed. -/
theorem index_follows {n : Network} {s : ChainState} (hs : s.Fresh n)
    (hbest : s.bestHash = genesis.blockHash) {events : List IndexEvent}
    (hpossible : AllPossible genesis (start s) events) (hkeep : AllKeep genesis (start s) events)
    (hrest : ((start s).run genesis events).AtRest) {txid : Hash} (htxid : txid ∉ genesis.txids) :
    IndexFollows ((start s).run genesis events).txIndex
      (((start s).run genesis events).activeChain genesis) txid := by
  have hrun := (inStep_start s).run (tracks_start hs hbest) hpossible hkeep
  have hindexed : ((start s).run genesis events).indexed
      = ((start s).run genesis events).connected :=
    congrArg (· ++ _) (hrun.ahead_eq_nil hrest)
  exact (hindexed ▸ hrun.follows txid).append htxid

end IndexedChain

/-- The index follows the chain, however blocks are connected, disconnected and
rolled back, and whenever the node is started again. -/
def IndexAlwaysFollows : Prop :=
  ∀ [Hashing] [ScriptEngine] (n : Network) (genesis : Block) (s : ChainState)
    (events : List IndexEvent), s.Fresh n → s.bestHash = genesis.blockHash →
    IndexedChain.AllPossible genesis (.start s) events →
    ((IndexedChain.start s).run genesis events).AtRest → ∀ txid,
    IndexFollows ((IndexedChain.start s).run genesis events).txIndex
      (((IndexedChain.start s).run genesis events).activeChain genesis) txid

section Sample

open IndexedChain

attribute [local instance] sampleHashing sampleScripts

/-- A first block. -/
def firstBlock : Block := sampleBlock 0 1 0 0 1000 []

/-- Two blocks are connected, the second is rolled back with its undo record, and
another takes its place. -/
def replacedTip : List IndexEvent :=
  [.connect sampleEnv (sampleBlock 1 2 10 1 1001 []) 1,
    .connect sampleEnv (sampleBlock 2 3 11 2 1002 []) 2,
    .rollback,
    .connect sampleEnv (sampleBlock 2 4 12 2 1003 []) 2]

/-- The transaction of the block that was replaced is still found, in a block
that is on no chain. -/
theorem not_indexAlwaysFollows : ¬ IndexAlwaysFollows := by
  intro h
  have hpossible : AllPossible firstBlock (.start emptyChain) replacedTip :=
    ⟨⟨by decide +kernel, by decide +kernel⟩, ⟨by decide +kernel, by decide +kernel⟩,
      possible_rollback (by decide +kernel),
      ⟨by decide +kernel, by decide +kernel⟩, trivial⟩
  have hrest : ((start emptyChain).run firstBlock replacedTip).AtRest := by
    unfold AtRest
    decide +kernel
  obtain ⟨found, hget, hiff, -⟩ := h .regtest firstBlock emptyChain replacedTip fresh_emptyChain
    (by decide +kernel) hpossible hrest 1002
  have hfound : (((start emptyChain).run firstBlock replacedTip).txIndex.get
      1002).toOption = some (some ⟨3, 0, some (81, 63)⟩) := by decide +kernel
  rw [hget] at hfound
  have hsome : found.isSome := by
    rw [Option.some.inj hfound]
    rfl
  obtain ⟨b, hb, hin⟩ := hiff.mp hsome
  have hids : (((start emptyChain).run firstBlock replacedTip).activeChain
      firstBlock).map Block.txids = [[1003], [1001], [1000]] := by decide +kernel
  have hmem := mem_map_of_mem (f := Block.txids) hb
  rw [hids] at hmem
  simp only [mem_cons, not_mem_nil, or_false] at hmem
  rcases hmem with heq | heq | heq <;> rw [heq] at hin <;>
    exact absurd hin (by decide)

/-- Two blocks, the second rolled back and connected again before the node is
started anew. -/
theorem index_follows_again :
    IndexFollows
      ((IndexedChain.start emptyChain).run firstBlock
        [.connect sampleEnv (sampleBlock 1 2 10 1 1001 []) 1,
          .connect sampleEnv (sampleBlock 2 3 11 2 1002 []) 2, .rollback,
          .connect sampleEnv (sampleBlock 2 3 11 2 1002 []) 2, .restart 0 0]).txIndex
      (((IndexedChain.start emptyChain).run firstBlock
        [.connect sampleEnv (sampleBlock 1 2 10 1 1001 []) 1,
          .connect sampleEnv (sampleBlock 2 3 11 2 1002 []) 2, .rollback,
          .connect sampleEnv (sampleBlock 2 3 11 2 1002 []) 2, .restart 0 0]).activeChain
        firstBlock) 1002 := by
  refine index_follows fresh_emptyChain (by decide +kernel) ?_ ?_ ?_
    fun hin => absurd (mem_singleton.mp hin) (by decide +kernel)
  · exact ⟨⟨by decide +kernel, by decide +kernel⟩, ⟨by decide +kernel, by decide +kernel⟩,
      possible_rollback (by decide +kernel),
      ⟨by decide +kernel, by decide +kernel⟩, trivial, trivial⟩
  · exact ⟨Or.inl (by decide +kernel), Or.inl (by decide +kernel), trivial,
      Or.inr (by decide +kernel), trivial, trivial⟩
  · unfold AtRest
    decide +kernel

end Sample
