import BitcoinPR.Storage.UtxoEntry
import BitcoinPR.Lib.Iteration

/-!
# The UTXO set

The store as the code has it: a write buffer of pending inserts and
tombstones, a capacity-bounded read cache of compact coins, and a database
with a column family for coins, one for undo records and one for the flush
metadata. Every operation passes the whole state along, and an operation
that iterates a hash map takes the order it is iterated in (`MapOrder`).

The database is assumed not to fail: the only storage error left is the
one the code raises itself, on bytes that do not parse.

A lookup that goes to disk also fills the cache, without regard for its
capacity; entries leave the cache when a batch removes them, when a batch
finds the cache over capacity (`maybeEvictCache`), and in no other way.
-/

/-- A spent coin, kept to undo the spend. -/
structure SpentUtxo where
  outpoint : OutPoint
  entry : UtxoEntry
deriving DecidableEq, Repr

/-- A batch of changes: coins to insert, outpoints to remove, and the
coins spent, for the undo record. -/
structure UtxoBatch where
  inserts : List (OutPoint × UtxoEntry)
  removals : List OutPoint
  spentUtxos : List SpentUtxo
deriving DecidableEq, Repr

def UtxoBatch.new : UtxoBatch := ⟨[], [], []⟩

/-- Blocks between automatic flushes. -/
def flushInterval : Nat := 10000

/-- The approximate cost in bytes of a buffered insert, without its script. -/
def insertBaseCost : Nat := 36 + 17 + 64

/-- The approximate cost of a tombstone. -/
def deletionCost : Nat := 36 + 48

/-- The approximate fixed cost of a buffered undo record. -/
def undoBaseCost : Nat := 32 + 48

/-- The bytes a flush chunk grows to before it is written. -/
def chunkTargetBytes : Nat := 128 * 1024 * 1024

def insertCost (e : UtxoEntry) : Nat := insertBaseCost + e.scriptPubkey.length

/-- The order in which the two hash maps of the store are iterated. -/
structure MapOrder where
  buffer : IterOrder OutPoint
  cache : IterOrder OutPoint

/-! ## The write buffer -/

/-- Changes waiting to be flushed; in `entries`, `none` is a tombstone. -/
structure WriteBuffer where
  entries : AList fun _ : OutPoint => Option UtxoEntry
  insertCount : Nat
  deletionCount : Nat
  undoBuffer : List (Hash × Bytes)
  bytes : Nat
  blocksSinceFlush : Nat
  pendingFlushHeight : Option Nat
  pendingFlushHash : Option Hash

namespace WriteBuffer

def new : WriteBuffer := ⟨∅, 0, 0, [], 0, 0, none, none⟩

/-- Buffer one insert, adjusting the accounting for what it replaces. -/
def insert (wb : WriteBuffer) (p : OutPoint × UtxoEntry) : WriteBuffer :=
  let wb' := match wb.entries.lookup p.1 with
    | some (some old) => { wb with bytes := wb.bytes - insertCost old }
    | some none => { wb with
        bytes := wb.bytes - deletionCost
        deletionCount := wb.deletionCount - 1
        insertCount := wb.insertCount + 1 }
    | none => { wb with insertCount := wb.insertCount + 1 }
  { wb' with
    entries := wb.entries.insert p.1 (some p.2)
    bytes := wb'.bytes + insertCost p.2 }

/-- Buffer one tombstone. -/
def remove (wb : WriteBuffer) (o : OutPoint) : WriteBuffer :=
  let wb' := match wb.entries.lookup o with
    | some (some old) => { wb with
        bytes := wb.bytes - insertCost old + deletionCost
        insertCount := wb.insertCount - 1
        deletionCount := wb.deletionCount + 1 }
    | some none => wb
    | none => { wb with
        deletionCount := wb.deletionCount + 1
        bytes := wb.bytes + deletionCost }
  { wb' with entries := wb.entries.insert o none }

/-- Inserts first, tombstones over them. -/
def applyBatch (wb : WriteBuffer) (b : UtxoBatch) : WriteBuffer :=
  let wb := b.removals.foldl remove (b.inserts.foldl insert wb)
  { wb with blocksSinceFlush := wb.blocksSinceFlush + 1 }

/-- The pending changes in iteration order. -/
def iter (wb : WriteBuffer) (ρ : IterOrder OutPoint) :
    List (OutPoint × Option UtxoEntry) :=
  (ρ.order wb.entries.keys).filterMap fun k => (wb.entries.lookup k).map (k, ·)

/-- The pending inserts in iteration order. -/
def pendingInserts (wb : WriteBuffer) (ρ : IterOrder OutPoint) :
    List (OutPoint × UtxoEntry) :=
  (wb.iter ρ).filterMap fun p => p.2.map (p.1, ·)

/-- The tombstones in iteration order. -/
def pendingDeletions (wb : WriteBuffer) (ρ : IterOrder OutPoint) : List OutPoint :=
  (wb.iter ρ).filterMap fun p => if p.2.isNone then some p.1 else none

/-- Everything but the pending height and hash is emptied by a flush. -/
def cleared (wb : WriteBuffer) : WriteBuffer :=
  { wb with
    entries := ∅, insertCount := 0, deletionCount := 0, undoBuffer := []
    bytes := 0, blocksSinceFlush := 0 }

end WriteBuffer

/-! ## The database -/

/-- The column families of the store. -/
structure UtxoDb where
  utxo : OutPoint → Option Bytes
  undo : Hash → Option Bytes
  flushHeight : Option Bytes
  flushHash : Option Bytes

/-- One operation of a write batch. -/
inductive DbOp where
  | putUtxo (k : OutPoint) (data : Bytes)
  | deleteUtxo (k : OutPoint)
  | putUndo (h : Hash) (data : Bytes)
  | putFlushHeight (data : Bytes)
  | putFlushHash (data : Bytes)
deriving DecidableEq, Repr

namespace UtxoDb

def empty : UtxoDb := ⟨fun _ => none, fun _ => none, none, none⟩

def apply (db : UtxoDb) : DbOp → UtxoDb
  | .putUtxo k data => { db with utxo := Function.update db.utxo k (some data) }
  | .deleteUtxo k => { db with utxo := Function.update db.utxo k none }
  | .putUndo h data => { db with undo := Function.update db.undo h (some data) }
  | .putFlushHeight data => { db with flushHeight := some data }
  | .putFlushHash data => { db with flushHash := some data }

/-- A write batch is applied as a whole. -/
def write (db : UtxoDb) (batch : List DbOp) : UtxoDb := batch.foldl apply db

/-- The value of a coin as its bytes are read back. -/
def coin (db : UtxoDb) (o : OutPoint) : Option UtxoEntry :=
  (db.utxo o).bind fun data => (UtxoEntry.deserialize data).toOption

/-- Every coin on disk is the byte form of a serializable coin. -/
def WellFormed (db : UtxoDb) : Prop :=
  ∀ o data, db.utxo o = some data → ∃ e : UtxoEntry, e.Serializable ∧ data = e.serialize

/-- Every coin on disk is the byte form of a storable coin. -/
def Storable (db : UtxoDb) : Prop :=
  ∀ o data, db.utxo o = some data → ∃ e : UtxoEntry, e.Storable ∧ data = e.serialize

end UtxoDb

/-! ## The store -/

/-- The store. -/
structure UtxoSet where
  db : UtxoDb
  cache : AList fun _ : OutPoint => CompactCoin
  cacheCapacity : Nat
  writeBuffer : WriteBuffer
  writeBufferBudget : Nat

namespace UtxoSet

/-- A store just opened over a database. -/
def openDb (db : UtxoDb) (cacheCapacity writeBufferBudget : Nat) : UtxoSet :=
  ⟨db, ∅, cacheCapacity, WriteBuffer.new, writeBufferBudget⟩

/-- Cache the coins of a list of outpoints as they are on disk; bytes that
do not parse are skipped. -/
def fillCache (s : UtxoSet) (os : List OutPoint) : UtxoSet :=
  { s with
    cache := os.foldl (fun c o =>
      match s.db.coin o with
      | some e => c.insert o (CompactCoin.new e)
      | none => c) s.cache }

/-- Look an outpoint up: buffer, cache, disk. A coin read from disk is
cached. -/
def get (s : UtxoSet) (o : OutPoint) :
    Except StorageError (Option UtxoEntry) × UtxoSet :=
  match s.writeBuffer.entries.lookup o with
  | some v => (.ok v, s)
  | none =>
    match s.cache.lookup o with
    | some c => (.ok (some c.toEntry), s)
    | none =>
      match s.db.utxo o with
      | none => (.ok none, s)
      | some data =>
        match UtxoEntry.deserialize data with
        | .error e => (.error e, s)
        | .ok e => (.ok (some e), { s with cache := s.cache.insert o (CompactCoin.new e) })

/-- Whether an outpoint is unspent; nothing is cached and no bytes are
parsed. -/
def contains (s : UtxoSet) (o : OutPoint) : Bool :=
  match s.writeBuffer.entries.lookup o with
  | some v => v.isSome
  | none => (s.cache.lookup o).isSome || (s.db.utxo o).isSome

/-- Fetch the coins that are neither buffered nor cached. -/
def prefetch (s : UtxoSet) (os : List OutPoint) : UtxoSet :=
  s.fillCache (os.filter fun o =>
    (s.writeBuffer.entries.lookup o).isNone && (s.cache.lookup o).isNone)

/-- Evict as many entries as the cache has over its capacity. -/
def maybeEvictCache (s : UtxoSet) (ρ : MapOrder) : UtxoSet :=
  if s.cache.entries.length ≤ s.cacheCapacity then s
  else
    let toEvict := s.cache.entries.length - s.cacheCapacity
    { s with
      cache := ((ρ.cache.order s.cache.keys).take toEvict).foldl
        (fun c o => c.erase o) s.cache }

/-- Promote flushed inserts to the cache, until it is full. -/
def promote (cap : Nat) (cache : AList fun _ : OutPoint => CompactCoin) :
    List (OutPoint × Option UtxoEntry) → AList fun _ : OutPoint => CompactCoin
  | [] => cache
  | (o, v) :: rest =>
    if cap ≤ cache.entries.length then cache
    else match v with
      | some e => promote cap (cache.insert o (CompactCoin.new e)) rest
      | none => promote cap cache rest

/-- The inserts and undo records of a flush, cut into chunks. -/
def flushChunks (s : UtxoSet) (ρ : MapOrder) : Chunks DbOp :=
  Chunks.empty.pushAll chunkTargetBytes
    ((s.writeBuffer.pendingInserts ρ.buffer).map (fun p =>
        (DbOp.putUtxo p.1 p.2.serialize, 36 + p.2.serialize.length))
      ++ s.writeBuffer.undoBuffer.map (fun p => (DbOp.putUndo p.1 p.2, 32 + p.2.length)))

/-- What rides with the last chunk: the deletions, the flush height and the
flush hash. -/
def flushTail (s : UtxoSet) (ρ : MapOrder) : List DbOp :=
  (s.writeBuffer.pendingDeletions ρ.buffer).map DbOp.deleteUtxo
    ++ (s.writeBuffer.pendingFlushHeight.map fun h => DbOp.putFlushHeight (leBytes 4 h)).toList
    ++ (s.writeBuffer.pendingFlushHash.map fun h =>
        DbOp.putFlushHash (leBytes 32 h.toNat)).toList

/-- The write batches of a flush, in the order they are written. A crash
leaves a prefix of them on disk. -/
def flushWrites (s : UtxoSet) (ρ : MapOrder) : List (List DbOp) :=
  (s.flushChunks ρ).sealed ++ [(s.flushChunks ρ).current ++ s.flushTail ρ]

/-- Flush the write buffer to disk. -/
def flushToDisk (s : UtxoSet) (ρ : MapOrder) : UtxoSet :=
  if s.writeBuffer.entries.entries.isEmpty && s.writeBuffer.undoBuffer.isEmpty
      && s.writeBuffer.pendingFlushHeight.isNone then
    { s with writeBuffer := { s.writeBuffer with blocksSinceFlush := 0 } }
  else
    { s with
      db := (s.flushWrites ρ).foldl UtxoDb.write s.db
      cache := promote s.cacheCapacity s.cache (s.writeBuffer.iter ρ.buffer)
      writeBuffer := s.writeBuffer.cleared }

/-- The batch in the write buffer and out of the cache, before anything is
evicted or flushed. -/
def bufferBatch (s : UtxoSet) (b : UtxoBatch) : UtxoSet :=
  { s with
    writeBuffer := s.writeBuffer.applyBatch b
    cache := b.removals.foldl (fun c o => c.erase o) s.cache }

/-- A flush is due after `flushInterval` blocks or over the byte budget. -/
def shouldFlush (s : UtxoSet) : Bool :=
  decide (flushInterval ≤ s.writeBuffer.blocksSinceFlush)
    || decide (s.writeBufferBudget < s.writeBuffer.bytes)

/-- Apply a batch; the flag says whether the buffer was flushed. -/
def applyBatch (s : UtxoSet) (ρ : MapOrder) (b : UtxoBatch) : UtxoSet × Bool :=
  let s₁ := s.bufferBatch b
  let s₂ := s₁.maybeEvictCache ρ
  if s₁.shouldFlush then (s₂.flushToDisk ρ, true) else (s₂, false)

end UtxoSet
