import BitcoinPR.Lib.Worklist
import BitcoinPR.Mempool.Policy

/-!
# The pool of unconfirmed transactions

The pool holds transactions by id and remembers which of them spends which
outpoint. Everything that leaves it goes through `removeEntry`, which keeps
that index and the running total of bytes in step; a transaction that leaves
without being confirmed takes its descendants along
(`removeWithDescendants`), one that a block confirms does not
(`removeForBlock`).

Families are walked along the index of spent outpoints, downwards, and along
the inputs, upwards, with a stack of transactions still to be looked at. The
stack is a list whose head is on top.

Fee rates are doubles in the code. Here they are any linear order with the
operations the code performs (`FeeRates`), about which nothing is assumed, so
that rounding is covered. Sizes of data structures in memory are those of a
64-bit target.
-/

/-- **Fee rates**, in satoshis per virtual byte. -/
class FeeRates (R : Type) extends LinearOrder R where
  /-- A fee over a virtual size. -/
  rate : UInt64 → Nat → R
  zero : R
  one : R
  plus : R → R → R
  /-- Halve a number of times. -/
  halve : R → Nat → R
  /-- The rate with a number of decimals, as error texts print it. -/
  display : Nat → R → String

/-- A transaction in the pool. -/
structure MempoolEntry (R : Type) where
  tx : Tx
  txid : Hash
  fee : UInt64
  size : Nat
  weight : Nat
  feeRate : R
  /-- When the transaction was added. -/
  time : Nat
  /-- The least block height at which all relative height locks are met. -/
  lockHeight : Nat
  /-- The least median time past at which all relative time locks are met. -/
  lockTime : Nat
deriving DecidableEq

/-- The pool. -/
structure Mempool (R : Type) where
  txs : AList fun _ : Hash => MempoolEntry R
  /-- Which transaction of the pool spends an outpoint. -/
  spentOutpoints : AList fun _ : OutPoint => Hash
  maxMemoryBytes : Nat
  totalTxBytes : Nat
  evictionFeeFloor : R
  evictionFloorTime : Nat

def minRelayFeeRate {R : Type} [FeeRates R] : R := FeeRates.one

def incrementalRelayFeeRate {R : Type} [FeeRates R] : R := FeeRates.one

def evictionFloorHalflifeSecs : Nat := 12 * 60 * 60

def maxRbfReplacements : Nat := 100

def maxAncestors : Nat := 25

def maxDescendants : Nat := 25

def defaultMempoolExpiry : Nat := 14 * 24 * 60 * 60

def hashmapEntryOverhead : Nat := 56

/-- Bytes of a transaction id. -/
def sizeOfTxid : Nat := 32

/-- Bytes of a pool entry, apart from what it points to. -/
def sizeOfMempoolEntry : Nat := 144

/-- Bytes of a slot of the index of spent outpoints. -/
def sizeOfSpentSlot : Nat := 68

namespace Mempool

variable {R : Type}

def new [FeeRates R] (maxMemoryBytes : Nat) : Mempool R :=
  ⟨∅, ∅, maxMemoryBytes, 0, FeeRates.zero, 0⟩

def get (pool : Mempool R) (txid : Hash) : Option (MempoolEntry R) := pool.txs.lookup txid

def contains (pool : Mempool R) (txid : Hash) : Bool := (pool.get txid).isSome

/-- The entries, in the order in which they are listed. -/
def entries (pool : Mempool R) : List (MempoolEntry R) := pool.txs.entries.map Sigma.snd

/-- The transaction of the pool that spends an outpoint. -/
def spender (pool : Mempool R) (o : OutPoint) : Option Hash := pool.spentOutpoints.lookup o

/-- The output of a transaction of the pool. -/
def poolOutput (pool : Mempool R) (o : OutPoint) : Option TxOut :=
  (pool.get o.txid).bind fun parent => parent.tx.output[o.vout.toNat]?

/-! ## Memory and fee floor -/

/-- The memory one entry takes. -/
def entryCost (inputs serializedSize : Nat) : Nat :=
  sizeOfTxid + sizeOfMempoolEntry + hashmapEntryOverhead
    + inputs * (sizeOfSpentSlot + hashmapEntryOverhead) + serializedSize

/-- The memory the entry of a transaction takes; none if it is not there. -/
def costOf (pool : Mempool R) (txid : Hash) : Nat :=
  (pool.get txid).elim 0 fun e => entryCost e.tx.input.length e.size

def memoryUsage (pool : Mempool R) : Nat :=
  pool.txs.entries.length * (sizeOfTxid + sizeOfMempoolEntry + hashmapEntryOverhead)
    + pool.spentOutpoints.entries.length * (sizeOfSpentSlot + hashmapEntryOverhead)
    + pool.totalTxBytes

/-- The least fee rate accepted: what evictions have raised it to, halved every
twelve hours, and never below the relay rate. -/
def feeFloor [FeeRates R] (pool : Mempool R) (now : Nat) : R :=
  if pool.evictionFeeFloor ≤ minRelayFeeRate then minRelayFeeRate
  else
    let elapsed := now - pool.evictionFloorTime
    let halvings := min (elapsed / evictionFloorHalflifeSecs) 63
    max (FeeRates.halve pool.evictionFeeFloor halvings) minRelayFeeRate

/-! ## Families -/

/-- The transactions that spend the outputs of a transaction, output by
output. -/
def spendersOf (pool : Mempool R) (txid : Hash) (outputs : Nat) : List Hash :=
  (List.range outputs).filterMap fun vout => pool.spender (Tx.outpoint txid vout)

/-- The children of a transaction of the pool. -/
def children (pool : Mempool R) (txid : Hash) : List Hash :=
  (pool.get txid).elim [] fun e => pool.spendersOf txid e.tx.output.length

/-- The ids a transaction of the pool spends outputs of. -/
def parents (pool : Mempool R) (txid : Hash) : List Hash :=
  (pool.get txid).elim [] fun e => e.tx.input.map fun i => i.previousOutput.txid

/-- All outputs of the pool: no more children than that. -/
def outputCount (pool : Mempool R) : Nat := (pool.entries.map fun e => e.tx.output.length).sum

/-- All inputs of the pool: no more parents than that. -/
def inputCount (pool : Mempool R) : Nat := (pool.entries.map fun e => e.tx.input.length).sum

/-- Add transactions and their descendants to those seen before. -/
def withDescendants (pool : Mempool R) (stack seen : List Hash) : List Hash :=
  Worklist.close pool.children (stack.length + pool.outputCount) stack seen

/-- The ancestors in the pool of a transaction. -/
def inMempoolAncestors (pool : Mempool R) (tx : Tx) : List Hash :=
  let stack := (tx.input.map fun i => i.previousOutput.txid).reverse
  (Worklist.close pool.parents (stack.length + pool.inputCount) stack []).filter
    fun txid => pool.contains txid

/-- Mark the transactions of a list that are not marked yet; they come back on
top of the stack. -/
def markNew : List Hash → List Hash → List Hash → List Hash × List Hash
  | visited, stack, [] => (visited, stack)
  | visited, stack, child :: rest =>
    if child ∈ visited then markNew visited stack rest
    else markNew (child :: visited) (child :: stack) rest

/-- Walk down from a stack of transactions, marking children as they are
found. -/
def markDescendants (pool : Mempool R) : Nat → List Hash → List Hash → List Hash
  | 0, _, visited => visited
  | _ + 1, [], visited => visited
  | fuel + 1, current :: stack, visited =>
    let (visited, stack) := markNew visited stack (pool.children current)
    markDescendants pool fuel stack visited

/-- The number of descendants of a transaction. Every transaction is pushed
once, so that the size of the pool is fuel enough. -/
def countDescendants (pool : Mempool R) (txid : Hash) : Nat :=
  (pool.markDescendants (pool.entries.length + 1) [txid] [txid]).length - 1

/-! ## Removing -/

/-- Remove one entry, with the outpoints it spends and its bytes. -/
def removeEntry (pool : Mempool R) (txid : Hash) : Option (MempoolEntry R) × Mempool R :=
  match pool.get txid with
  | none => (none, pool)
  | some entry =>
    (some entry, { pool with
      txs := pool.txs.erase txid
      spentOutpoints := entry.tx.input.foldl (fun m i => m.erase i.previousOutput)
        pool.spentOutpoints
      totalTxBytes := pool.totalTxBytes - entry.size })

def removeTransaction (pool : Mempool R) (txid : Hash) : Mempool R := (pool.removeEntry txid).2

/-- Remove entries one after the other. -/
def removeAll (pool : Mempool R) (txids : List Hash) : Mempool R :=
  txids.foldl removeTransaction pool

/-- Remove what is on the stack; whatever is removed pushes its children. -/
def removeLoop : Nat → List Hash → Mempool R → Nat → Nat × Mempool R
  | 0, _, pool, removed => (removed, pool)
  | _ + 1, [], pool, removed => (removed, pool)
  | fuel + 1, current :: stack, pool, removed =>
    match pool.removeEntry current with
    | (none, pool) => removeLoop fuel stack pool removed
    | (some entry, pool) =>
      let found := pool.spendersOf current entry.tx.output.length
      removeLoop fuel (found.reverse ++ stack) pool (removed + 1)

/-- **Remove a transaction with its descendants**; their number comes back. -/
def removeWithDescendants (pool : Mempool R) (txid : Hash) : Nat × Mempool R :=
  removeLoop (1 + pool.outputCount) [txid] pool 0

/-- Remove what spends one of the given inputs, except the transaction `txid`
itself. -/
def removeConflicts (txid : Hash) (pool : Mempool R) : List TxIn → Mempool R
  | [] => pool
  | input :: inputs =>
    match pool.spender input.previousOutput with
    | none => removeConflicts txid pool inputs
    | some conflicting =>
      if conflicting ≠ txid then
        removeConflicts txid (pool.removeWithDescendants conflicting).2 inputs
      else removeConflicts txid pool inputs

/-- What a block's transactions leave of the pool, transaction by
transaction. -/
def removeConfirmed (pool : Mempool R) : List (Tx × Hash) → Mempool R
  | [] => pool
  | (tx, txid) :: rest =>
    removeConfirmed (removeConflicts txid (pool.removeTransaction txid) tx.input) rest

/-- **Remove what a block confirms**, and what it makes impossible. -/
def removeForBlock (pool : Mempool R) (block : Block) (txids : List Hash) : Mempool R :=
  if pool.txs.entries.isEmpty && pool.spentOutpoints.entries.isEmpty then pool
  else pool.removeConfirmed (block.txdata.zip txids)

/-- Remove what has been in the pool for too long. -/
def expireOldTransactions (pool : Mempool R) (ρ : IterOrder (MempoolEntry R)) (now : Nat) :
    Mempool R :=
  ((ρ.order pool.entries).filter fun e => decide (defaultMempoolExpiry < now - e.time)).foldl
    (fun pool e => (pool.removeWithDescendants e.txid).2) pool

end Mempool

/-- Fee rates in whole satoshis. -/
@[reducible] def sampleRates : FeeRates Nat where
  rate fee vsize := fee.toNat / vsize
  zero := 0
  one := 1
  plus := (· + ·)
  halve r n := r / 2 ^ n
  display _ r := s!"{r}"
