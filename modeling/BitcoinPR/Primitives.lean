import Mathlib.Algebra.Order.BigOperators.Group.List
import Mathlib.Algebra.Order.Ring.Nat
import Mathlib.Data.List.Basic
import Mathlib.Data.Nat.Basic
import Mathlib.Order.Basic

/-!
# Transactions, blocks and their hashes

The data every other module is about: outpoints, transactions, headers and
blocks, with the fields of the wire types. Fixed-width fields keep their
width; scripts and witness items are byte strings.

Hashing is a parameter. `Hashing` names the three double-SHA256 uses the
node has – of a serialized transaction, of a block header, and of two
concatenated hashes – and nothing is assumed of them. A transaction's id
is the hash of its *stripped* form (`Tx.strip`) and its witness id the hash
of the whole, so two transactions that differ in their witnesses alone
have one id: that fact is definitional here, as it is on the wire.
-/

open List

/-- A 256-bit hash. As a number it is read little-endian, which is how
proof of work compares it with a target. -/
abbrev Hash := BitVec 256

instance : LawfulBEq Hash := inferInstance

/-- A byte string: a script, or a witness item. -/
abbrev Bytes := List UInt8

/-- A number in hexadecimal, padded with zeros to `w` digits. -/
def hexPad (w n : Nat) : String :=
  let ds := Nat.toDigits 16 n
  String.ofList (List.replicate (w - ds.length) '0' ++ ds)

namespace Hash

/-- The all-zero hash. -/
def allZeros : Hash := 0#256

/-- The display of a hash, most significant digit first. -/
def hex (h : Hash) : String := hexPad 64 h.toNat

end Hash

/-- A reference to a transaction output. -/
structure OutPoint where
  txid : Hash
  vout : UInt32
deriving DecidableEq, Repr, Inhabited

namespace OutPoint

/-- The outpoint a coinbase input carries. -/
def null : OutPoint := ⟨Hash.allZeros, 0xffffffff⟩

/-- `txid:vout`, as error texts print it. -/
def display (o : OutPoint) : String := s!"{Hash.hex o.txid}:{o.vout}"

end OutPoint

/-- A transaction input. -/
structure TxIn where
  previousOutput : OutPoint
  scriptSig : Bytes
  sequence : UInt32
  witness : List Bytes
deriving DecidableEq, Repr, Inhabited

/-- A transaction output; the value is in satoshis. -/
structure TxOut where
  value : UInt64
  scriptPubkey : Bytes
deriving DecidableEq, Repr, Inhabited

/-- A transaction. -/
structure Tx where
  version : Int32
  lockTime : UInt32
  input : List TxIn
  output : List TxOut
deriving DecidableEq, Repr, Inhabited

/-- A block header. -/
structure Header where
  version : Int32
  prevBlockhash : Hash
  merkleRoot : Hash
  time : UInt32
  bits : UInt32
  nonce : UInt32
deriving DecidableEq, Repr, Inhabited

/-- A block. -/
structure Block where
  header : Header
  txdata : List Tx
deriving DecidableEq, Repr, Inhabited

/-- **The hash functions** the node uses, as uninterpreted functions. -/
class Hashing where
  /-- The double hash of a serialized transaction. -/
  txHash : Tx → Hash
  /-- The double hash of an 80-byte header. -/
  headerHash : Header → Hash
  /-- The double hash of two concatenated hashes. -/
  hashPair : Hash → Hash → Hash

/-- The script bytes `OP_RETURN` starts with. -/
def isOpReturn (script : Bytes) : Bool := script.head? == some 0x6a

/-- Pay to script hash: `OP_HASH160 <20 bytes> OP_EQUAL`. -/
def isP2sh (script : Bytes) : Bool :=
  script.length == 23 && script[0]? == some 0xa9 && script[1]? == some 0x14
    && script[22]? == some 0x87

namespace TxIn

/-- The input without its witness. -/
def strip (i : TxIn) : TxIn := { i with witness := [] }

end TxIn

namespace Tx

/-- The transaction without its witnesses: what its id commits to. -/
def strip (t : Tx) : Tx := { t with input := t.input.map TxIn.strip }

@[simp] theorem strip_output (t : Tx) : t.strip.output = t.output := rfl

/-- A coinbase has one input, which spends nothing. -/
def isCoinbase (t : Tx) : Bool :=
  t.input.length == 1 && t.input.head?.any fun i => i.previousOutput == OutPoint.null

/-- The transaction id. -/
def computeTxid [Hashing] (t : Tx) : Hash := Hashing.txHash t.strip

/-- The witness transaction id. -/
def computeWtxid [Hashing] (t : Tx) : Hash := Hashing.txHash t

/-- The outpoint of output `vout` of the transaction with id `txid`. -/
def outpoint (txid : Hash) (vout : Nat) : OutPoint := ⟨txid, UInt32.ofNat vout⟩

end Tx

/-- The hash of a header, which is the hash of its block. -/
def Header.blockHash [Hashing] (h : Header) : Hash := Hashing.headerHash h

/-- The hash of a block is the hash of its header. -/
def Block.blockHash [Hashing] (b : Block) : Hash := b.header.blockHash

/-! ## Sizes and weight -/

/-- The length of a compact-size integer. -/
def varintSize (n : Nat) : Nat :=
  if n < 0xfd then 1 else if n ≤ 0xffff then 3 else if n ≤ 0xffffffff then 5 else 9

/-- The serialized length of a byte string with its length in front. -/
def Bytes.size (b : Bytes) : Nat := varintSize b.length + b.length

/-- The serialized length of an input, without its witness. -/
def TxIn.baseSize (i : TxIn) : Nat := 36 + Bytes.size i.scriptSig + 4

/-- The serialized length of a witness stack. -/
def TxIn.witnessSize (i : TxIn) : Nat :=
  varintSize i.witness.length + (i.witness.map Bytes.size).sum

/-- The serialized length of an output. -/
def TxOut.size (o : TxOut) : Nat := 8 + Bytes.size o.scriptPubkey

namespace Tx

/-- Whether the segregated-witness serialization is used: some witness is
there, or the input list is empty. -/
def usesSegwitSerialization (t : Tx) : Bool :=
  t.input.any (fun i => !i.witness.isEmpty) || t.input.isEmpty

/-- The serialized length without witnesses. -/
def baseSize (t : Tx) : Nat :=
  4 + varintSize t.input.length + (t.input.map TxIn.baseSize).sum
    + varintSize t.output.length + (t.output.map TxOut.size).sum + 4

/-- The serialized length. -/
def totalSize (t : Tx) : Nat :=
  if t.usesSegwitSerialization then
    t.baseSize + 2 + (t.input.map TxIn.witnessSize).sum
  else t.baseSize

/-- Weight: non-witness bytes count four times. -/
def weight (t : Tx) : Nat := t.baseSize * 3 + t.totalSize

end Tx

/-- The weight of a block: header and transaction count, four times, then
the transactions. -/
def Block.weight (b : Block) : Nat :=
  4 * (80 + varintSize b.txdata.length) + (b.txdata.map Tx.weight).sum

/-! Weight bounds what a block is made of. -/

theorem Tx.baseSize_le_totalSize (t : Tx) : t.baseSize ≤ t.totalSize := by
  unfold totalSize
  split <;> omega

theorem Tx.four_mul_baseSize_le_weight (t : Tx) : 4 * t.baseSize ≤ t.weight := by
  have h := t.baseSize_le_totalSize
  unfold weight
  omega

theorem Tx.length_input_add_length_output_le_baseSize (t : Tx) :
    t.input.length + t.output.length ≤ t.baseSize := by
  have hin : t.input.length ≤ (t.input.map TxIn.baseSize).sum := by
    rw [← length_map TxIn.baseSize]
    refine length_le_sum_of_one_le _ fun n hn => ?_
    obtain ⟨i, -, rfl⟩ := mem_map.mp hn
    unfold TxIn.baseSize
    omega
  have hout : t.output.length ≤ (t.output.map TxOut.size).sum := by
    rw [← length_map TxOut.size]
    refine length_le_sum_of_one_le _ fun n hn => ?_
    obtain ⟨o, -, rfl⟩ := mem_map.mp hn
    unfold TxOut.size
    omega
  unfold baseSize
  omega

theorem Tx.length_scriptPubkey_le_weight {t : Tx} {o : TxOut} (ho : o ∈ t.output) :
    4 * o.scriptPubkey.length ≤ t.weight := by
  have hsum : o.size ≤ (t.output.map TxOut.size).sum :=
    le_sum_of_mem (mem_map_of_mem ho)
  have hsize : o.scriptPubkey.length ≤ o.size := by
    unfold TxOut.size Bytes.size
    omega
  have hw := t.four_mul_baseSize_le_weight
  unfold baseSize at hw
  omega

theorem Block.weight_le_of_mem {b : Block} {t : Tx} (ht : t ∈ b.txdata) :
    t.weight ≤ b.weight := by
  have hsum : t.weight ≤ (b.txdata.map Tx.weight).sum :=
    le_sum_of_mem (mem_map_of_mem ht)
  unfold weight
  omega

/-- A block has at most as many transactions as its weight. -/
theorem Block.length_txdata_le_weight (b : Block) : b.txdata.length ≤ b.weight := by
  have hsum : b.txdata.length ≤ (b.txdata.map Tx.weight).sum := by
    rw [← length_map Tx.weight]
    refine length_le_sum_of_one_le _ fun n hn => ?_
    obtain ⟨t, -, rfl⟩ := mem_map.mp hn
    have hbase : 1 ≤ t.baseSize := by
      unfold Tx.baseSize
      omega
    have hweight := t.four_mul_baseSize_le_weight
    omega
  unfold weight
  omega

/-- A block has at most as many inputs and outputs as its weight. -/
theorem Block.sum_length_le_weight (b : Block) :
    (b.txdata.map fun t => t.input.length + t.output.length).sum ≤ b.weight := by
  have hsum : (b.txdata.map fun t => t.input.length + t.output.length).sum
      ≤ (b.txdata.map Tx.weight).sum := by
    refine sum_le_sum fun t _ => ?_
    have hbase := t.length_input_add_length_output_le_baseSize
    have hw := t.four_mul_baseSize_le_weight
    omega
  unfold weight
  omega
