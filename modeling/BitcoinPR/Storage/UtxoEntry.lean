import BitcoinPR.Primitives
import BitcoinPR.Lib.LittleEndian
import BitcoinPR.Lib.WriteBack

/-!
# Coins, on disk and in the cache

A coin is stored in two forms: as bytes on disk (`UtxoEntry.serialize`)
and as a `CompactCoin` in the read cache, which packs the height and the
coinbase flag into one 32-bit word and keeps short scripts inline. Both
lose something: the packed word drops the top bit of the height, and the
byte form truncates the length of a script of four gigabytes. The byte form
is faithful on the `Serializable` coins, the packed form on those of height
below `2 ^ 31`; a coin that is `Storable` survives both.
-/

open List

/-- Errors of the storage layer. -/
inductive StorageError where
  | database (msg : String)
  | io (msg : String)
  | serialization (msg : String)
  | notFound (msg : String)
  | rocksDb (msg : String)
  | missingColumnFamily (name : String)
deriving DecidableEq, Repr

/-- The text of a storage error. -/
def StorageError.display : StorageError → String
  | .database msg => s!"database error: {msg}"
  | .io msg => s!"I/O error: {msg}"
  | .serialization msg => s!"serialization error: {msg}"
  | .notFound msg => s!"key not found: {msg}"
  | .rocksDb msg => s!"rocksdb error: {msg}"
  | .missingColumnFamily name =>
    s!"missing column family: {name} (database created by an incompatible version?)"

/-- An unspent transaction output. -/
structure UtxoEntry where
  amount : UInt64
  scriptPubkey : Bytes
  height : Nat
  isCoinbase : Bool
deriving DecidableEq, Repr, Inhabited

namespace UtxoEntry

/-- **Serializable**: the height and the length of the byte form fit in 32
bits. -/
def Serializable (e : UtxoEntry) : Prop :=
  e.height < 2 ^ 32 ∧ e.scriptPubkey.length + 17 < 2 ^ 32

/-- **Storable**: serializable, and the height fits beside the coinbase flag
in 32 bits. -/
def Storable (e : UtxoEntry) : Prop :=
  e.height < 2 ^ 31 ∧ e.scriptPubkey.length + 17 < 2 ^ 32

instance (e : UtxoEntry) : Decidable e.Serializable :=
  inferInstanceAs (Decidable (_ ∧ _))

instance (e : UtxoEntry) : Decidable e.Storable :=
  inferInstanceAs (Decidable (_ ∧ _))

theorem Storable.serializable {e : UtxoEntry} (h : e.Storable) : e.Serializable :=
  ⟨Nat.lt_trans h.1 (by decide), h.2⟩

/-! ## The byte form -/

/-- Amount, height, coinbase flag, script length, script. -/
def serialize (e : UtxoEntry) : Bytes :=
  leBytes 8 e.amount.toNat ++ leBytes 4 e.height ++ [if e.isCoinbase then 1 else 0]
    ++ leBytes 4 e.scriptPubkey.length ++ e.scriptPubkey

/-- Read a coin back; bytes after the script are ignored. -/
def deserialize (data : Bytes) : Except StorageError UtxoEntry :=
  if data.length < 17 then
    .error (.serialization "UTXO entry too short")
  else
    let amount := ofLeBytes (data.take 8)
    let height := ofLeBytes ((data.drop 8).take 4)
    let isCoinbase := (data.drop 12).head?.any (· != 0)
    let scriptLen := ofLeBytes ((data.drop 13).take 4)
    if data.length < 17 + scriptLen then
      .error (.serialization "UTXO entry script truncated")
    else
      .ok ⟨UInt64.ofNat amount, (data.drop 17).take scriptLen, height, isCoinbase⟩

theorem length_serialize (e : UtxoEntry) :
    e.serialize.length = 17 + e.scriptPubkey.length := by
  simp only [serialize, length_append, length_leBytes, length_cons, length_nil]

/-- **A serializable coin survives the disk.** -/
theorem deserialize_serialize {e : UtxoEntry} (h : e.Serializable) :
    deserialize e.serialize = .ok e := by
  obtain ⟨amount, script, height, cb⟩ := e
  obtain ⟨hheight, hscript⟩ := h
  simp only at hheight hscript
  have hlen := length_serialize ⟨amount, script, height, cb⟩
  have hamt : ofLeBytes (leBytes 8 amount.toNat) = amount.toNat :=
    ofLeBytes_leBytes (Nat.lt_of_lt_of_eq amount.toNat_lt (by norm_num))
  have hhgt : ofLeBytes (leBytes 4 height) = height := ofLeBytes_leBytes (by omega)
  have hscr : ofLeBytes (leBytes 4 script.length) = script.length :=
    ofLeBytes_leBytes (by omega)
  -- the five fields are the consecutive slices of the byte string
  have h0 : (serialize ⟨amount, script, height, cb⟩).take 8 = leBytes 8 amount.toNat := by
    exact take_left' (length_leBytes 8 _)
  have h8 : (serialize ⟨amount, script, height, cb⟩).drop 8
      = leBytes 4 height ++ ([if cb then 1 else 0] ++ (leBytes 4 script.length ++ script)) := by
    exact drop_left' (length_leBytes 8 _)
  have h12 : (serialize ⟨amount, script, height, cb⟩).drop 12
      = [if cb then 1 else 0] ++ (leBytes 4 script.length ++ script) := by
    rw [show 12 = 8 + 4 from rfl, ← drop_drop]
    exact drop_left' (length_leBytes 4 _)
  have h13 : (serialize ⟨amount, script, height, cb⟩).drop 13
      = leBytes 4 script.length ++ script := by
    rfl
  have h17 : (serialize ⟨amount, script, height, cb⟩).drop 17 = script := by
    rw [show 17 = 13 + 4 from rfl, ← drop_drop]
    exact drop_left' (length_leBytes 4 _)
  have hcb : (([if cb then 1 else 0] ++ (leBytes 4 script.length ++ script)) : Bytes).head?.any
      (· != 0) = cb := by
    cases cb <;> rfl
  unfold deserialize
  rw [if_neg (by omega), h0, h8, h12, h13, h17, take_left' (length_leBytes 4 _),
    take_left' (length_leBytes 4 _), hamt, hhgt, hscr, hcb]
  simp only [hlen, Nat.lt_irrefl, if_false, UInt64.ofNat_toNat, take_length]

end UtxoEntry

/-! ## The packed form -/

/-- Scripts up to this length are stored inline in the cache. -/
def inlineScriptMax : Nat := 36

/-- Script storage for cached coins: a fixed buffer with a length, or the
script on the heap. -/
inductive CoinScript where
  | inline (len : Nat) (buf : Bytes)
  | heap (script : Bytes)
deriving DecidableEq, Repr

namespace CoinScript

/-- A short script is copied to the front of a zeroed buffer. -/
def new (script : Bytes) : CoinScript :=
  if script.length ≤ inlineScriptMax then
    inline script.length
      (script ++ List.replicate (inlineScriptMax - script.length) 0)
  else heap script

def asBytes : CoinScript → Bytes
  | inline len buf => buf.take len
  | heap script => script

@[simp] theorem asBytes_new (script : Bytes) : (new script).asBytes = script := by
  unfold new
  split
  · exact take_left
  · rfl

end CoinScript

/-- The cached form of a coin; `heightAndCoinbase` is a 32-bit word. -/
structure CompactCoin where
  amount : UInt64
  heightAndCoinbase : Nat
  script : CoinScript
deriving DecidableEq, Repr

namespace CompactCoin

/-- The height is shifted left by one in 32 bits: its top bit is lost. -/
def new (e : UtxoEntry) : CompactCoin :=
  ⟨e.amount, e.height * 2 % 2 ^ 32 + (if e.isCoinbase then 1 else 0),
    CoinScript.new e.scriptPubkey⟩

def toEntry (c : CompactCoin) : UtxoEntry :=
  ⟨c.amount, c.script.asBytes, c.heightAndCoinbase / 2, c.heightAndCoinbase % 2 != 0⟩

/-- **A coin of height below `2 ^ 31` survives the cache.** -/
theorem toEntry_new {e : UtxoEntry} (h : e.height < 2 ^ 31) : (new e).toEntry = e := by
  obtain ⟨amount, script, height, cb⟩ := e
  simp only at h
  have hmod : height * 2 % 2 ^ 32 = height * 2 := Nat.mod_eq_of_lt (by omega)
  unfold toEntry new
  simp only [CoinScript.asBytes_new, hmod]
  cases cb
  · simp
  · have h1 : (height * 2 + 1) / 2 = height := by omega
    have h2 : (height * 2 + 1) % 2 = 1 := by omega
    simp [h1, h2]

end CompactCoin

/-- Compact coins as a packing of coins. -/
def coinPacking : Packing UtxoEntry CompactCoin where
  pack := CompactCoin.new
  unpack := CompactCoin.toEntry
  Fits e := e.height < 2 ^ 31
  unpack_pack := fun _ h => CompactCoin.toEntry_new h
