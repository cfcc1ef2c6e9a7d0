import BitcoinPR.Core.Consensus
import BitcoinPR.Lib.Iteration

/-!
# Scripts as the block validator sees them

The script flags of a height, the signature-operation counts, the BIP-110
size rule for outputs and the cache of verified inputs. Script execution
itself is a parameter (`ScriptEngine`): block validation uses nothing of it
but the verdict on one input.
-/

/-- Which rules a script is verified under. -/
structure ScriptFlags where
  verifyP2sh : Bool
  verifyWitness : Bool
  verifyStrictenc : Bool
  verifyChecklocktimeverify : Bool
  verifyChecksequenceverify : Bool
  verifyTaproot : Bool
  verifyNulldummy : Bool
  verifyBip110 : Bool
deriving DecidableEq, Repr

namespace ScriptFlags

/-- A property of all flags is decided by trying them. -/
instance {P : ScriptFlags → Prop} [DecidablePred P] : Decidable (∀ f, P f) :=
  decidable_of_iff (∀ p2sh witness strictenc cltv csv taproot nulldummy bip110,
      P ⟨p2sh, witness, strictenc, cltv, csv, taproot, nulldummy, bip110⟩)
    ⟨fun h f => h f.1 f.2 f.3 f.4 f.5 f.6 f.7 f.8, fun h _ _ _ _ _ _ _ _ => h _⟩

/-- The flags packed into a bit mask. -/
def bits (f : ScriptFlags) : Nat :=
  f.verifyP2sh.toNat + f.verifyWitness.toNat * 2 + f.verifyStrictenc.toNat * 4
    + f.verifyChecklocktimeverify.toNat * 8 + f.verifyChecksequenceverify.toNat * 16
    + f.verifyTaproot.toNat * 32 + f.verifyBip110.toNat * 64 + f.verifyNulldummy.toNat * 128

/-- Every rule but BIP-110, which depends on the coin. -/
def all : ScriptFlags := ⟨true, true, true, true, true, true, true, false⟩

/-- No rule. -/
def none : ScriptFlags := ⟨false, false, false, false, false, false, false, false⟩

/-- The flags with BIP-110 on or off. -/
def withBip110 (f : ScriptFlags) (b : Bool) : ScriptFlags := { f with verifyBip110 := b }

/-- The flags of a block; `verifyBip110` is set later, input by input. -/
def forHeight (height blockTime : Nat) (p : ConsensusParams) : ScriptFlags where
  verifyP2sh := decide (p.bip16Time ≤ blockTime)
  verifyWitness := decide (p.segwitHeight ≤ height)
  verifyStrictenc := decide (p.bip66Height ≤ height)
  verifyChecklocktimeverify := decide (p.bip65Height ≤ height)
  verifyChecksequenceverify := decide (p.csvHeight ≤ height)
  verifyTaproot := decide (p.taprootHeight ≤ height)
  verifyNulldummy := decide (p.segwitHeight ≤ height)
  verifyBip110 := false

end ScriptFlags

/-- **Script execution**: the verdict on one input of a transaction, given the
outputs it spends. -/
class ScriptEngine where
  verifyScript : Tx → Nat → List TxOut → ScriptFlags → Except CoreError Unit

/-! ## Signature operations -/

/-- One instruction of a script. -/
inductive Instruction where
  | op (code : UInt8)
  | pushBytes (data : Bytes)
deriving DecidableEq, Repr

/-- Take a push of `len` bytes off a script. -/
def takePush (len : Nat) (rest : Bytes) : Option (Instruction × Bytes) :=
  if rest.length < len then none else some (.pushBytes (rest.take len), rest.drop len)

/-- The first instruction of a script; `none` when a push is truncated. -/
def nextInstruction (code : UInt8) (rest : Bytes) : Option (Instruction × Bytes) :=
  if code.toNat ≤ 0x4b then takePush code.toNat rest
  else if code = 0x4c then
    match rest with
    | a :: rest => takePush a.toNat rest
    | _ => none
  else if code = 0x4d then
    match rest with
    | a :: b :: rest => takePush (a.toNat + b.toNat * 256) rest
    | _ => none
  else if code = 0x4e then
    match rest with
    | a :: b :: c :: d :: rest =>
      takePush (a.toNat + b.toNat * 256 + c.toNat * 65536 + d.toNat * 16777216) rest
    | _ => none
  else some (.op code, rest)

/-- The instructions of a script, up to the first truncated push, and whether
there is none. Every instruction takes a byte, so that the length of the
script is fuel enough. -/
def instructions : Nat → Bytes → List Instruction × Bool
  | _, [] => ([], true)
  | 0, _ :: _ => ([], false)
  | fuel + 1, code :: rest =>
    match nextInstruction code rest with
    | none => ([], false)
    | some (i, rest) =>
      let (is, ok) := instructions fuel rest
      (i :: is, ok)

/-- Signature operations of a list of instructions; `lastOp` is the opcode
before it, zero after a push. -/
def sigopsOf (accurate : Bool) : UInt8 → List Instruction → Nat
  | _, [] => 0
  | _, .pushBytes _ :: is => sigopsOf accurate 0 is
  | lastOp, .op code :: is =>
    let n :=
      if code = 0xac ∨ code = 0xad then 1
      else if code = 0xae ∨ code = 0xaf then
        if accurate ∧ 0x51 ≤ lastOp ∧ lastOp ≤ 0x60 then (lastOp - 0x50).toNat else 20
      else 0
    n + sigopsOf accurate code is

/-- Signature operations of a script. -/
def countSigops (script : Bytes) (accurate : Bool) : Nat :=
  sigopsOf accurate 0 (instructions script.length script).1

/-- The last push of a push-only script: the redeem script of a P2SH input. -/
def lastPush : Option Bytes → List Instruction → Option Bytes
  | last, [] => last
  | _, .pushBytes data :: is => lastPush (some data) is
  | last, .op code :: is => if 0x60 < code then none else lastPush last is

def p2shRedeemScript (scriptSig : Bytes) : Option Bytes :=
  let (is, ok) := instructions scriptSig.length scriptSig
  if ok then lastPush none is else none

def isP2wpkh (script : Bytes) : Bool :=
  script.length == 22 && script[0]? == some 0x00 && script[1]? == some 0x14

def isP2wsh (script : Bytes) : Bool :=
  script.length == 34 && script[0]? == some 0x00 && script[1]? == some 0x20

/-- Witness signature operations of an input. -/
def witnessSigopCost (scriptPubkey scriptSig : Bytes) (witness : List Bytes) : Nat :=
  let program := if isP2sh scriptPubkey then p2shRedeemScript scriptSig else some scriptPubkey
  match program with
  | none => 0
  | some program =>
    if isP2wpkh program then 1
    else if isP2wsh program then
      match witness.getLast? with
      | some ws => countSigops ws true
      | none => 0
    else 0

/-! ## BIP-110 output sizes -/

def bip110MaxScriptPubkeySize : Nat := 34

def bip110MaxOpReturnSize : Nat := 83

/-- BIP-110 rule 1: the size limits of new output scripts. -/
def checkBip110OutputScripts (tx : Tx) : Except CoreError Unit :=
  match tx.output.find? fun o =>
      (if isOpReturn o.scriptPubkey then bip110MaxOpReturnSize else bip110MaxScriptPubkeySize)
        < o.scriptPubkey.length with
  | none => .ok ()
  | some o =>
    let len := o.scriptPubkey.length
    let limit :=
      if isOpReturn o.scriptPubkey then bip110MaxOpReturnSize else bip110MaxScriptPubkeySize
    let kind := if isOpReturn o.scriptPubkey then "OP_RETURN" else "non-OP_RETURN"
    .error (.invalidScript s!"BIP-110: output scriptPubKey of {len} bytes exceeds {limit} ({kind})")

/-! ## The cache of verified inputs -/

/-- The key of a verified input: the witness id, the input, the flags. -/
structure SigKey where
  wtxid : Hash
  vin : UInt32
  flags : Nat
deriving DecidableEq, Repr

/-- Verified inputs in 64 shards of bounded size, without repetition. -/
structure SigCache where
  shards : Nat → List SigKey
  maxPerShard : Nat

namespace SigCache

def sigCacheShards : Nat := 64

def new (maxSize : Nat) : SigCache := ⟨fun _ => [], max (maxSize / sigCacheShards) 1⟩

def key (wtxid : Hash) (vin : Nat) (flags : ScriptFlags) : SigKey :=
  ⟨wtxid, UInt32.ofNat vin, flags.bits⟩

/-- The shard of a key: its first byte modulo 64. -/
def shardOf (k : SigKey) : Nat := k.wtxid.toNat % 256 % sigCacheShards

def contains (c : SigCache) (k : SigKey) : Bool := decide (k ∈ c.shards (shardOf k))

/-- Insert a key. A full shard first loses the entry at a position drawn from
bytes 1 to 4 of the key, in the iteration order of the set. -/
def insert (c : SigCache) (ρ : IterOrder SigKey) (k : SigKey) : SigCache :=
  let set := c.shards (shardOf k)
  let idx := k.wtxid.toNat / 256 % 2 ^ 32 % set.length
  let set :=
    if c.maxPerShard ≤ set.length then
      match (ρ.order set)[idx]? with
      | some victim => set.filter fun x => x != victim
      | none => set
    else set
  let set := if k ∈ set then set else k :: set
  { c with shards := Function.update c.shards (shardOf k) set }

def clear (c : SigCache) : SigCache := { c with shards := fun _ => [] }

end SigCache
