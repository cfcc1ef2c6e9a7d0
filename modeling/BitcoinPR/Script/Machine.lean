import BitcoinPR.Core.Script
import BitcoinPR.Core.Validation
import BitcoinPR.Lib.Program

/-!
# The stack machine both script interpreters run on

The node has two interpreters, one for legacy and version-0 witness scripts and
one for tapscript. They share what is here: the bytes opcodes are written with,
the numbers on the stack, the two stacks with the nesting of branches, and the
two lock-time opcodes, whose bodies the interpreters have word for word.

A stack is a list with its top first; the code keeps it the other way round. A
number on the stack is at most five bytes long, so that the arithmetic of the
code never leaves 64 bits and numbers are plain integers here.

Digests, keys, signatures and the messages they sign are a parameter
(`ScriptCrypto`), each with the error text of the library that computes it.
-/

/-- The hash types of an ECDSA signature. -/
inductive EcdsaSighashType where
  | all
  | none
  | single
  | allPlusAnyoneCanPay
  | nonePlusAnyoneCanPay
  | singlePlusAnyoneCanPay
deriving DecidableEq, Repr

/-- The hash type of a byte: two of its bits are ignored, and what is left is taken for
`SIGHASH_ALL` if it is none of the types. -/
def EcdsaSighashType.fromConsensus (n : UInt8) : EcdsaSighashType :=
  match n &&& 0x9f with
  | 0x01 => .all
  | 0x02 => .none
  | 0x03 => .single
  | 0x81 => .allPlusAnyoneCanPay
  | 0x82 => .nonePlusAnyoneCanPay
  | 0x83 => .singlePlusAnyoneCanPay
  | masked => if masked &&& 0x80 = 0x80 then .allPlusAnyoneCanPay else .all

/-- The hash types of a Schnorr signature. -/
inductive TapSighashType where
  | default
  | all
  | none
  | single
  | allPlusAnyoneCanPay
  | nonePlusAnyoneCanPay
  | singlePlusAnyoneCanPay
deriving DecidableEq, Repr

/-- The hash type of a byte, which has to be one of the seven. -/
def TapSighashType.fromConsensusU8 (hashTy : UInt8) : Except String TapSighashType :=
  match hashTy with
  | 0x00 => .ok .default
  | 0x01 => .ok .all
  | 0x02 => .ok .none
  | 0x03 => .ok .single
  | 0x81 => .ok .allPlusAnyoneCanPay
  | 0x82 => .ok .nonePlusAnyoneCanPay
  | 0x83 => .ok .singlePlusAnyoneCanPay
  | x => .error s!"invalid sighash type {x}"

/-- **The cryptography of scripts**, as uninterpreted functions. A key, a
signature and a message are given by their bytes, as parsed. -/
class ScriptCrypto where
  ripemd160 : Bytes → Bytes
  sha1 : Bytes → Bytes
  sha256 : Bytes → Bytes
  hash160 : Bytes → Bytes
  hash256 : Bytes → Bytes
  publicKey : Bytes → Except String Bytes
  fromDer : Bytes → Except String Bytes
  fromDerLax : Bytes → Except String Bytes
  normalizeS : Bytes → Bytes
  verifyEcdsa : Bytes → Bytes → Bytes → Except String Unit
  /-- The digest a legacy signature signs: transaction, input, script code and
  the byte of the signature hash type. -/
  legacySignatureHash : Tx → Nat → Bytes → UInt8 → Except String Bytes
  /-- The digest of BIP 143 for a witness script. -/
  p2wshSignatureHash : Tx → Nat → Bytes → UInt64 → EcdsaSighashType → Except String Bytes
  /-- The digest of BIP 143 for a key hash. -/
  p2wpkhSignatureHash : Tx → Nat → Bytes → UInt64 → EcdsaSighashType → Except String Bytes
  xOnlyPublicKey : Bytes → Except String Bytes
  schnorrSignature : Bytes → Except String Bytes
  /-- The digest of BIP 341: transaction, input, the outputs spent, the annex,
  the leaf with the position of the last code separator, and the type. -/
  taprootSighash : Tx → Nat → List TxOut → Option Bytes → Option (Bytes × Nat) →
    TapSighashType → Except String Bytes
  verifySchnorr : Bytes → Bytes → Bytes → Except String Unit
  /-- The leaf version of a control block. -/
  controlBlock : Bytes → Except String UInt8
  verifyTaprootCommitment : Bytes → Bytes → Bytes → Bool
  tapLeafHash : Bytes → Bytes

namespace Script

/-- A script that fails. -/
def fail {α : Type} (msg : String) : Except CoreError α := .error (.invalidScript msg)

/-- The instructions of a script, up to a truncated push. -/
def parse (script : Bytes) : List Instruction := (instructions script.length script).1

/-- Whether no push is truncated. -/
def parses (script : Bytes) : Bool := (instructions script.length script).2

/-! ## Opcodes -/

/-- What an opcode byte stands for. The branch opcodes, the signature opcodes
and the code separator are handled by the interpreters themselves. -/
inductive Opcode where
  | zero
  | oneNegate
  /-- `OP_1` to `OP_16`. -/
  | number (n : UInt8)
  /-- `OP_NOP`, `OP_NOP1` and `OP_NOP4` to `OP_NOP10`. -/
  | nop
  | opIf
  | notIf
  | opElse
  | endIf
  | verify
  | opReturn
  | toAltStack
  | fromAltStack
  | twoDrop
  | twoDup
  | threeDup
  | twoOver
  | twoRot
  | twoSwap
  | ifDup
  | depth
  | drop
  | dup
  | nip
  | over
  | pick
  | roll
  | rot
  | swap
  | tuck
  | size
  | equal
  | equalVerify
  | oneAdd
  | oneSub
  | negate
  | abs
  | not
  | zeroNotEqual
  | add
  | sub
  | boolAnd
  | boolOr
  | numEqual
  | numEqualVerify
  | numNotEqual
  | lessThan
  | greaterThan
  | lessThanOrEqual
  | greaterThanOrEqual
  | min
  | max
  | within
  | ripemd160
  | sha1
  | sha256
  | hash160
  | hash256
  | codeSeparator
  | checkSig
  | checkSigVerify
  | checkMultiSig
  | checkMultiSigVerify
  | checkLockTimeVerify
  | checkSequenceVerify
  | checkSigAdd
  | unknown
deriving DecidableEq, Repr

/-- The opcode of a byte. -/
def Opcode.ofByte (code : UInt8) : Opcode :=
  match code.toNat with
  | 0x00 => .zero
  | 0x4f => .oneNegate
  | 0x61 => .nop
  | 0x63 => .opIf
  | 0x64 => .notIf
  | 0x67 => .opElse
  | 0x68 => .endIf
  | 0x69 => .verify
  | 0x6a => .opReturn
  | 0x6b => .toAltStack
  | 0x6c => .fromAltStack
  | 0x6d => .twoDrop
  | 0x6e => .twoDup
  | 0x6f => .threeDup
  | 0x70 => .twoOver
  | 0x71 => .twoRot
  | 0x72 => .twoSwap
  | 0x73 => .ifDup
  | 0x74 => .depth
  | 0x75 => .drop
  | 0x76 => .dup
  | 0x77 => .nip
  | 0x78 => .over
  | 0x79 => .pick
  | 0x7a => .roll
  | 0x7b => .rot
  | 0x7c => .swap
  | 0x7d => .tuck
  | 0x82 => .size
  | 0x87 => .equal
  | 0x88 => .equalVerify
  | 0x8b => .oneAdd
  | 0x8c => .oneSub
  | 0x8f => .negate
  | 0x90 => .abs
  | 0x91 => .not
  | 0x92 => .zeroNotEqual
  | 0x93 => .add
  | 0x94 => .sub
  | 0x9a => .boolAnd
  | 0x9b => .boolOr
  | 0x9c => .numEqual
  | 0x9d => .numEqualVerify
  | 0x9e => .numNotEqual
  | 0x9f => .lessThan
  | 0xa0 => .greaterThan
  | 0xa1 => .lessThanOrEqual
  | 0xa2 => .greaterThanOrEqual
  | 0xa3 => .min
  | 0xa4 => .max
  | 0xa5 => .within
  | 0xa6 => .ripemd160
  | 0xa7 => .sha1
  | 0xa8 => .sha256
  | 0xa9 => .hash160
  | 0xaa => .hash256
  | 0xab => .codeSeparator
  | 0xac => .checkSig
  | 0xad => .checkSigVerify
  | 0xae => .checkMultiSig
  | 0xaf => .checkMultiSigVerify
  | 0xb1 => .checkLockTimeVerify
  | 0xb2 => .checkSequenceVerify
  | 0xba => .checkSigAdd
  | n =>
    if 0x51 ≤ n ∧ n ≤ 0x60 then .number (code - 0x50)
    else if n = 0xb0 ∨ 0xb3 ≤ n ∧ n ≤ 0xb9 then .nop
    else .unknown

/-- Opcodes disabled since CVE-2010-5137. -/
def isDisabledOpcode (code : UInt8) : Bool :=
  let n := code.toNat
  decide (0x7e ≤ n ∧ n ≤ 0x81 ∨ 0x83 ≤ n ∧ n ≤ 0x86 ∨ n = 0x8d ∨ n = 0x8e ∨ 0x95 ≤ n ∧ n ≤ 0x99)

/-- The `OP_SUCCESS` opcodes of BIP 342. -/
def isTapscriptSuccessOpcode (code : UInt8) : Bool :=
  let n := code.toNat
  decide (n = 0x50 ∨ n = 0x62 ∨ 0x7e ≤ n ∧ n ≤ 0x81 ∨ 0x83 ≤ n ∧ n ≤ 0x86 ∨ n = 0x89 ∨ n = 0x8a
    ∨ n = 0x8d ∨ n = 0x8e ∨ 0x95 ≤ n ∧ n ≤ 0x99 ∨ 0xbb ≤ n ∧ n ≤ 0xfe)

/-! ## Numbers and booleans on the stack -/

/-- The bytes of a number, least significant first, without leading zeros. -/
def magnitude : Nat → Nat → Bytes
  | 0, _ => []
  | fuel + 1, n => if n = 0 then [] else UInt8.ofNat (n % 256) :: magnitude fuel (n / 256)

/-- Encode a number. Its magnitude has at most eight bytes. -/
def encodeNum (value : Int) : Bytes :=
  let result := magnitude 8 value.natAbs
  match result.getLast? with
  | none => []
  | some last =>
    if last &&& 0x80 != 0 then result ++ [if value < 0 then 0x80 else 0x00]
    else if value < 0 then result.dropLast ++ [last ||| 0x80]
    else result

/-- Decode a number of at most `maxSize` bytes; the highest bit is the sign. -/
def decodeNumBounded (data : Bytes) (maxSize : Nat) : Except CoreError Int :=
  match data.getLast? with
  | none => .ok 0
  | some last =>
    if maxSize < data.length then fail "number too large"
    else if last &&& 0x80 != 0 then
      .ok (-((ofLeBytes data - 0x80 * 256 ^ (data.length - 1) : Nat) : Int))
    else .ok (ofLeBytes data)

def decodeNum (data : Bytes) : Except CoreError Int := decodeNumBounded data 4

/-- A signed number as an index: a negative one becomes huge. -/
def asUsize (n : Int) : Nat := (n % 2 ^ 64).toNat

/-- A stack element as a boolean: zero and negative zero are false. -/
def castToBool : Bytes → Bool
  | [] => false
  | [b] => b != 0 && b != 0x80
  | b :: bs => b != 0 || castToBool bs

/-- A boolean as a number. -/
def ofBool (c : Prop) [Decidable c] : Int := if c then 1 else 0

/-- A boolean as a stack element. -/
def boolBytes (c : Prop) [Decidable c] : Bytes := if c then [1] else []

/-! ## Stacks -/

/-- Maximum combined size of the two stacks. -/
def maxStackSize : Nat := 1000

/-- Maximum size of a stack element that is pushed. -/
def maxScriptElementSize : Nat := 520

/-- Maximum size of a script outside tapscript. -/
def maxScriptSize : Nat := 10000

/-- **The machine**: the two stacks and, for every open branch, whether it is
taken; all innermost first. -/
structure Machine where
  stack : List Bytes
  altStack : List Bytes
  execStack : List Bool
deriving DecidableEq, Repr

namespace Machine

/-- A script starts with the stack it is given. -/
def start (stack : List Bytes) : Machine := ⟨stack, [], []⟩

/-- Whether every open branch is taken. -/
def executing (m : Machine) : Bool := m.execStack.all id

def push (m : Machine) (x : Bytes) : Machine := { m with stack := x :: m.stack }

/-- Pop the top element and go on with it. -/
def stackPop {α : Type} (m : Machine) (k : Bytes → Machine → Except CoreError α) :
    Except CoreError α :=
  match m.stack with
  | [] => fail "stack underflow"
  | x :: rest => k x { m with stack := rest }

/-- Pop `n` elements; the top comes first. -/
def stackPops {α : Type} (m : Machine) (n : Nat) (k : List Bytes → Machine → Except CoreError α) :
    Except CoreError α :=
  if m.stack.length < n then fail "stack underflow"
  else k (m.stack.take n) { m with stack := m.stack.drop n }

/-- Pop a number. -/
def popNum {α : Type} (m : Machine) (k : Int → Machine → Except CoreError α) :
    Except CoreError α :=
  m.stackPop fun x m => do k (← decodeNum x) m

/-- An opcode that replaces a number. -/
def unaryNum (m : Machine) (f : Int → Int) : Except CoreError Machine :=
  m.popNum fun a m => .ok (m.push (encodeNum (f a)))

/-- An opcode that replaces two numbers; the second operand is on top. -/
def binaryNum (m : Machine) (f : Int → Int → Int) : Except CoreError Machine :=
  m.popNum fun b m => m.popNum fun a m => .ok (m.push (encodeNum (f a b)))

/-- An opcode that replaces an element by its digest. -/
def digest (m : Machine) (f : Bytes → Bytes) : Except CoreError Machine :=
  m.stackPop fun data m => .ok (m.push (f data))

/-- The two stacks together stay within the limit. -/
def checkSize (m : Machine) : Except CoreError Unit :=
  rejectIf (maxStackSize < m.stack.length + m.altStack.length)
    (.invalidScript "stack size exceeded")

end Machine

/-! ## Lock times

Both opcodes compare an operand with fields of the transaction, and leave the
stack as it is. -/

/-- The input a script is run for; the code indexes without looking. -/
def inputAt (tx : Tx) (inputIndex : Nat) : Except CoreError TxIn :=
  match tx.input[inputIndex]? with
  | some input => .ok input
  | none => .error (.panic
      (s!"index out of bounds: the len is {tx.input.length} "
        ++ s!"but the index is {inputIndex}"))

/-- The operand of a lock-time opcode: the top of the stack, up to five bytes. -/
def lockOperand (stack : List Bytes) (empty negative : String) : Except CoreError Nat :=
  match stack with
  | [] => fail empty
  | top :: _ => do
    let n ← decodeNumBounded top 5
    rejectIf (n < 0) (.invalidScript negative)
    return n.toNat

/-- `OP_CHECKLOCKTIMEVERIFY` (BIP 65). -/
def checkLockTime (tx : Tx) (inputIndex : Nat) (stack : List Bytes) : Except CoreError Unit := do
  let locktime ← lockOperand stack "empty stack for CLTV" "negative locktime"
  let txLocktime := tx.lockTime.toNat
  rejectIf (decide (locktimeThreshold ≤ locktime) ≠ decide (locktimeThreshold ≤ txLocktime))
    (.invalidScript "CLTV: locktime type mismatch")
  rejectIf (txLocktime < locktime)
    (.invalidScript s!"CLTV: locktime {locktime} > tx locktime {txLocktime}")
  let input ← inputAt tx inputIndex
  rejectIf (input.sequence = 0xffffffff) (.invalidScript "CLTV: input sequence is final")

/-- `OP_CHECKSEQUENCEVERIFY` (BIP 112). -/
def checkSequence (tx : Tx) (inputIndex : Nat) (stack : List Bytes) : Except CoreError Unit := do
  let operand ← lockOperand stack "empty stack for CSV" "negative sequence"
  let sequence := UInt32.ofNat operand
  checkIf (¬ sequenceDisabled sequence) do
    let input ← inputAt tx inputIndex
    rejectIf (sequenceDisabled input.sequence)
      (.invalidScript "CSV: tx sequence has disable flag")
    rejectIf (sequenceTimeBased sequence ≠ sequenceTimeBased input.sequence)
      (.invalidScript "CSV: sequence type mismatch")
    let scriptValue := sequence &&& 0xffff
    let txValue := input.sequence &&& 0xffff
    rejectIf (txValue < scriptValue)
      (.invalidScript s!"CSV: required {scriptValue} > tx sequence {txValue}")

/-! ## A cryptography to compute with -/

/-- Digests are zero, every key and every signature is right, and a signature is
DER if it starts as one. -/
@[reducible] def sampleCrypto : ScriptCrypto where
  ripemd160 _ := List.replicate 20 0
  sha1 _ := List.replicate 20 0
  sha256 _ := List.replicate 32 0
  hash160 _ := List.replicate 20 0
  hash256 _ := List.replicate 32 0
  publicKey key := .ok key
  fromDer sig := if sig.head? = some 0x30 then .ok sig else .error "malformed signature"
  fromDerLax sig := .ok sig
  normalizeS sig := sig
  verifyEcdsa _ _ _ := .ok ()
  legacySignatureHash _ _ _ _ := .ok []
  p2wshSignatureHash _ _ _ _ _ := .ok []
  p2wpkhSignatureHash _ _ _ _ _ := .ok []
  xOnlyPublicKey key := .ok key
  schnorrSignature sig := .ok sig
  taprootSighash _ _ _ _ _ _ := .ok []
  verifySchnorr _ _ _ := .ok ()
  controlBlock control := .ok (control.headD 0 &&& 0xfe)
  verifyTaprootCommitment _ _ _ := true
  tapLeafHash _ := []

/-- A transaction with one input and nothing else. -/
def sampleTx (scriptSig : Bytes) (witness : List Bytes) : Tx :=
  ⟨2, 0, [⟨⟨0, 0⟩, scriptSig, 0xffffffff, witness⟩], []⟩

end Script
