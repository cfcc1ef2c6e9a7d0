import BitcoinPR.Script.Legacy

/-!
# The tapscript interpreter

`executeTapscript` runs a tapleaf script (BIP 342). It repeats the opcodes BIP
342 leaves unchanged, with texts and spellings of its own, and has the
signature opcodes of BIP 342: Schnorr signatures, a budget of 50 plus the size
of the witness from which every signature check takes 50, no multisignature
opcodes but `OP_CHECKSIGADD`. An `OP_SUCCESS` opcode ends the run at once, with
the stack as it is.

Here a push is measured in branches that are taken, and only there.

With BIP-110 a scan comes first, over the whole script: no `OP_SUCCESS` opcode
and no push of more than 256 bytes. In the loop `OP_IF` and `OP_NOTIF` fail where
they are executed.
-/

open Except

namespace Script

section Schnorr

variable [ScriptCrypto]

open ScriptCrypto

/-- An error of a library as an error of the script. -/
def orInvalid {α : Type} (x : Except String α) (msg : String) : Except CoreError α :=
  x.mapError fun e => .invalidScript (msg ++ e)

omit [ScriptCrypto] in
theorem orInvalid_eq_ok {α : Type} {x : Except String α} {msg : String} {a : α} :
    orInvalid x msg = .ok a ↔ x = .ok a := by
  cases x with
  | error e => exact iff_of_false (fun h => by cases h) fun h => by cases h
  | ok b => simp [orInvalid, Except.mapError]

/-- A Schnorr signature with its hash type: 64 bytes, or 65 with the type. -/
def parseSchnorrSig (sig : Bytes) : Except CoreError (Bytes × TapSighashType) :=
  let n := sig.length
  if n = 64 then do
    return (← orInvalid (schnorrSignature sig) "invalid Schnorr signature: ", .default)
  else if n = 65 then do
    let hashType ← orInvalid (TapSighashType.fromConsensusU8 (sig.getD 64 0))
      "invalid taproot sighash type: "
    return (← orInvalid (schnorrSignature (sig.take 64)) "invalid Schnorr signature: ", hashType)
  else if n = 0 then fail "empty signature"
  else fail s!"invalid Schnorr signature length: {n} (expected 64 or 65)"

/-- Verify a Schnorr signature over the digest of BIP 341: with a leaf for a
script, without one for a key. -/
def verifyTaprootSig (tx : Tx) (inputIndex : Nat) (prevouts : List TxOut) (key sig : Bytes)
    (annex : Option Bytes) (leaf : Option (Bytes × Nat)) (kind : String) :
    Except CoreError Unit := do
  let parsed ← parseSchnorrSig sig
  let msg ← orInvalid (taprootSighash tx inputIndex prevouts annex leaf parsed.2)
    (kind ++ " sighash error: ")
  orInvalid (verifySchnorr parsed.1 msg key) "Schnorr signature verification failed: "

def verifyTaprootKeySpend (tx : Tx) (inputIndex : Nat) (prevouts : List TxOut)
    (outputKey sig : Bytes) (annex : Option Bytes) : Except CoreError Unit :=
  verifyTaprootSig tx inputIndex prevouts outputKey sig annex none "taproot"

def verifyTaprootScriptSig (tx : Tx) (inputIndex : Nat) (prevouts : List TxOut)
    (pubkey sig : Bytes) (tapLeaf : Bytes) (codesepPos : Nat) (annex : Option Bytes) :
    Except CoreError Unit :=
  verifyTaprootSig tx inputIndex prevouts pubkey sig annex (some (tapLeaf, codesepPos)) "tapscript"

end Schnorr

namespace Tapscript

/-- What a run reads. -/
structure Context where
  tx : Tx
  inputIndex : Nat
  prevouts : List TxOut
  tapLeaf : Bytes
  annex : Option Bytes
  enforceBip110 : Bool

/-- What the loop keeps; positions count instructions. -/
structure State where
  machine : Machine
  sigopsBudget : Int
  codesepPos : Nat
  opcodePos : Nat

/-- The state a run starts in: no code separator has been executed. -/
def State.start (stack : List Bytes) (witness : List Bytes) : State :=
  ⟨Machine.start stack, 50 + (witness.map List.length).sum, 0xFFFFFFFF, 0⟩

variable [ScriptCrypto]

open ScriptCrypto Machine

/-- The opcodes that only touch the stacks, and the two lock-time opcodes. -/
def plainOp (ctx : Context) (code : UInt8) (m : Machine) : Opcode → Except CoreError Machine
  | .zero => .ok (m.push [])
  | .oneNegate => .ok (m.push (encodeNum (-1)))
  | .number n => .ok (m.push (encodeNum n.toNat))
  | .verify => m.stackPop fun val m => if castToBool val then .ok m else fail "OP_VERIFY failed"
  | .opReturn => fail "OP_RETURN"
  | .toAltStack => m.stackPop fun val m => .ok { m with altStack := val :: m.altStack }
  | .fromAltStack =>
    match m.altStack with
    | [] => fail "alt stack empty"
    | val :: alt => .ok { m with stack := val :: m.stack, altStack := alt }
  | .twoDrop => m.stackPop fun _ m => m.stackPop fun _ m => .ok m
  | .twoDup =>
    match m.stack with
    | b :: a :: _ => .ok ((m.push a).push b)
    | _ => fail "stack too small for 2DUP"
  | .threeDup =>
    match m.stack with
    | c :: b :: a :: _ => .ok (((m.push a).push b).push c)
    | _ => fail "stack too small for 3DUP"
  | .twoOver =>
    match m.stack with
    | _ :: _ :: b :: a :: _ => .ok ((m.push a).push b)
    | _ => fail "stack too small for 2OVER"
  | .twoRot =>
    match m.stack with
    | f :: e :: d :: c :: b :: a :: rest =>
      .ok { m with stack := b :: a :: f :: e :: d :: c :: rest }
    | _ => fail "stack too small for 2ROT"
  | .twoSwap =>
    match m.stack with
    | d :: c :: b :: a :: rest => .ok { m with stack := b :: a :: d :: c :: rest }
    | _ => fail "stack too small for 2SWAP"
  | .ifDup =>
    match m.stack with
    | [] => fail "empty stack"
    | top :: _ => if castToBool top then .ok (m.push top) else .ok m
  | .depth => .ok (m.push (encodeNum m.stack.length))
  | .drop => m.stackPop fun _ m => .ok m
  | .dup =>
    match m.stack with
    | [] => fail "stack underflow"
    | top :: _ => .ok (m.push top)
  | .nip =>
    match m.stack with
    | b :: _ :: rest => .ok { m with stack := b :: rest }
    | _ => fail "stack too small for NIP"
  | .over =>
    match m.stack with
    | _ :: a :: _ => .ok (m.push a)
    | _ => fail "stack too small for OVER"
  | .pick => m.popNum fun n m =>
    match m.stack[asUsize n]? with
    | some val => .ok (m.push val)
    | none => fail "stack too small for PICK"
  | .roll => m.popNum fun n m =>
    match m.stack[asUsize n]? with
    | some val => .ok { m with stack := val :: m.stack.eraseIdx (asUsize n) }
    | none => fail "stack too small for ROLL"
  | .rot =>
    match m.stack with
    | c :: b :: a :: rest => .ok { m with stack := a :: c :: b :: rest }
    | _ => fail "stack too small for ROT"
  | .swap =>
    match m.stack with
    | b :: a :: rest => .ok { m with stack := a :: b :: rest }
    | _ => fail "stack too small for SWAP"
  | .tuck =>
    match m.stack with
    | b :: a :: rest => .ok { m with stack := b :: a :: b :: rest }
    | _ => fail "stack too small for TUCK"
  | .size =>
    match m.stack with
    | [] => fail "empty stack for SIZE"
    | top :: _ => .ok (m.push (encodeNum top.length))
  | .equal => m.stackPop fun b m => m.stackPop fun a m => .ok (m.push (boolBytes (a = b)))
  | .equalVerify => m.stackPop fun b m => m.stackPop fun a m =>
    if a ≠ b then fail "OP_EQUALVERIFY failed" else .ok m
  | .oneAdd => m.unaryNum fun a => a + 1
  | .oneSub => m.unaryNum fun a => a - 1
  | .negate => m.unaryNum fun a => -a
  | .abs => m.unaryNum fun a => a.natAbs
  | .not => m.unaryNum fun a => ofBool (a = 0)
  | .zeroNotEqual => m.unaryNum fun a => ofBool (a ≠ 0)
  | .add => m.binaryNum fun a b => a + b
  | .sub => m.binaryNum fun a b => a - b
  | .boolAnd => m.binaryNum fun a b => ofBool (a ≠ 0 ∧ b ≠ 0)
  | .boolOr => m.binaryNum fun a b => ofBool (a ≠ 0 ∨ b ≠ 0)
  | .numEqual => m.popNum fun b m => m.popNum fun a m => .ok (m.push (boolBytes (a = b)))
  | .numEqualVerify => m.popNum fun b m => m.popNum fun a m =>
    if a ≠ b then fail "OP_NUMEQUALVERIFY failed" else .ok m
  | .numNotEqual => m.binaryNum fun a b => ofBool (a ≠ b)
  | .lessThan => m.binaryNum fun a b => ofBool (a < b)
  | .greaterThan => m.binaryNum fun a b => ofBool (b < a)
  | .lessThanOrEqual => m.binaryNum fun a b => ofBool (a ≤ b)
  | .greaterThanOrEqual => m.binaryNum fun a b => ofBool (b ≤ a)
  | .min => m.binaryNum fun a b => Min.min a b
  | .max => m.binaryNum fun a b => Max.max a b
  | .within => m.popNum fun max m => m.popNum fun min m => m.popNum fun x m =>
    .ok (m.push (encodeNum (ofBool (min ≤ x ∧ x < max))))
  | .ripemd160 => m.digest ripemd160
  | .sha1 => m.digest sha1
  | .sha256 => m.digest sha256
  | .hash160 => m.digest hash160
  | .hash256 => m.digest hash256
  | .nop => .ok m
  | .checkLockTimeVerify => do
    checkLockTime ctx.tx ctx.inputIndex m.stack
    return m
  | .checkSequenceVerify => do
    checkSequence ctx.tx ctx.inputIndex m.stack
    return m
  | _ => fail s!"unknown tapscript opcode: 0x{hexPad 2 code.toNat}"

/-- Check a signature against a 32-byte key. -/
def checkSig (ctx : Context) (st : State) (sig pubkey : Bytes) : Bool :=
  Except.isOk do
    let key ← orInvalid (xOnlyPublicKey pubkey) ""
    verifyTaprootScriptSig ctx.tx ctx.inputIndex ctx.prevouts key sig ctx.tapLeaf st.codesepPos
      ctx.annex

/-- What the three signature opcodes do with a key and a signature: an empty
signature is no signature; any other takes from the budget, and has to be right
if the key is of the known kind. -/
def checkKey (ctx : Context) (st : State) (sig pubkey : Bytes) (failed : String)
    (empty : State → Except CoreError State) (valid : State → Except CoreError State) :
    Except CoreError State :=
  if pubkey = [] then fail "tapscript: empty pubkey"
  else if sig = [] then empty st
  else
    let st := { st with sigopsBudget := st.sigopsBudget - 50 }
    if st.sigopsBudget < 0 then fail "tapscript sigops budget exceeded"
    else if pubkey.length ≠ 32 then valid st
    else if checkSig ctx st sig pubkey then valid st
    else fail failed

/-- An opcode in a branch that is taken. -/
def executeOp (ctx : Context) (st : State) (code : UInt8) : Except CoreError State :=
  match Opcode.ofByte code with
  | .checkSig => st.machine.stackPop fun pubkey m => m.stackPop fun sig m =>
    checkKey ctx st sig pubkey "OP_CHECKSIG: Schnorr signature verification failed"
      (fun st => .ok { st with machine := m.push [] })
      (fun st => .ok { st with machine := m.push [1] })
  | .checkSigVerify => st.machine.stackPop fun pubkey m => m.stackPop fun sig m =>
    checkKey ctx st sig pubkey "OP_CHECKSIGVERIFY failed in tapscript"
      (fun _ => fail "OP_CHECKSIGVERIFY failed: empty signature")
      (fun st => .ok { st with machine := m })
  | .checkMultiSig => fail "OP_CHECKMULTISIG disabled in tapscript (use OP_CHECKSIGADD)"
  | .checkMultiSigVerify => fail "OP_CHECKMULTISIG disabled in tapscript (use OP_CHECKSIGADD)"
  | .checkSigAdd =>
    st.machine.stackPop fun pubkey m => m.stackPop fun n m => m.stackPop fun sig m => do
      let n ← decodeNum n
      checkKey ctx st sig pubkey "OP_CHECKSIGADD: non-empty signature failed verification"
        (fun st => .ok { st with machine := m.push (encodeNum n) })
        (fun st => .ok { st with machine := m.push (encodeNum (n + 1)) })
  | .codeSeparator => .ok { st with codesepPos := st.opcodePos }
  | op => do
    let m ← plainOp ctx code st.machine op
    return { st with machine := m }

/-- The branch opcodes, as in the legacy interpreter. -/
def branchOp (m : Machine) : Opcode → Option (Except CoreError Machine)
  | .opIf => some (
    if m.executing then
      m.stackPop fun val m => .ok { m with execStack := castToBool val :: m.execStack }
    else .ok { m with execStack := false :: m.execStack })
  | .notIf => some (
    if m.executing then
      m.stackPop fun val m => .ok { m with execStack := (!castToBool val) :: m.execStack }
    else .ok { m with execStack := false :: m.execStack })
  | .opElse => some (
    match m.execStack with
    | [] => fail "OP_ELSE without OP_IF"
    | last :: rest => .ok { m with execStack := (!last) :: rest })
  | .endIf => some (
    match m.execStack with
    | [] => fail "OP_ENDIF without OP_IF"
    | _ :: rest => .ok { m with execStack := rest })
  | _ => none

/-- Every instruction counts for the position of code separators, after it is
done. -/
def State.advance (st : State) : State := { st with opcodePos := st.opcodePos + 1 }

/-- A push. -/
def stepPush (st : State) (data : Bytes) : Except CoreError State :=
  if st.machine.executing then do
    let len := data.length
    rejectIf (maxScriptElementSize < len) (.invalidScript
      s!"push data size {len} exceeds limit {maxScriptElementSize}")
    let m := st.machine.push data
    m.checkSize
    return { st with machine := m }.advance
  else return st.advance

/-- An opcode that is no `OP_SUCCESS`. -/
def stepOp (ctx : Context) (st : State) (code : UInt8) : Except CoreError State := do
  rejectIf (ctx.enforceBip110 ∧ st.machine.executing ∧ (code = 0x63 ∨ code = 0x64))
    (.invalidScript "BIP-110: tapscript executes OP_IF/OP_NOTIF")
  match branchOp st.machine (Opcode.ofByte code) with
  | some result => return { st with machine := ← result }.advance
  | none =>
    if st.machine.executing then do
      let st ← executeOp ctx st code
      st.machine.checkSize
      return st.advance
    else return st.advance

/-- One instruction. -/
def step (ctx : Context) (st : State) : Instruction → Except CoreError (StepResult State)
  | .pushBytes data => do return .next (← stepPush st data)
  | .op code =>
    if isTapscriptSuccessOpcode code then .ok (.done st)
    else do return .next (← stepOp ctx st code)

/-- **A step that goes on**, taken apart: what stands in a branch not taken is passed
over, a branch opcode changes the branches, and everything else is executed and
measured. -/
theorem step_cases {ctx : Context} {st t : State} {i : Instruction}
    (h : step ctx st i = .ok (.next t)) :
    (st.machine.executing = false
        ∧ (∀ code, i = .op code → branchOp st.machine (Opcode.ofByte code) = none)
        ∧ t = st.advance)
      ∨ (∃ data, i = .pushBytes data ∧ st.machine.executing = true
          ∧ data.length ≤ maxScriptElementSize ∧ (st.machine.push data).checkSize = .ok ()
          ∧ t = { st with machine := st.machine.push data }.advance)
      ∨ (∃ code m, i = .op code ∧ branchOp st.machine (Opcode.ofByte code) = some (.ok m)
          ∧ t = { st with machine := m }.advance)
      ∨ ∃ code u, i = .op code ∧ branchOp st.machine (Opcode.ofByte code) = none
          ∧ st.machine.executing = true ∧ executeOp ctx st code = .ok u
          ∧ u.machine.checkSize = .ok () ∧ t = u.advance := by
  cases i with
  | pushBytes data =>
    obtain ⟨u, hu, ht⟩ := bind_eq_ok.mp h
    cases ht
    unfold stepPush at hu
    split at hu
    · rename_i hex
      simp only [bind_eq_ok, pure_eq_ok, exists_unit, rejectIf_eq_ok, not_lt] at hu
      obtain ⟨hlen, hsize, rfl⟩ := hu
      exact Or.inr (Or.inl ⟨data, rfl, hex, hlen, hsize, rfl⟩)
    · rename_i hex
      exact Or.inl ⟨Bool.eq_false_iff.mpr hex, fun code hi => (by cases hi),
        (Except.ok.inj hu).symm⟩
  | op code =>
    rw [step] at h
    split at h
    · cases h
    · obtain ⟨u, hu, ht⟩ := bind_eq_ok.mp h
      cases ht
      simp only [stepOp, bind_eq_ok, exists_unit] at hu
      obtain ⟨-, hu⟩ := hu
      cases hb : branchOp st.machine (Opcode.ofByte code) with
      | some result =>
        simp only [hb, bind_eq_ok, pure_eq_ok] at hu
        obtain ⟨m, rfl, rfl⟩ := hu
        exact Or.inr (Or.inr (Or.inl ⟨code, m, rfl, hb, rfl⟩))
      | none =>
        simp only [hb] at hu
        split at hu
        · rename_i hex
          simp only [bind_eq_ok, pure_eq_ok, exists_unit] at hu
          obtain ⟨v, hv, hsize, rfl⟩ := hu
          exact Or.inr (Or.inr (Or.inr ⟨code, v, rfl, hb, hex, hv, hsize, rfl⟩))
        · rename_i hex
          refine Or.inl ⟨Bool.eq_false_iff.mpr hex, ?_, (Except.ok.inj hu).symm⟩
          rintro _ ⟨⟩
          exact hb

/-- The BIP-110 scan of the script. -/
def prescan : List Instruction → Except CoreError Unit
  | [] => .ok ()
  | .pushBytes data :: is => do
    let len := data.length
    rejectIf (bip110MaxPushSize < len) (.invalidScript
      s!"BIP-110: tapscript push of {len} bytes exceeds {bip110MaxPushSize}")
    prescan is
  | .op code :: is => do
    rejectIf (isTapscriptSuccessOpcode code)
      (.invalidScript "BIP-110: tapscript contains OP_SUCCESS opcode")
    prescan is

end Tapscript

variable [ScriptCrypto]

/-- **Run a tapleaf script** on a stack; the result is the stack it leaves. -/
def executeTapscript (script : Bytes) (stack : List Bytes) (tx : Tx) (inputIndex : Nat)
    (prevouts : List TxOut) (tapLeaf : Bytes) (annex : Option Bytes) (enforceBip110 : Bool) :
    Except CoreError (List Bytes) := do
  checkIf enforceBip110 do
    Tapscript.prescan (parse script)
    rejectIf (parses script = false) (parseError "tapscript")
  let input ← inputAt tx inputIndex
  match ← runProgram (Tapscript.step ⟨tx, inputIndex, prevouts, tapLeaf, annex, enforceBip110⟩)
      (Tapscript.State.start stack input.witness) (parse script) with
  | .done st => return st.machine.stack
  | .next st =>
    rejectIf (parses script = false) (parseError "tapscript")
    rejectIf (st.machine.execStack ≠ []) (.invalidScript "unbalanced IF/ENDIF in tapscript")
    return st.machine.stack

end Script
