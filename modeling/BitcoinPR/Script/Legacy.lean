import BitcoinPR.Script.Machine

/-!
# The legacy interpreter

`executeScriptInner` runs a legacy script or, with `segwit` set, a version-0
witness script. The loop keeps, besides the machine, the number of operations
counted so far and two positions in the script for the code signatures commit
to: `bytePos`, where the loop reads, and `codesepPos`, just after the last code
separator that was executed.

`bytePos` is computed from the length of a push as if every push were written
in the shortest form, as the code does; a longer form makes it fall behind.

The push size, the count of operations, the two `OP_VERIF` opcodes and the
disabled ones are checked in branches that are not taken, too.
-/

namespace Script

/-- Rule 2 of BIP-110: the size limit of a push or a witness item. -/
def bip110MaxPushSize : Nat := 256

/-- A truncated push. -/
def parseError (kind : String) : CoreError :=
  .invalidScript s!"{kind} parse error: unexpected end of script"

/-! ## The code a signature signs -/

/-- A push of some data, as a script spells it. -/
def serializeScriptPush (data : Bytes) : Bytes :=
  let len := data.length
  (if len < 76 then [UInt8.ofNat len]
  else if len < 256 then [0x4c, UInt8.ofNat len]
  else if len < 65536 then 0x4d :: leBytes 2 len
  else 0x4e :: leBytes 4 len) ++ data

/-- Delete a pattern wherever it stands, byte by byte from the left. -/
def deleteFrom (pattern : Bytes) : Nat → Bytes → Bytes
  | 0, script => script
  | _, [] => []
  | fuel + 1, b :: script =>
    if pattern.isPrefixOf (b :: script) then
      deleteFrom pattern fuel ((b :: script).drop pattern.length)
    else b :: deleteFrom pattern fuel script

def findAndDelete (script pattern : Bytes) : Bytes :=
  if pattern.isEmpty ∨ script.length < pattern.length then script
  else deleteFrom pattern script.length script

/-- Drop the code separators, instruction by instruction; what follows a
truncated push is kept. -/
def removeCodeseparators : Nat → Bytes → Bytes
  | 0, script => script
  | _, [] => []
  | fuel + 1, code :: rest =>
    match nextInstruction code rest with
    | none => code :: rest
    | some (_, tail) =>
      (if code = 0xab then [] else (code :: rest).take (rest.length + 1 - tail.length))
        ++ removeCodeseparators fuel tail

/-! ## Signatures -/

section

variable [ScriptCrypto]

open ScriptCrypto

/-- Check a signature, whose last byte is its hash type. Whatever is wrong with
it, the answer is `false`. -/
def checkSig (tx : Tx) (inputIndex : Nat) (amount : UInt64) (sigData pubkeyData scriptCode : Bytes)
    (flags : ScriptFlags) (segwit : Bool) : Bool :=
  match sigData.getLast?, pubkeyData with
  | none, _ => false
  | _, [] => false
  | some hashType, _ :: _ =>
    let der := sigData.dropLast
    let stripped := removeCodeseparators scriptCode.length scriptCode
    Except.isOk do
      let key ← publicKey pubkeyData
      -- before BIP 66 other encodings than DER pass
      let signature ← if flags.verifyStrictenc then fromDer der else fromDerLax der
      let msg ←
        if segwit then
          p2wshSignatureHash tx inputIndex scriptCode amount (.fromConsensus hashType)
        -- the raw byte is hashed, not the type it is taken for
        else legacySignatureHash tx inputIndex stripped hashType
      verifyEcdsa msg (normalizeS signature) key

end

/-- Go through keys and signatures together: each signature uses up keys until
one matches. -/
def matchSigs (check : Bytes → Bytes → Bool) : List Bytes → List Bytes → Bool
  | [], _ => true
  | _ :: _, [] => false
  | sig :: sigs, key :: keys =>
    if check sig key then matchSigs check sigs keys else matchSigs check (sig :: sigs) keys

/-! ## The interpreter -/

namespace Legacy

/-- What a run reads. -/
structure Context where
  script : Bytes
  tx : Tx
  inputIndex : Nat
  amount : UInt64
  flags : ScriptFlags
  segwit : Bool

/-- What the loop keeps. -/
structure State where
  machine : Machine
  opCount : Nat
  codesepPos : Nat
  bytePos : Nat

/-- The state a run starts in. -/
def State.start (stack : List Bytes) : State := ⟨Machine.start stack, 0, 0, 0⟩

variable [ScriptCrypto]

open ScriptCrypto Machine

/-- The opcodes that only touch the stacks, and the two lock-time opcodes. -/
def plainOp (ctx : Context) (code : UInt8) (m : Machine) : Opcode → Except CoreError Machine
  | .zero => .ok (m.push [])
  | .oneNegate => .ok (m.push [0x81])
  | .number n => .ok (m.push [n])
  | .nop => .ok m
  | .verify => m.stackPop fun val m => if castToBool val then .ok m else fail "OP_VERIFY failed"
  | .opReturn => fail "OP_RETURN"
  | .toAltStack => m.stackPop fun val m => .ok { m with altStack := val :: m.altStack }
  | .fromAltStack =>
    match m.altStack with
    | [] => fail "alt stack empty"
    | val :: alt => .ok { m with stack := val :: m.stack, altStack := alt }
  | .twoDrop => m.stackPop fun _ m => m.stackPop fun _ m => .ok m
  | .twoDup =>
    match m.stack with
    | b :: a :: _ => .ok ((m.push a).push b)
    | _ => fail "stack too small for 2DUP"
  | .threeDup =>
    match m.stack with
    | c :: b :: a :: _ => .ok (((m.push a).push b).push c)
    | _ => fail "stack too small for 3DUP"
  | .twoOver =>
    match m.stack with
    | _ :: _ :: b :: a :: _ => .ok ((m.push a).push b)
    | _ => fail "stack too small for 2OVER"
  | .twoRot =>
    match m.stack with
    | f :: e :: d :: c :: b :: a :: rest =>
      .ok { m with stack := b :: a :: f :: e :: d :: c :: rest }
    | _ => fail "stack too small for 2ROT"
  | .twoSwap =>
    match m.stack with
    | d :: c :: b :: a :: rest => .ok { m with stack := b :: a :: d :: c :: rest }
    | _ => fail "stack too small for 2SWAP"
  | .ifDup =>
    match m.stack with
    | [] => fail "empty stack"
    | top :: _ => if castToBool top then .ok (m.push top) else .ok m
  | .depth => .ok (m.push (encodeNum m.stack.length))
  | .drop => m.stackPop fun _ m => .ok m
  | .dup =>
    match m.stack with
    | [] => fail "empty stack for DUP"
    | top :: _ => .ok (m.push top)
  | .nip =>
    match m.stack with
    | b :: _ :: rest => .ok { m with stack := b :: rest }
    | _ => fail "stack too small for NIP"
  | .over =>
    match m.stack with
    | _ :: a :: _ => .ok (m.push a)
    | _ => fail "stack too small for OVER"
  | .pick => m.popNum fun n m =>
    match m.stack[asUsize n]? with
    | some val => .ok (m.push val)
    | none => fail "stack too small for PICK"
  | .roll => m.popNum fun n m =>
    match m.stack[asUsize n]? with
    | some val => .ok { m with stack := val :: m.stack.eraseIdx (asUsize n) }
    | none => fail "stack too small for ROLL"
  | .rot =>
    match m.stack with
    | c :: b :: a :: rest => .ok { m with stack := a :: c :: b :: rest }
    | _ => fail "stack too small for ROT"
  | .swap =>
    match m.stack with
    | b :: a :: rest => .ok { m with stack := a :: b :: rest }
    | _ => fail "stack too small for SWAP"
  | .tuck =>
    match m.stack with
    | b :: a :: rest => .ok { m with stack := b :: a :: b :: rest }
    | _ => fail "stack too small for TUCK"
  | .size =>
    match m.stack with
    | [] => fail "empty stack for SIZE"
    | top :: _ => .ok (m.push (encodeNum top.length))
  | .equal => m.stackPop fun b m => m.stackPop fun a m => .ok (m.push (boolBytes (a = b)))
  | .equalVerify => m.stackPop fun b m => m.stackPop fun a m =>
    if a ≠ b then fail "OP_EQUALVERIFY failed" else .ok m
  | .oneAdd => m.unaryNum fun a => a + 1
  | .oneSub => m.unaryNum fun a => a - 1
  | .negate => m.unaryNum fun a => -a
  | .abs => m.unaryNum fun a => a.natAbs
  | .not => m.unaryNum fun a => ofBool (a = 0)
  | .zeroNotEqual => m.unaryNum fun a => ofBool (a ≠ 0)
  | .add => m.binaryNum fun a b => a + b
  | .sub => m.binaryNum fun a b => a - b
  | .boolAnd => m.binaryNum fun a b => ofBool (a ≠ 0 ∧ b ≠ 0)
  | .boolOr => m.binaryNum fun a b => ofBool (a ≠ 0 ∨ b ≠ 0)
  | .numEqual => m.binaryNum fun a b => ofBool (a = b)
  | .numEqualVerify => m.popNum fun b m => m.popNum fun a m =>
    if a ≠ b then fail "OP_NUMEQUALVERIFY failed" else .ok m
  | .numNotEqual => m.binaryNum fun a b => ofBool (a ≠ b)
  | .lessThan => m.binaryNum fun a b => ofBool (a < b)
  | .greaterThan => m.binaryNum fun a b => ofBool (b < a)
  | .lessThanOrEqual => m.binaryNum fun a b => ofBool (a ≤ b)
  | .greaterThanOrEqual => m.binaryNum fun a b => ofBool (b ≤ a)
  | .min => m.binaryNum fun a b => Min.min a b
  | .max => m.binaryNum fun a b => Max.max a b
  | .within => m.popNum fun max m => m.popNum fun min m => m.popNum fun x m =>
    .ok (m.push (encodeNum (ofBool (min ≤ x ∧ x < max))))
  | .ripemd160 => m.digest ripemd160
  | .sha1 => m.digest sha1
  | .sha256 => m.digest sha256
  | .hash160 => m.digest hash160
  | .hash256 => m.digest hash256
  | .checkLockTimeVerify => do
    checkIf ctx.flags.verifyChecklocktimeverify (checkLockTime ctx.tx ctx.inputIndex m.stack)
    return m
  | .checkSequenceVerify => do
    checkIf ctx.flags.verifyChecksequenceverify (checkSequence ctx.tx ctx.inputIndex m.stack)
    return m
  | _ => fail s!"unsupported opcode: 0x{hexPad 2 code.toNat}"

/-- The script from the last code separator on. -/
def scriptCode (ctx : Context) (st : State) : Bytes := ctx.script.drop st.codesepPos

/-- A signature check by the rules of the run. -/
def checks (ctx : Context) (code sig key : Bytes) : Bool :=
  checkSig ctx.tx ctx.inputIndex ctx.amount sig key code ctx.flags ctx.segwit

/-- Pop a key and a signature and check them. Outside witness scripts the
signature is deleted from the code it signs. -/
def checkSigOp (ctx : Context) (st : State)
    (k : Bool → Machine → Except CoreError State) : Except CoreError State :=
  st.machine.stackPop fun pubkeyData m => m.stackPop fun sigData m =>
    let code := scriptCode ctx st
    let code :=
      if ctx.segwit ∨ sigData.isEmpty then code
      else findAndDelete code (serializeScriptPush sigData)
    k (checks ctx code sigData pubkeyData) m

/-- Pop keys, signatures and the dummy element and check them; every key counts
as an operation. -/
def checkMultiSigOp (ctx : Context) (st : State) (name : String)
    (k : Bool → State → Except CoreError State) : Except CoreError State :=
  st.machine.popNum fun n m => do
    let nKeys := asUsize n
    rejectIf (20 < nKeys) (.invalidScript "too many keys")
    let opCount := st.opCount + nKeys
    rejectIf (201 < opCount) (.invalidScript "op count exceeded")
    m.stackPops nKeys fun keys m => m.popNum fun n m => do
      let nSigs := asUsize n
      rejectIf (nKeys < nSigs) (.invalidScript "more sigs than keys")
      m.stackPops nSigs fun sigs m => m.stackPop fun dummy m => do
        rejectIf (ctx.flags.verifyNulldummy ∧ dummy ≠ []) (.invalidScript
          s!"BIP 147: {name} dummy element must be empty (NULLDUMMY)")
        let code := scriptCode ctx st
        let code :=
          if ctx.segwit then code
          else sigs.foldl (fun code sig => findAndDelete code (serializeScriptPush sig)) code
        k (matchSigs (checks ctx code) sigs keys) { st with machine := m, opCount := opCount }

/-- An opcode in a branch that is taken. -/
def executeOp (ctx : Context) (st : State) (code : UInt8) : Except CoreError State :=
  match Opcode.ofByte code with
  | .checkSig => checkSigOp ctx st fun result m =>
    .ok { st with machine := m.push (boolBytes (result = true)) }
  | .checkSigVerify => checkSigOp ctx st fun result m =>
    if result then .ok { st with machine := m } else fail "OP_CHECKSIGVERIFY failed"
  | .checkMultiSig => checkMultiSigOp ctx st "CHECKMULTISIG" fun success st =>
    .ok { st with machine := st.machine.push (boolBytes (success = true)) }
  | .checkMultiSigVerify => checkMultiSigOp ctx st "CHECKMULTISIGVERIFY" fun success st =>
    if success then .ok st else fail "OP_CHECKMULTISIGVERIFY failed"
  | .codeSeparator => .ok { st with codesepPos := st.bytePos }
  | op => do
    let m ← plainOp ctx code st.machine op
    return { st with machine := m }

/-- The branch opcodes, which are looked at whether or not the branch they stand
in is taken; `none` is any other opcode. -/
def branchOp (m : Machine) : Opcode → Option (Except CoreError Machine)
  | .opIf => some (
    if m.executing then
      m.stackPop fun val m => .ok { m with execStack := castToBool val :: m.execStack }
    else .ok { m with execStack := false :: m.execStack })
  | .notIf => some (
    if m.executing then
      m.stackPop fun val m => .ok { m with execStack := (!castToBool val) :: m.execStack }
    else .ok { m with execStack := false :: m.execStack })
  | .opElse => some (
    match m.execStack with
    | [] => fail "OP_ELSE without OP_IF"
    | last :: rest => .ok { m with execStack := (!last) :: rest })
  | .endIf => some (
    match m.execStack with
    | [] => fail "OP_ENDIF without OP_IF"
    | _ :: rest => .ok { m with execStack := rest })
  | _ => none

/-- The bytes of a push in its shortest form. -/
def pushSize (len : Nat) : Nat :=
  if len = 0 then 1
  else if len ≤ 75 then 1 + len
  else if len ≤ 255 then 2 + len
  else if len ≤ 65535 then 3 + len
  else 5 + len

/-- A push. -/
def stepPush (ctx : Context) (st : State) (data : Bytes) : Except CoreError State := do
  let len := data.length
  rejectIf (maxScriptElementSize < len) (.invalidScript
    s!"push data size {len} exceeds limit {maxScriptElementSize}")
  rejectIf (ctx.flags.verifyBip110 ∧ bip110MaxPushSize < len) (.invalidScript
    s!"BIP-110: push of {len} bytes exceeds {bip110MaxPushSize}")
  let st := { st with bytePos := st.bytePos + pushSize len }
  if st.machine.executing then do
    let m := st.machine.push data
    m.checkSize
    return { st with machine := m }
  else return st

/-- Opcodes above `OP_16` count as operations. -/
def countOp (opCount : Nat) (code : UInt8) : Nat :=
  if 0x60 < code.toNat then opCount + 1 else opCount

/-- What is checked of an opcode whether or not its branch is taken. -/
def checkOp (st : State) (code : UInt8) : Except CoreError State := do
  let opCount := countOp st.opCount code
  rejectIf (0x60 < code.toNat ∧ 201 < opCount) (.invalidScript "op count exceeded")
  rejectIf (code = 0x65 ∨ code = 0x66)
    (.invalidScript s!"bad opcode: 0x{hexPad 2 code.toNat}")
  rejectIf (isDisabledOpcode code)
    (.invalidScript s!"disabled opcode: 0x{hexPad 2 code.toNat}")
  return { st with opCount := opCount, bytePos := st.bytePos + 1 }

omit [ScriptCrypto] in
theorem checkOp_eq_ok {st st' : State} {code : UInt8} :
    checkOp st code = .ok st'
      ↔ (0x60 < code.toNat → countOp st.opCount code ≤ 201) ∧ (code ≠ 0x65 ∧ code ≠ 0x66)
        ∧ isDisabledOpcode code = false
        ∧ { st with opCount := countOp st.opCount code, bytePos := st.bytePos + 1 } = st' := by
  simp only [checkOp, Except.bind_eq_ok, exists_unit, rejectIf_eq_ok, Except.pure_eq_ok, not_and,
    not_or, not_lt, Bool.not_eq_true, ne_eq]

/-- An opcode. -/
def stepOp (ctx : Context) (st : State) (code : UInt8) : Except CoreError State := do
  let st ← checkOp st code
  match branchOp st.machine (Opcode.ofByte code) with
  | some result => return { st with machine := ← result }
  | none =>
    if st.machine.executing then do
      let st ← executeOp ctx st code
      st.machine.checkSize
      return st
    else return st

/-- One instruction. -/
def step (ctx : Context) (st : State) : Instruction → Except CoreError (StepResult State)
  | .pushBytes data => do return .next (← stepPush ctx st data)
  | .op code => do return .next (← stepOp ctx st code)

/-- The loop never returns early. -/
theorem step_ne_done (ctx : Context) (st : State) (i : Instruction) (st' : State) :
    step ctx st i ≠ .ok (.done st') := by
  intro h
  cases i with
  | pushBytes data =>
    obtain ⟨a, -, ha⟩ := Except.bind_eq_ok.mp h
    cases ha
  | op code =>
    obtain ⟨a, -, ha⟩ := Except.bind_eq_ok.mp h
    cases ha

end Legacy

variable [ScriptCrypto]

/-- **Run a legacy or version-0 witness script** on a stack; the result is the
stack it leaves. -/
def executeScriptInner (script : Bytes) (stack : List Bytes) (tx : Tx) (inputIndex : Nat)
    (amount : UInt64) (flags : ScriptFlags) (segwit : Bool) : Except CoreError (List Bytes) := do
  rejectIf (maxScriptSize < script.length)
    (.invalidScript s!"script size {script.length} exceeds {maxScriptSize}")
  let flow ← runProgram (Legacy.step ⟨script, tx, inputIndex, amount, flags, segwit⟩)
    (Legacy.State.start stack) (parse script)
  rejectIf (parses script = false) (parseError "script")
  rejectIf (flow.state.machine.execStack ≠ []) (.invalidScript "unbalanced IF/ENDIF")
  return flow.state.machine.stack

section

variable {script : Bytes} {stack result : List Bytes} {tx : Tx} {inputIndex : Nat}
  {amount : UInt64} {flags : ScriptFlags} {segwit : Bool}
  (h : executeScriptInner script stack tx inputIndex amount flags segwit = .ok result)
include h

/-- **A run that succeeds ran every instruction of the script.** -/
theorem exists_step_of_executeScriptInner {i : Instruction} (hi : i ∈ parse script) :
    ∃ st f, Legacy.step ⟨script, tx, inputIndex, amount, flags, segwit⟩ st i = .ok f := by
  simp only [executeScriptInner, Except.bind_eq_ok, exists_unit] at h
  obtain ⟨-, flow, hrun, -⟩ := h
  obtain ⟨st, hreached⟩ := exists_reached (Legacy.step_ne_done _) hrun hi
  obtain ⟨f, hf⟩ := hreached.step_eq_ok hrun
  exact ⟨st, f, hf⟩

theorem parses_of_executeScriptInner : parses script = true := by
  simp only [executeScriptInner, Except.bind_eq_ok, exists_unit, rejectIf_eq_ok,
    Bool.not_eq_false] at h
  obtain ⟨-, flow, -, hparses, -⟩ := h
  exact hparses

end

end Script
