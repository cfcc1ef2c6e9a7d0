import BitcoinPR.Script.ReducedData

/-!
# What verification executes

Verifying a spend runs up to three scripts: the scriptSig, the output script and
the redeem script, or the witness script, or a tapleaf script. `Spend.Executes`
names them with the stacks they start from, one case for each place where the
code hands a script to an interpreter. `Execution.Ran` says that an execution came
to an opcode in a branch that is taken, and with which machine.

A spend that verifies has succeeded in everything it executes
(`Spend.succeeds_of_verify`), so that every opcode it ran has passed its check. For
the two lock-time opcodes, which only look at the stack, that is a condition on the
transaction (`Spend.sequence_of_ranOn`, `Spend.lockTime_of_ranOn`).
-/

open Except

namespace Script

/-- **A script given to an interpreter**, with what the interpreter reads. -/
inductive Execution where
  | legacy (ctx : Legacy.Context) (stack : List Bytes)
  | tapscript (ctx : Tapscript.Context) (script : Bytes) (stack witness : List Bytes)

variable [ScriptCrypto]

namespace Execution

/-- **The execution ran an opcode**: it came to it with machine `m`, in a branch that
is taken. -/
def Ran (code : UInt8) (m : Machine) : Execution → Prop
  | .legacy ctx stack => m.executing = true ∧ ∃ st, st.machine = m
      ∧ Reached (Legacy.step ctx) (Legacy.State.start stack) (parse ctx.script) st (.op code)
  | .tapscript ctx script stack witness => m.executing = true ∧ ∃ st, st.machine = m
      ∧ Reached (Tapscript.step ctx) (Tapscript.State.start stack witness) (parse script) st
          (.op code)

/-- The execution came to its end. -/
def Succeeds : Execution → Prop
  | .legacy ctx stack => ∃ f,
      runProgram (Legacy.step ctx) (Legacy.State.start stack) (parse ctx.script) = .ok f
  | .tapscript ctx script stack witness => ∃ f,
      runProgram (Tapscript.step ctx) (Tapscript.State.start stack witness) (parse script) = .ok f

/-- The execution is for an input, and both lock-time opcodes are on. -/
def LocksFor (tx : Tx) (inputIndex : Nat) : Execution → Prop
  | .legacy ctx _ => ctx.tx = tx ∧ ctx.inputIndex = inputIndex
      ∧ ctx.flags.verifyChecklocktimeverify = true ∧ ctx.flags.verifyChecksequenceverify = true
  | .tapscript ctx _ _ _ => ctx.tx = tx ∧ ctx.inputIndex = inputIndex

end Execution

/-! ## The lock-time opcodes -/

/-- What an opcode that is run in a branch taken has done. -/
theorem Legacy.executeOp_of_step {ctx : Legacy.Context} {st : Legacy.State} {code : UInt8}
    {f : StepResult Legacy.State} (hex : st.machine.executing = true)
    (hbranch : ∀ m, Legacy.branchOp m (Opcode.ofByte code) = none)
    (h : Legacy.step ctx st (.op code) = .ok f) :
    ∃ st₁ st', st₁.machine = st.machine ∧ Legacy.executeOp ctx st₁ code = .ok st' := by
  obtain ⟨st', hst', -⟩ := bind_eq_ok.mp h
  obtain ⟨st₁, hst₁, hop⟩ := bind_eq_ok.mp hst'
  obtain ⟨-, -, -, rfl⟩ := Legacy.checkOp_eq_ok.mp hst₁
  simp only [hbranch, hex, if_true, bind_eq_ok] at hop
  obtain ⟨st₂, hst₂, -⟩ := hop
  exact ⟨{ st with opCount := countOp st.opCount code, bytePos := st.bytePos + 1 }, st₂, rfl, hst₂⟩

theorem Tapscript.executeOp_of_step {ctx : Tapscript.Context} {st : Tapscript.State}
    {code : UInt8} {f : StepResult Tapscript.State} (hex : st.machine.executing = true)
    (hsuccess : isTapscriptSuccessOpcode code = false)
    (hbranch : ∀ m, Tapscript.branchOp m (Opcode.ofByte code) = none)
    (h : Tapscript.step ctx st (.op code) = .ok f) :
    ∃ st', Tapscript.executeOp ctx st code = .ok st' := by
  rw [Tapscript.step, hsuccess] at h
  obtain ⟨st', hst', -⟩ := bind_eq_ok.mp h
  obtain ⟨-, -, hop⟩ := bind_eq_ok.mp hst'
  simp only [hbranch, hex, if_true, bind_eq_ok] at hop
  obtain ⟨st₂, hst₂, -⟩ := hop
  exact ⟨st₂, hst₂⟩

/-- The opcodes that only touch the stacks, in the interpreter of the execution. -/
def Execution.plainOp (code : UInt8) (m : Machine) : Execution → Except CoreError Machine
  | .legacy ctx _ => Legacy.plainOp ctx code m (Opcode.ofByte code)
  | .tapscript ctx _ _ _ => Tapscript.plainOp ctx code m (Opcode.ofByte code)

/-- A lock-time opcode that was run in an execution that succeeded. -/
theorem Execution.exists_plainOp_of_ran {e : Execution} {code : UInt8} {m : Machine}
    (hcode : code = 0xb1 ∨ code = 0xb2) (hok : e.Succeeds) (hran : e.Ran code m) :
    ∃ m', e.plainOp code m = .ok m' := by
  cases e with
  | legacy ctx stack =>
    obtain ⟨hex, st, rfl, hreached⟩ := hran
    obtain ⟨f, hrun⟩ := hok
    obtain ⟨g, hstep⟩ := hreached.step_eq_ok hrun
    have hbranch : ∀ m, Legacy.branchOp m (Opcode.ofByte code) = none := by
      rcases hcode with rfl | rfl <;> exact fun m => rfl
    obtain ⟨st₁, st', hm, hop⟩ := Legacy.executeOp_of_step hex hbranch hstep
    rw [← hm]
    rcases hcode with rfl | rfl
    all_goals
      obtain ⟨m', hm', -⟩ := bind_eq_ok.mp hop
      exact ⟨m', hm'⟩
  | tapscript ctx script stack witness =>
    obtain ⟨hex, st, rfl, hreached⟩ := hran
    obtain ⟨f, hrun⟩ := hok
    obtain ⟨g, hstep⟩ := hreached.step_eq_ok hrun
    rcases hcode with rfl | rfl
    all_goals
      obtain ⟨st', hop⟩ := Tapscript.executeOp_of_step hex (by decide) (fun m => rfl) hstep
      obtain ⟨m', hm', -⟩ := bind_eq_ok.mp hop
      exact ⟨m', hm'⟩

variable {inputIndex : Nat} {tx : Tx}

/-- **`OP_CHECKSEQUENCEVERIFY` that was run has passed.** -/
theorem Execution.checkSequence_of_ran {e : Execution} {m : Machine}
    (hlocks : e.LocksFor tx inputIndex) (hok : e.Succeeds) (hran : e.Ran 0xb2 m) :
    checkSequence tx inputIndex m.stack = .ok () := by
  obtain ⟨m', hop⟩ := exists_plainOp_of_ran (Or.inr rfl) hok hran
  cases e with
  | legacy ctx stack =>
    obtain ⟨rfl, rfl, -, hcsv⟩ := hlocks
    obtain ⟨u, hcheck, -⟩ := bind_eq_ok.mp hop
    exact checkIf_eq_ok.mp hcheck hcsv
  | tapscript ctx script stack witness =>
    obtain ⟨rfl, rfl⟩ := hlocks
    obtain ⟨u, hcheck, -⟩ := bind_eq_ok.mp hop
    exact hcheck

/-- **`OP_CHECKLOCKTIMEVERIFY` that was run has passed.** -/
theorem Execution.checkLockTime_of_ran {e : Execution} {m : Machine}
    (hlocks : e.LocksFor tx inputIndex) (hok : e.Succeeds) (hran : e.Ran 0xb1 m) :
    checkLockTime tx inputIndex m.stack = .ok () := by
  obtain ⟨m', hop⟩ := exists_plainOp_of_ran (Or.inl rfl) hok hran
  cases e with
  | legacy ctx stack =>
    obtain ⟨rfl, rfl, hcltv, -⟩ := hlocks
    obtain ⟨u, hcheck, -⟩ := bind_eq_ok.mp hop
    exact checkIf_eq_ok.mp hcheck hcltv
  | tapscript ctx script stack witness =>
    obtain ⟨rfl, rfl⟩ := hlocks
    obtain ⟨u, hcheck, -⟩ := bind_eq_ok.mp hop
    exact hcheck

/-! ## The executions of a spend -/

namespace Spend

variable {s : Spend} {flags : ScriptFlags}

/-- The spend hands a witness program of version 0 to its rules, native or nested. -/
inductive HasProgram (s : Spend) (flags : ScriptFlags) (version : Nat) (program : Bytes) : Prop
  | native (h : Spend.program flags s.prevout.scriptPubkey = some (version, program))
  | nested {redeemScript : Bytes} {rest : List Bytes}
      (h : Spend.program flags s.prevout.scriptPubkey = none) (hp2sh : s.isP2shSpend flags = true)
      (hsaved : s.runScriptSig flags = .ok (redeemScript :: rest))
      (hprogram : Spend.program flags redeemScript = some (version, program))

/-- **What verifying a spend executes.** -/
inductive Executes (s : Spend) (flags : ScriptFlags) : Execution → Prop
  | scriptSig (h : program flags s.prevout.scriptPubkey = none) :
      Executes s flags (.legacy ⟨s.input.scriptSig, s.tx, s.inputIndex, s.prevout.value,
        flags.withBip110 false, false⟩ [])
  | scriptPubkey {saved : List Bytes} (h : program flags s.prevout.scriptPubkey = none)
      (hsaved : s.runScriptSig flags = .ok saved) :
      Executes s flags (.legacy ⟨s.prevout.scriptPubkey, s.tx, s.inputIndex, s.prevout.value,
        flags, false⟩ saved)
  | redeemScript {redeemScript : Bytes} {rest : List Bytes}
      (h : program flags s.prevout.scriptPubkey = none) (hp2sh : s.isP2shSpend flags = true)
      (hsaved : s.runScriptSig flags = .ok (redeemScript :: rest))
      (hprogram : program flags redeemScript = none) :
      Executes s flags (.legacy ⟨redeemScript, s.tx, s.inputIndex, s.prevout.value, flags, false⟩
        rest)
  | witnessScript {program witnessScript : Bytes} (h : s.HasProgram flags 0 program)
      (hlen : program.length = 32) (hlast : s.input.witness.getLast? = some witnessScript) :
      Executes s flags (.legacy ⟨witnessScript, s.tx, s.inputIndex, s.prevout.value,
        ScriptFlags.all.withBip110 flags.verifyBip110, true⟩ s.input.witness.dropLast.reverse)
  | tapscript {program control script : Bytes} {stack : List Bytes}
      (h : Spend.program flags s.prevout.scriptPubkey = some (1, program))
      (htaproot : flags.verifyTaproot = true) (hlen : program.length = 32)
      (hitems : taprootItems s.input.witness = control :: script :: stack)
      (hleaf : ScriptCrypto.controlBlock control = .ok 0xc0) :
      Executes s flags (.tapscript ⟨s.tx, s.inputIndex, s.prevouts,
        ScriptCrypto.tapLeafHash script, annex s.input.witness, flags.verifyBip110⟩ script stack
        s.input.witness)

theorem Executes.locksFor {e : Execution} (he : s.Executes flags e)
    (hcltv : flags.verifyChecklocktimeverify = true)
    (hcsv : flags.verifyChecksequenceverify = true) : e.LocksFor s.tx s.inputIndex := by
  cases he with
  | scriptSig => exact ⟨rfl, rfl, hcltv, hcsv⟩
  | scriptPubkey => exact ⟨rfl, rfl, hcltv, hcsv⟩
  | redeemScript => exact ⟨rfl, rfl, hcltv, hcsv⟩
  | witnessScript => exact ⟨rfl, rfl, rfl, rfl⟩
  | tapscript => exact ⟨rfl, rfl⟩

end Spend

/-! ## What a spend that verifies has executed -/

variable {input : TxIn}

theorem succeeds_of_executeScriptInner {script : Bytes} {stack result : List Bytes}
    {amount : UInt64} {flags : ScriptFlags} {segwit : Bool}
    (h : executeScriptInner script stack tx inputIndex amount flags segwit = .ok result) :
    (Execution.legacy ⟨script, tx, inputIndex, amount, flags, segwit⟩ stack).Succeeds := by
  simp only [executeScriptInner, bind_eq_ok, exists_unit] at h
  obtain ⟨-, f, hrun, -⟩ := h
  exact ⟨f, hrun⟩

theorem succeeds_of_executeTapscript {script : Bytes} {stack result : List Bytes}
    {prevouts : List TxOut} {tapLeaf : Bytes} {annex : Option Bytes}
    {enforceBip110 : Bool} (hin : tx.input[inputIndex]? = some input)
    (h : executeTapscript script stack tx inputIndex prevouts tapLeaf annex enforceBip110
      = .ok result) :
    (Execution.tapscript ⟨tx, inputIndex, prevouts, tapLeaf, annex, enforceBip110⟩ script stack
      input.witness).Succeeds := by
  have hin' : inputAt tx inputIndex = .ok input := by
    unfold inputAt
    rw [hin]
  simp only [executeTapscript, hin', ok_bind, bind_eq_ok, exists_unit] at h
  obtain ⟨-, f, hrun, -⟩ := h
  exact ⟨f, hrun⟩

namespace Spend

variable {s : Spend} {flags : ScriptFlags}

/-- A witness script that a spend hands on has run, and left a true element on top. -/
theorem executed_of_verifyV0 {program witnessScript : Bytes}
    (h : s.verifyV0 flags program = .ok ()) (hlen : program.length = 32)
    (hlast : s.input.witness.getLast? = some witnessScript) :
    ∃ result msg, executeScriptInner witnessScript s.input.witness.dropLast.reverse s.tx
        s.inputIndex s.prevout.value (ScriptFlags.all.withBip110 flags.verifyBip110) true
        = .ok result ∧ checkTop result msg = .ok () := by
  have h20 : ¬ program.length = 20 := by omega
  rw [verifyV0, verifyWitnessV0, if_neg h20, if_pos hlen, verifyP2wsh, hlast] at h
  simp only [bind_eq_ok, exists_unit] at h
  obtain ⟨-, -, result, hrun, htop⟩ := h
  exact ⟨result, _, hrun, htop⟩

/-- So has a tapleaf script of the known version. -/
theorem executed_of_verifyWitnessV1 {program control script : Bytes} {stack : List Bytes}
    {enforceBip110 : Bool}
    (h : verifyWitnessV1 s.tx s.inputIndex s.prevouts program s.input.witness enforceBip110
      = .ok ())
    (hitems : taprootItems s.input.witness = control :: script :: stack)
    (hleaf : ScriptCrypto.controlBlock control = .ok 0xc0) :
    ∃ result msg, executeTapscript script stack s.tx s.inputIndex s.prevouts
        (ScriptCrypto.tapLeafHash script) (annex s.input.witness) enforceBip110 = .ok result
      ∧ checkTop result msg = .ok () := by
  simp only [verifyWitnessV1, bind_eq_ok, exists_unit, hitems, verifyScriptPath,
    orInvalid_eq_ok, hleaf, Except.ok.injEq, exists_eq_left', if_true] at h
  obtain ⟨-, -, key, -, -, -, -, result, hrun, htop⟩ := h
  exact ⟨result, _, hrun, htop⟩

variable (h : s.verify flags = .ok ())
include h

theorem verifyLegacy_of_verify (hp : program flags s.prevout.scriptPubkey = none) :
    s.verifyLegacy flags = .ok () := by
  unfold verify at h
  rw [hp] at h
  exact h

theorem verifyNative_of_verify {version : Nat} {program : Bytes}
    (hp : Spend.program flags s.prevout.scriptPubkey = some (version, program)) :
    s.verifyNative flags version program = .ok () := by
  unfold verify at h
  rw [hp] at h
  exact h

theorem verifyRedeem_of_verify {redeemScript : Bytes} {rest : List Bytes}
    (hp : program flags s.prevout.scriptPubkey = none) (hp2sh : s.isP2shSpend flags = true)
    (hsaved : s.runScriptSig flags = .ok (redeemScript :: rest)) :
    s.verifyRedeem flags redeemScript rest = .ok () := by
  obtain ⟨-, saved, stack, hsaved', -, -, hrest⟩ :=
    (verifyLegacy_eq_ok s flags).mp (verifyLegacy_of_verify h hp)
  cases hsaved.symm.trans hsaved'
  rw [verifySaved_cons hp2sh] at hrest
  exact hrest

/-- Version 0, native or nested, has been verified. -/
theorem HasProgram.verifyV0 {program : Bytes} (hp : s.HasProgram flags 0 program) :
    s.verifyV0 flags program = .ok () := by
  cases hp with
  | native hp =>
    obtain ⟨u, -, hrest⟩ := bind_eq_ok.mp (verifyNative_of_verify h hp)
    exact hrest
  | nested hp hp2sh hsaved hprogram =>
    obtain ⟨u, -, hrest⟩ := bind_eq_ok.mp (verifyRedeem_of_verify h hp hp2sh hsaved)
    simp only [hprogram] at hrest
    exact hrest

/-- **A spend that verifies has succeeded in all it executes.** -/
theorem succeeds_of_verify {e : Execution} (he : s.Executes flags e) : e.Succeeds := by
  cases he with
  | scriptSig hp =>
    obtain ⟨-, saved, stack, hsaved, -⟩ :=
      (verifyLegacy_eq_ok s flags).mp (verifyLegacy_of_verify h hp)
    exact succeeds_of_executeScriptInner hsaved
  | scriptPubkey hp hsaved =>
    obtain ⟨-, saved, stack, hsaved', hrun, -⟩ :=
      (verifyLegacy_eq_ok s flags).mp (verifyLegacy_of_verify h hp)
    cases hsaved.symm.trans hsaved'
    exact succeeds_of_executeScriptInner hrun
  | redeemScript hp hp2sh hsaved hprogram =>
    obtain ⟨u, -, hrest⟩ := bind_eq_ok.mp (verifyRedeem_of_verify h hp hp2sh hsaved)
    simp only [hprogram, bind_eq_ok] at hrest
    obtain ⟨result, hrun, -⟩ := hrest
    exact succeeds_of_executeScriptInner hrun
  | witnessScript hp hlen hlast =>
    obtain ⟨result, -, hrun, -⟩ := executed_of_verifyV0 (hp.verifyV0 h) hlen hlast
    exact succeeds_of_executeScriptInner hrun
  | tapscript hp htaproot hlen hitems hleaf =>
    obtain ⟨u, -, hrest⟩ := bind_eq_ok.mp (verifyNative_of_verify h hp)
    rw [if_neg Nat.one_ne_zero, if_pos ⟨rfl, htaproot, hlen⟩] at hrest
    obtain ⟨result, -, hrun, -⟩ := executed_of_verifyWitnessV1 hrest hitems hleaf
    exact succeeds_of_executeTapscript s.input_eq hrun

end Spend

/-! ## What the lock-time opcodes have compared -/

omit [ScriptCrypto] in
/-- The operand of a lock-time opcode: the top of the stack, a number of up to five
bytes that is not negative. -/
def Operand (stack : List Bytes) (n : Nat) : Prop :=
  ∃ top rest, stack = top :: rest ∧ decodeNumBounded top 5 = .ok (n : Int)

variable {stack : List Bytes}

omit [ScriptCrypto] in
theorem lockOperand_of_operand {n : Nat} (h : Operand stack n)
    (empty negative : String) : lockOperand stack empty negative = .ok n := by
  obtain ⟨top, rest, rfl, hn⟩ := h
  simp only [lockOperand, hn, ok_bind, bind_eq_ok, exists_unit, rejectIf_eq_ok]
  exact ⟨by omega, rfl⟩

omit [ScriptCrypto] in
theorem inputAt_eq_ok :
    inputAt tx inputIndex = .ok input ↔ tx.input[inputIndex]? = some input := by
  unfold inputAt
  cases tx.input[inputIndex]? with
  | none => simp
  | some i => simp

omit [ScriptCrypto] in
/-- What `OP_CHECKSEQUENCEVERIFY` asks of the input. -/
theorem sequence_of_checkSequence {n : Nat}
    (hn : Operand stack n) (hdisabled : sequenceDisabled (UInt32.ofNat n) = false)
    (hin : tx.input[inputIndex]? = some input)
    (h : checkSequence tx inputIndex stack = .ok ()) :
    sequenceDisabled input.sequence = false
      ∧ sequenceTimeBased (UInt32.ofNat n) = sequenceTimeBased input.sequence
      ∧ UInt32.ofNat n &&& 0xffff ≤ input.sequence &&& 0xffff := by
  simp only [checkSequence, lockOperand_of_operand hn, ok_bind, checkIf_eq_ok, hdisabled,
    forall_const, bind_eq_ok, exists_unit, rejectIf_eq_ok, inputAt_eq_ok.mpr hin,
    Bool.not_eq_true, not_not, UInt32.not_lt, ne_eq] at h
  exact h

omit [ScriptCrypto] in
/-- What `OP_CHECKLOCKTIMEVERIFY` asks of the transaction. -/
theorem lockTime_of_checkLockTime {n : Nat}
    (hn : Operand stack n) (hin : tx.input[inputIndex]? = some input)
    (h : checkLockTime tx inputIndex stack = .ok ()) :
    (locktimeThreshold ≤ n ↔ locktimeThreshold ≤ tx.lockTime.toNat) ∧ n ≤ tx.lockTime.toNat
      ∧ input.sequence ≠ 0xffffffff := by
  simp only [checkLockTime, lockOperand_of_operand hn, ok_bind, bind_eq_ok,
    exists_unit, rejectIf_eq_ok, inputAt_eq_ok.mpr hin, not_not, not_lt, ne_eq,
    decide_eq_decide] at h
  exact h

namespace Spend

/-- **The spend ran a lock-time opcode on an operand.** -/
def RanOn (s : Spend) (flags : ScriptFlags) (code : UInt8) (n : Nat) : Prop :=
  ∃ e m, s.Executes flags e ∧ e.Ran code m ∧ Operand m.stack n

variable {s : Spend} {flags : ScriptFlags} {n : Nat}

section

variable (hcltv : flags.verifyChecklocktimeverify = true)
  (hcsv : flags.verifyChecksequenceverify = true) (h : s.verify flags = .ok ())
include hcltv hcsv h

/-- `OP_CHECKSEQUENCEVERIFY` run by a spend that verifies. -/
theorem sequence_of_ranOn (hran : s.RanOn flags 0xb2 n)
    (hdisabled : sequenceDisabled (UInt32.ofNat n) = false) :
    sequenceDisabled s.input.sequence = false
      ∧ sequenceTimeBased (UInt32.ofNat n) = sequenceTimeBased s.input.sequence
      ∧ UInt32.ofNat n &&& 0xffff ≤ s.input.sequence &&& 0xffff := by
  obtain ⟨e, m, he, hran, hn⟩ := hran
  exact sequence_of_checkSequence hn hdisabled s.input_eq
    (Execution.checkSequence_of_ran (he.locksFor hcltv hcsv) (succeeds_of_verify h he) hran)

/-- `OP_CHECKLOCKTIMEVERIFY` run by a spend that verifies. -/
theorem lockTime_of_ranOn (hran : s.RanOn flags 0xb1 n) :
    (locktimeThreshold ≤ n ↔ locktimeThreshold ≤ s.tx.lockTime.toNat)
      ∧ n ≤ s.tx.lockTime.toNat ∧ s.input.sequence ≠ 0xffffffff := by
  obtain ⟨e, m, he, hran, hn⟩ := hran
  exact lockTime_of_checkLockTime hn s.input_eq
    (Execution.checkLockTime_of_ran (he.locksFor hcltv hcsv) (succeeds_of_verify h he) hran)

end

end Spend

end Script
