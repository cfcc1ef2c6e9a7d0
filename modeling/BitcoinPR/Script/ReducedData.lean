import BitcoinPR.Script.Effects
import BitcoinPR.Script.Verify

/-!
# What the BIP-110 flag adds

The flag is read at a dozen places: in the loops of the two interpreters, in
scans before a script is run, at the early returns of the witness versions. At
each of them the flag only rejects, and what it rejects is a condition on the
input. `Spend.Checked` collects these conditions over the paths a spend can take,
and `Spend.verify_bip110` says that with the flag a spend is accepted if it is
accepted without and meets them.

The loops are the rule for stricter steps (`runProgram_eq_ok_iff`): the condition
at every instruction the laxer run comes to. A legacy run that succeeds comes to
all of them, a tapscript may return early at an `OP_SUCCESS`, which the scan has
excluded by then.
-/

open Except

namespace Script

/-- Within the BIP-110 limit for pushes and witness items. -/
def Small (data : Bytes) : Prop := data.length ≤ bip110MaxPushSize

instance : DecidablePred Small := fun data =>
  inferInstanceAs (Decidable (data.length ≤ bip110MaxPushSize))

theorem checkSizes_eq_ok {kind : String} {items : List Bytes} {u : Unit} :
    checkSizes kind items = .ok u ↔ ∀ item ∈ items, Small item := by
  unfold checkSizes
  cases h : items.find? fun item => decide (bip110MaxPushSize < item.length) with
  | none =>
    rw [List.find?_eq_none] at h
    simp only [decide_eq_true_eq, not_lt] at h
    exact iff_of_true rfl h
  | some item =>
    have hmem := List.mem_of_find?_eq_some h
    have hlen := List.find?_some h
    simp only [decide_eq_true_eq] at hlen
    refine iff_of_false (fun he => by cases he) fun hall => ?_
    exact absurd (hall item hmem) (not_le.mpr hlen)

theorem mem_pushes {script data : Bytes} :
    data ∈ pushes script ↔ Instruction.pushBytes data ∈ parse script := by
  unfold pushes
  rw [List.mem_filterMap]
  constructor
  · rintro ⟨i, hi, hdata⟩
    cases i with
    | pushBytes d =>
      cases hdata
      exact hi
    | op code => cases hdata
  · intro h
    exact ⟨_, h, rfl⟩

variable [ScriptCrypto]

/-! ## Legacy and version-0 scripts -/

section Legacy

variable {script : Bytes} {tx : Tx} {inputIndex : Nat} {amount : UInt64} {flags : ScriptFlags}
  {segwit : Bool}

omit [ScriptCrypto] in
theorem Legacy.stepPush_bip110 {st st' : Legacy.State} {data : Bytes} :
    Legacy.stepPush ⟨script, tx, inputIndex, amount, flags.withBip110 true, segwit⟩
        st data = .ok st'
      ↔ Legacy.stepPush
          ⟨script, tx, inputIndex, amount, flags.withBip110 false, segwit⟩ st data
            = .ok st' ∧ Small data := by
  simp only [stepPush, ScriptFlags.withBip110, bind_eq_ok, exists_unit, rejectIf_eq_ok,
    true_and, Bool.false_eq_true, false_and, not_false_eq_true, not_lt, Small]
  constructor
  · rintro ⟨hlen, hsmall, h⟩
    exact ⟨⟨hlen, h⟩, hsmall⟩
  · rintro ⟨⟨hlen, h⟩, hsmall⟩
    exact ⟨hlen, hsmall, h⟩

/-- What BIP-110 asks of an instruction of a script that is run. -/
def SmallPush : Instruction → Prop
  | .pushBytes data => Small data
  | .op _ => True

theorem Legacy.step_bip110 (st : Legacy.State) (i : Instruction) (f : StepResult Legacy.State) :
    Legacy.step ⟨script, tx, inputIndex, amount, flags.withBip110 true, segwit⟩ st i
        = .ok f
      ↔ Legacy.step ⟨script, tx, inputIndex, amount, flags.withBip110 false, segwit⟩
          st i = .ok f ∧ SmallPush i := by
  cases i with
  | pushBytes data =>
    simp only [step, bind_eq_ok, stepPush_bip110]
    exact (exists_congr fun _ => and_right_comm).trans exists_and_right
  | op code =>
    exact (and_iff_left trivial).symm

/-- **A legacy script with BIP-110**: it runs as without, and all its pushes are
small, in branches taken or not. -/
theorem executeScriptInner_bip110 {stack result : List Bytes} :
    executeScriptInner script stack tx inputIndex amount (flags.withBip110 true) segwit
        = .ok result
      ↔ executeScriptInner script stack tx inputIndex amount (flags.withBip110 false)
          segwit = .ok result ∧ ∀ data ∈ pushes script, Small data := by
  simp only [executeScriptInner, bind_eq_ok, exists_unit,
    runProgram_eq_ok_iff (P := fun _ i => SmallPush i) Legacy.step_bip110]
  constructor
  · rintro ⟨hsize, flow, ⟨hrun, hsmall⟩, hend⟩
    refine ⟨⟨hsize, flow, hrun, hend⟩, fun data hdata => ?_⟩
    obtain ⟨st, hst⟩ := exists_reached (Legacy.step_ne_done _) hrun (mem_pushes.mp hdata)
    exact hsmall st _ hst
  · rintro ⟨⟨hsize, flow, hrun, hend⟩, hsmall⟩
    refine ⟨hsize, flow, ⟨hrun, ?_⟩, hend⟩
    intro st i hreached
    cases i with
    | op code => trivial
    | pushBytes data => exact hsmall data (mem_pushes.mpr hreached.mem)

end Legacy

/-! ## Tapscript -/

section Tapscript

variable {script : Bytes} {tx : Tx} {inputIndex : Nat} {prevouts : List TxOut} {tapLeaf : Bytes}
  {annex : Option Bytes}

/-- What the scan asks of an instruction. -/
def Scanned : Instruction → Prop
  | .pushBytes data => Small data
  | .op code => isTapscriptSuccessOpcode code = false

omit [ScriptCrypto] in
theorem Tapscript.prescan_eq_ok {prog : List Instruction} {u : Unit} :
    prescan prog = .ok u ↔ ∀ i ∈ prog, Scanned i := by
  induction prog with
  | nil => exact iff_of_true rfl fun i hi => (List.not_mem_nil hi).elim
  | cons i prog ih =>
    rw [List.forall_mem_cons]
    cases i with
    | pushBytes data =>
      simp only [prescan, bind_eq_ok, exists_unit, rejectIf_eq_ok, ih, not_lt]
      exact Iff.rfl
    | op code =>
      simp only [prescan, bind_eq_ok, exists_unit, rejectIf_eq_ok, ih, Bool.not_eq_true]
      exact Iff.rfl

/-- Where BIP-110 lets an instruction of a tapscript be executed. -/
def NoBranch (st : Tapscript.State) : Instruction → Prop
  | .pushBytes _ => True
  | .op code => isTapscriptSuccessOpcode code = false → st.machine.executing = true →
      code ≠ 0x63 ∧ code ≠ 0x64

theorem Tapscript.stepOp_bip110 (st st' : Tapscript.State) (code : UInt8) :
    Tapscript.stepOp ⟨tx, inputIndex, prevouts, tapLeaf, annex, true⟩ st code = .ok st'
      ↔ Tapscript.stepOp ⟨tx, inputIndex, prevouts, tapLeaf, annex, false⟩ st code = .ok st'
        ∧ (st.machine.executing = true → code ≠ 0x63 ∧ code ≠ 0x64) := by
  simp only [stepOp, bind_eq_ok, exists_unit, rejectIf_eq_ok, true_and, Bool.false_eq_true,
    false_and, not_false_eq_true, not_and, not_or]
  exact and_comm

theorem Tapscript.step_bip110 (st : Tapscript.State) (i : Instruction)
    (f : StepResult Tapscript.State) :
    Tapscript.step ⟨tx, inputIndex, prevouts, tapLeaf, annex, true⟩ st i = .ok f
      ↔ Tapscript.step ⟨tx, inputIndex, prevouts, tapLeaf, annex, false⟩ st i = .ok f
        ∧ NoBranch st i := by
  cases i with
  | pushBytes data => exact (and_iff_left trivial).symm
  | op code =>
    cases hs : isTapscriptSuccessOpcode code with
    | true =>
      simp only [step, hs, if_true, NoBranch, Bool.true_eq_false, false_imp_iff, and_true]
    | false =>
      simp only [step, hs, Bool.false_eq_true, if_false, bind_eq_ok, stepOp_bip110, NoBranch,
        true_imp_iff]
      exact (exists_congr fun _ => and_right_comm).trans exists_and_right

/-- **What BIP-110 asks of a tapleaf script** that is run: small pushes and no
`OP_SUCCESS` anywhere, and no `OP_IF` or `OP_NOTIF` where it is executed. -/
structure LeafRules (tx : Tx) (inputIndex : Nat) (prevouts : List TxOut) (annex : Option Bytes)
    (witness : List Bytes) (tapLeaf script : Bytes) (stack : List Bytes) : Prop where
  pushes : ∀ data ∈ pushes script, Small data
  noSuccess : ∀ code, .op code ∈ parse script → isTapscriptSuccessOpcode code = false
  noBranch : ∀ st code,
    Reached (Tapscript.step ⟨tx, inputIndex, prevouts, tapLeaf, annex, false⟩)
      (Tapscript.State.start stack witness) (parse script) st (.op code) →
    st.machine.executing = true → code ≠ 0x63 ∧ code ≠ 0x64

omit [ScriptCrypto] in
theorem forall_scanned {script : Bytes} :
    (∀ i ∈ parse script, Scanned i)
      ↔ (∀ data ∈ pushes script, Small data)
        ∧ ∀ code, .op code ∈ parse script → isTapscriptSuccessOpcode code = false := by
  constructor
  · intro h
    exact ⟨fun data hdata => h _ (mem_pushes.mp hdata), fun code hcode => h _ hcode⟩
  · rintro ⟨hpush, hop⟩ i hi
    cases i with
    | pushBytes data => exact hpush data (mem_pushes.mpr hi)
    | op code => exact hop code hi

/-- **A tapscript with BIP-110**: it runs as without, within the rules. -/
theorem executeTapscript_bip110 {stack result : List Bytes} {input : TxIn}
    (hin : tx.input[inputIndex]? = some input) :
    executeTapscript script stack tx inputIndex prevouts tapLeaf annex true = .ok result
      ↔ executeTapscript script stack tx inputIndex prevouts tapLeaf annex false = .ok result
        ∧ LeafRules tx inputIndex prevouts annex input.witness tapLeaf script stack := by
  have hin' : inputAt tx inputIndex = .ok input := by
    unfold inputAt
    rw [hin]
  simp only [executeTapscript, checkIf, if_true, Bool.false_eq_true, if_false, hin',
    ok_bind, bind_eq_ok, exists_unit, Tapscript.prescan_eq_ok, rejectIf_eq_ok,
    Bool.not_eq_false, forall_scanned, runProgram_eq_ok_iff Tapscript.step_bip110]
  constructor
  · rintro ⟨⟨⟨hpush, hop⟩, -⟩, flow, ⟨hrun, hbranch⟩, hend⟩
    refine ⟨⟨flow, hrun, hend⟩, hpush, hop, fun st code hreached hex => ?_⟩
    exact hbranch st _ hreached (hop code hreached.mem) hex
  · rintro ⟨⟨flow, hrun, hend⟩, hrules⟩
    -- without an `OP_SUCCESS` the loop did not return early, so it saw the whole script
    obtain ⟨st, rfl⟩ : ∃ st, flow = .next st := by
      cases flow with
      | next st => exact ⟨st, rfl⟩
      | done st =>
        obtain ⟨u, i, -, hi, hstep⟩ := exists_reached_done hrun
        obtain ⟨code, rfl, hs⟩ := Tapscript.success_of_step_done hstep
        rw [hrules.noSuccess code hi] at hs
        cases hs
    simp only [bind_eq_ok, exists_unit, rejectIf_eq_ok, Bool.not_eq_false] at hend
    refine ⟨⟨⟨hrules.pushes, hrules.noSuccess⟩, hend.1⟩, .next st, ⟨hrun, ?_⟩, ?_⟩
    · intro t i hreached
      cases i with
      | pushBytes data => trivial
      | op code => exact fun _ hex => hrules.noBranch t code hreached hex
    · simp only [bind_eq_ok, exists_unit, rejectIf_eq_ok, Bool.not_eq_false]
      exact hend

end Tapscript

/-! ## Witness programs -/

/-- What BIP-110 asks of the witness of a version-0 program: small arguments,
and small pushes in the witness script. -/
def V0Rules (program : Bytes) (witness : List Bytes) : Prop :=
  if program.length = 32 then
    (∀ item ∈ witness.dropLast, Small item)
      ∧ ∀ witnessScript ∈ witness.getLast?, ∀ data ∈ pushes witnessScript, Small data
  else ∀ item ∈ witness, Small item

section V0

variable {tx : Tx} {inputIndex : Nat} {amount : UInt64} {program : Bytes} {witness : List Bytes}
  {u : Unit}

theorem verifyP2wpkh_bip110 :
    verifyP2wpkh tx inputIndex amount program witness true = .ok u
      ↔ verifyP2wpkh tx inputIndex amount program witness false = .ok u
        ∧ ∀ item ∈ witness, Small item := by
  unfold verifyP2wpkh
  split
  · simp only [bip110CheckWitnessItems, checkIf, if_true, Bool.false_eq_true, if_false,
      ok_bind, bind_eq_ok, exists_unit, checkSizes_eq_ok]
    exact and_comm
  · exact iff_of_false (fun h => by cases h) fun h => by cases h.1

theorem verifyP2wsh_bip110 :
    verifyP2wsh tx inputIndex amount program witness true = .ok u
      ↔ verifyP2wsh tx inputIndex amount program witness false = .ok u
        ∧ (∀ item ∈ witness.dropLast, Small item)
        ∧ ∀ witnessScript ∈ witness.getLast?, ∀ data ∈ pushes witnessScript, Small data := by
  unfold verifyP2wsh
  cases witness.getLast? with
  | none => exact iff_of_false (fun h => by cases h) fun h => by cases h.1
  | some witnessScript =>
    simp only [bip110CheckWitnessItems, checkIf, if_true, Bool.false_eq_true, if_false,
      ok_bind, bind_eq_ok, exists_unit, checkSizes_eq_ok, executeScriptInner_bip110,
      Option.mem_some_iff, forall_eq']
    constructor
    · rintro ⟨hhash, hitems, result, ⟨hrun, hpush⟩, htop⟩
      exact ⟨⟨hhash, result, hrun, htop⟩, hitems, hpush⟩
    · rintro ⟨⟨hhash, result, hrun, htop⟩, hitems, hpush⟩
      exact ⟨hhash, hitems, result, ⟨hrun, hpush⟩, htop⟩

theorem verifyWitnessV0_bip110 :
    verifyWitnessV0 tx inputIndex amount program witness true = .ok u
      ↔ verifyWitnessV0 tx inputIndex amount program witness false = .ok u
        ∧ V0Rules program witness := by
  unfold verifyWitnessV0 V0Rules
  by_cases h20 : program.length = 20
  · have h32 : ¬ program.length = 32 := by omega
    rw [if_pos h20, if_pos h20, if_neg h32]
    exact verifyP2wpkh_bip110
  · by_cases h32 : program.length = 32
    · rw [if_neg h20, if_neg h20, if_pos h32, if_pos h32, if_pos h32]
      exact verifyP2wsh_bip110
    · rw [if_neg h20, if_neg h20, if_neg h32, if_neg h32]
      exact iff_of_false (fun h => by cases h) fun h => by cases h.1

end V0

/-- What BIP-110 asks of a script-path spend. -/
structure ScriptPathRules (s : Spend) (control tapScript : Bytes) (stack : List Bytes) : Prop where
  controlBlock : control.length ≤ bip110MaxControlBlockSize
  leafVersion : ∀ version, ScriptCrypto.controlBlock control = .ok version → version = 0xc0
  items : ∀ item ∈ stack, Small item
  leaf : LeafRules s.tx s.inputIndex s.prevouts (annex s.input.witness) s.input.witness
    (ScriptCrypto.tapLeafHash tapScript) tapScript stack

/-- What BIP-110 asks of a Taproot spend. -/
structure TaprootRules (s : Spend) : Prop where
  noAnnex : hasAnnex s.input.witness = false
  keyPath : ∀ sig, taprootItems s.input.witness = [sig] → Small sig
  scriptPath : ∀ control tapScript stack,
    taprootItems s.input.witness = control :: tapScript :: stack →
      ScriptPathRules s control tapScript stack

section V1

variable {s : Spend} {u : Unit}

theorem verifyScriptPath_bip110 {outputKey control tapScript : Bytes} {stack : List Bytes} :
    verifyScriptPath s.tx s.inputIndex s.prevouts outputKey control tapScript stack
        (annex s.input.witness) true = .ok u
      ↔ verifyScriptPath s.tx s.inputIndex s.prevouts outputKey control tapScript stack
          (annex s.input.witness) false = .ok u
        ∧ ScriptPathRules s control tapScript stack := by
  simp only [verifyScriptPath, bind_eq_ok, exists_unit, rejectIf_eq_ok, orInvalid_eq_ok,
    true_and, Bool.false_eq_true, false_and, not_false_eq_true, not_lt]
  constructor
  · rintro ⟨hcontrol, version, hversion, hcommit, h⟩
    by_cases hleaf : version = 0xc0
    · rw [if_pos hleaf] at h
      simp only [bip110CheckWitnessItems, checkIf, if_true, bind_eq_ok, exists_unit,
        checkSizes_eq_ok, executeTapscript_bip110 s.input_eq, List.mem_reverse] at h
      obtain ⟨hitems, result, ⟨hrun, hrules⟩, htop⟩ := h
      refine ⟨⟨version, hversion, hcommit, ?_⟩, hcontrol, fun v hv => ?_, hitems, hrules⟩
      · rw [if_pos hleaf]
        simp only [checkIf, if_false, ok_bind, bind_eq_ok]
        exact ⟨result, hrun, htop⟩
      · cases hv.symm.trans hversion
        exact hleaf
    · rw [if_neg hleaf] at h
      simp only [rejectIf_eq_ok, not_true_eq_false] at h
  · rintro ⟨⟨version, hversion, hcommit, h⟩, hrules⟩
    have hleaf : version = 0xc0 := hrules.leafVersion version hversion
    refine ⟨hrules.controlBlock, version, hversion, hcommit, ?_⟩
    rw [if_pos hleaf] at h ⊢
    simp only [checkIf, if_false, ok_bind, bind_eq_ok] at h
    obtain ⟨result, hrun, htop⟩ := h
    simp only [bip110CheckWitnessItems, checkIf, if_true, bind_eq_ok, exists_unit,
      checkSizes_eq_ok, executeTapscript_bip110 s.input_eq, List.mem_reverse]
    exact ⟨hrules.items, result, ⟨hrun, hrules.leaf⟩, htop⟩

theorem verifyWitnessV1_bip110 {program : Bytes} :
    verifyWitnessV1 s.tx s.inputIndex s.prevouts program s.input.witness true = .ok u
      ↔ verifyWitnessV1 s.tx s.inputIndex s.prevouts program s.input.witness false = .ok u
        ∧ TaprootRules s := by
  simp only [verifyWitnessV1, bind_eq_ok, exists_unit, rejectIf_eq_ok, orInvalid_eq_ok,
    true_and, Bool.false_eq_true, false_and, not_false_eq_true, Bool.not_eq_true]
  constructor
  · rintro ⟨hne, hannex, key, hkey, h⟩
    rcases hitems : taprootItems s.input.witness with _ | ⟨item, _ | ⟨tapScript, stack⟩⟩
    · rw [hitems] at h
      exact ⟨⟨hne, key, hkey, h⟩, hannex, fun sig hsig => (by cases hitems.symm.trans hsig),
        fun c t st hst => (by cases hitems.symm.trans hst)⟩
    · rw [hitems] at h
      simp only [bip110CheckWitnessItems, checkIf, if_true, bind_eq_ok, exists_unit,
        checkSizes_eq_ok, List.forall_mem_singleton] at h
      refine ⟨⟨hne, key, hkey, ?_⟩, hannex, fun sig hsig => ?_, fun c t st hst => ?_⟩
      · exact h.2
      · cases hitems.symm.trans hsig
        exact h.1
      · cases hitems.symm.trans hst
    · rw [hitems] at h
      obtain ⟨h, hrules⟩ := verifyScriptPath_bip110.mp h
      refine ⟨⟨hne, key, hkey, h⟩, hannex, fun sig hsig => ?_, fun c t st hst => ?_⟩
      · cases hitems.symm.trans hsig
      · cases hitems.symm.trans hst
        exact hrules
  · rintro ⟨⟨hne, key, hkey, h⟩, hrules⟩
    refine ⟨hne, hrules.noAnnex, key, hkey, ?_⟩
    rcases hitems : taprootItems s.input.witness with _ | ⟨item, _ | ⟨tapScript, stack⟩⟩
    · rw [hitems] at h
      exact h
    · rw [hitems] at h
      simp only [bip110CheckWitnessItems, checkIf, if_true, bind_eq_ok, exists_unit,
        checkSizes_eq_ok, List.forall_mem_singleton]
      exact ⟨hrules.keyPath item hitems, h⟩
    · rw [hitems] at h
      exact verifyScriptPath_bip110.mpr ⟨h, hrules.scriptPath _ _ _ hitems⟩

end V1

/-! ## Spends -/

namespace Spend

variable (s : Spend) (flags : ScriptFlags)

/-- The redeem script a script-hash spend runs: what its scriptSig leaves on
top. -/
def redeemScript : Option Bytes :=
  if s.isP2shSpend flags then
    match s.runScriptSig flags with
    | .ok (top :: _) => some top
    | _ => none
  else none

/-- What the code checks of a witness program nested in a script hash. -/
def NestedChecked (version : Nat) (program : Bytes) : Prop :=
  if version = 0 then V0Rules program s.input.witness
  else version = 1 ∧ program = p2aWitnessProgram

/-- What the code checks of a native witness program. -/
def NativeChecked (version : Nat) (program : Bytes) : Prop :=
  if version = 0 then V0Rules program s.input.witness
  else if version = 1 ∧ flags.verifyTaproot ∧ program.length = 32 then TaprootRules s
  else version = 1 ∧ program = p2aWitnessProgram

/-- What the code checks of a redeem script. -/
def RedeemChecked (redeemScript : Bytes) : Prop :=
  match program flags redeemScript with
  | some (version, program) => s.NestedChecked version program
  | none => ∀ data ∈ pushes redeemScript, Small data

/-- What the code checks of an output script that is no witness program. -/
structure LegacyChecked : Prop where
  scriptSig : ∀ data ∈
    (if s.isP2shSpend flags then (pushes s.input.scriptSig).dropLast else pushes s.input.scriptSig),
      Small data
  scriptPubkey : ∀ data ∈ pushes s.prevout.scriptPubkey, Small data
  redeem : ∀ redeemScript ∈ s.redeemScript flags, s.RedeemChecked flags redeemScript

/-- **What the code checks with BIP-110.** -/
def Checked : Prop :=
  match program flags s.prevout.scriptPubkey with
  | some (version, program) => s.NativeChecked flags version program
  | none => s.LegacyChecked flags

section

variable {s flags} {u : Unit} {version : Nat} {program : Bytes}

omit [ScriptCrypto] in
theorem program_withBip110 (b : Bool) (script : Bytes) :
    Spend.program (flags.withBip110 b) script = Spend.program flags script := rfl

omit [ScriptCrypto] in
theorem checkUndefinedVersion_bip110 :
    checkUndefinedVersion true version program = .ok u
      ↔ checkUndefinedVersion false version program = .ok u
        ∧ version = 1 ∧ program = p2aWitnessProgram := by
  simp [checkUndefinedVersion]

theorem verifyNested_bip110 :
    s.verifyNested (flags.withBip110 true) version program = .ok u
      ↔ s.verifyNested (flags.withBip110 false) version program = .ok u
        ∧ s.NestedChecked version program := by
  unfold verifyNested NestedChecked
  by_cases h0 : version = 0
  · rw [if_pos h0, if_pos h0, if_pos h0]
    exact verifyWitnessV0_bip110
  · rw [if_neg h0, if_neg h0, if_neg h0]
    exact checkUndefinedVersion_bip110

theorem verifyNative_bip110 :
    s.verifyNative (flags.withBip110 true) version program = .ok u
      ↔ s.verifyNative (flags.withBip110 false) version program = .ok u
        ∧ s.NativeChecked flags version program := by
  simp only [verifyNative, bind_eq_ok, exists_unit]
  rw [and_assoc]
  refine and_congr_right fun _ => ?_
  unfold NativeChecked
  by_cases h0 : version = 0
  · rw [if_pos h0, if_pos h0, if_pos h0]
    exact verifyWitnessV0_bip110
  · rw [if_neg h0, if_neg h0, if_neg h0]
    have htap : ∀ b, (flags.withBip110 b).verifyTaproot = flags.verifyTaproot := fun b => rfl
    by_cases h1 : version = 1 ∧ flags.verifyTaproot = true ∧ program.length = 32
    · rw [if_pos ((htap true).symm ▸ h1), if_pos ((htap false).symm ▸ h1), if_pos h1]
      exact verifyWitnessV1_bip110
    · rw [if_neg ((htap true).symm ▸ h1), if_neg ((htap false).symm ▸ h1), if_neg h1]
      exact checkUndefinedVersion_bip110

theorem verifyRedeem_bip110 {redeemScript : Bytes} {stack : List Bytes} :
    s.verifyRedeem (flags.withBip110 true) redeemScript stack = .ok u
      ↔ s.verifyRedeem (flags.withBip110 false) redeemScript stack = .ok u
        ∧ s.RedeemChecked flags redeemScript := by
  simp only [verifyRedeem, bind_eq_ok, exists_unit]
  rw [and_assoc]
  refine and_congr_right fun _ => ?_
  unfold RedeemChecked
  simp only [program_withBip110]
  cases Spend.program flags redeemScript with
  | some p => exact verifyNested_bip110
  | none =>
    simp only [execute, executeScriptInner_bip110, bind_eq_ok, exists_unit]
    exact (exists_congr fun _ => and_right_comm).trans exists_and_right

theorem redeemScript_eq_head? {saved : List Bytes} (hp : s.isP2shSpend flags = true)
    (hsaved : s.runScriptSig flags = .ok saved) : s.redeemScript flags = saved.head? := by
  rw [redeemScript, if_pos hp, hsaved]
  cases saved with
  | nil => rfl
  | cons top rest => rfl

theorem redeemScript_of_not_p2sh (hp : ¬ s.isP2shSpend flags = true) :
    s.redeemScript flags = none := if_neg hp

theorem verifySaved_bip110 {saved : List Bytes} (hsaved : s.runScriptSig flags = .ok saved) :
    s.verifySaved (flags.withBip110 true) saved = .ok u
      ↔ s.verifySaved (flags.withBip110 false) saved = .ok u
        ∧ ∀ redeemScript ∈ s.redeemScript flags, s.RedeemChecked flags redeemScript := by
  have hp2sh : ∀ b, s.isP2shSpend (flags.withBip110 b) = s.isP2shSpend flags := fun b => rfl
  have hwit : ∀ b, s.checkWitnessUnexpected (flags.withBip110 b) = s.checkWitnessUnexpected flags :=
    fun b => rfl
  by_cases hp : s.isP2shSpend flags = true
  · rw [redeemScript_eq_head? hp hsaved]
    cases saved with
    | nil =>
      exact (and_iff_left fun r hr => by cases hr).symm
    | cons top rest =>
      rw [verifySaved_cons ((hp2sh true).trans hp), verifySaved_cons ((hp2sh false).trans hp)]
      simp only [List.head?_cons, Option.mem_some_iff, forall_eq']
      exact verifyRedeem_bip110
  · rw [redeemScript_of_not_p2sh hp, verifySaved_of_not_p2sh (hp2sh true ▸ hp),
      verifySaved_of_not_p2sh (hp2sh false ▸ hp)]
    exact (and_iff_left fun r hr => by cases hr).symm

theorem verifyLegacy_bip110 :
    s.verifyLegacy (flags.withBip110 true) = .ok u
      ↔ s.verifyLegacy (flags.withBip110 false) = .ok u ∧ s.LegacyChecked flags := by
  have hsig : ∀ b, s.runScriptSig (flags.withBip110 b) = s.runScriptSig flags := fun b => rfl
  have hp2sh : ∀ b, s.isP2shSpend (flags.withBip110 b) = s.isP2shSpend flags := fun b => rfl
  have hon : (flags.withBip110 true).verifyBip110 = true := rfl
  have hoff : (flags.withBip110 false).verifyBip110 = false := rfl
  simp only [verifyLegacy_eq_ok, hsig, hp2sh, bip110CheckPushes, bind_eq_ok, exists_unit,
    rejectIf_eq_ok, Bool.not_eq_false, checkSizes_eq_ok, execute, executeScriptInner_bip110, hon,
    hoff, forall_const, Bool.false_eq_true, false_imp_iff, true_and]
  constructor
  · rintro ⟨⟨-, hpush⟩, saved, stack, hsaved, ⟨hrun, hspk⟩, htop, hrest⟩
    obtain ⟨hrest, hredeem⟩ := (verifySaved_bip110 hsaved).mp hrest
    exact ⟨⟨saved, stack, hsaved, hrun, htop, hrest⟩, hpush, hspk, hredeem⟩
  · rintro ⟨⟨saved, stack, hsaved, hrun, htop, hrest⟩, hchk⟩
    refine ⟨⟨parses_of_executeScriptInner hsaved, hchk.scriptSig⟩, saved, stack, hsaved,
      ⟨hrun, hchk.scriptPubkey⟩, htop, ?_⟩
    exact (verifySaved_bip110 hsaved).mpr ⟨hrest, hchk.redeem⟩

/-- **The BIP-110 flag adds exactly what is checked.** -/
theorem verify_bip110 :
    s.verify (flags.withBip110 true) = .ok u
      ↔ s.verify (flags.withBip110 false) = .ok u ∧ s.Checked flags := by
  unfold verify Checked
  simp only [program_withBip110]
  cases Spend.program flags s.prevout.scriptPubkey with
  | some p => exact verifyNative_bip110
  | none => exact verifyLegacy_bip110

end

end Spend

end Script
