import BitcoinPR.Script.Executions
import Mathlib.Data.List.TakeWhile

/-!
# Opcodes that succeed

BIP 342 keeps a range of opcodes for later: a tapleaf script that has one of them
anywhere succeeds, before anything is run. The code looks for them while it runs
the script. What comes before such an opcode is run and may fail, and when the
opcode is met the loop returns, after which the stack is still asked for a true
element on top.

So a script with such an opcode is accepted exactly if what stands before the
first of them runs through and leaves a true element on top
(`Spend.verify_iff_beforeSuccess`).
-/

namespace Script

/-- The instruction is an `OP_SUCCESS` opcode. -/
def Instruction.isSuccess : Instruction → Bool
  | .pushBytes _ => false
  | .op code => isTapscriptSuccessOpcode code

/-- **The script has an `OP_SUCCESS` opcode** that parsing comes to. -/
def HasSuccess (script : Bytes) : Prop := ∃ i ∈ parse script, Instruction.isSuccess i = true

/-- The instructions before the first `OP_SUCCESS` opcode. -/
def beforeSuccess (script : Bytes) : List Instruction :=
  (parse script).takeWhile fun i => !Instruction.isSuccess i

/-- A script with an `OP_SUCCESS` opcode, cut at the first. -/
theorem HasSuccess.parse_eq {script : Bytes} (h : HasSuccess script) :
    ∃ code post, isTapscriptSuccessOpcode code = true
      ∧ parse script = beforeSuccess script ++ .op code :: post := by
  obtain ⟨i, hi, hsuccess⟩ := h
  have hne : (parse script).dropWhile (fun i => !Instruction.isSuccess i) ≠ [] := by
    intro hnil
    rw [List.dropWhile_eq_nil_iff] at hnil
    have := hnil i hi
    rw [hsuccess] at this
    cases this
  have hsplit := List.takeWhile_append_dropWhile
    (p := fun i => !Instruction.isSuccess i) (l := parse script)
  have hhead := List.head_dropWhile_not (fun i => !Instruction.isSuccess i) hne
  obtain ⟨j, post, hpost⟩ := List.exists_cons_of_ne_nil hne
  simp only [hpost, List.head_cons, Bool.not_eq_false'] at hhead
  cases j with
  | pushBytes data => cases hhead
  | op code =>
    refine ⟨code, post, hhead, ?_⟩
    rw [← hpost]
    exact hsplit.symm

variable [ScriptCrypto]

open ScriptCrypto

namespace Tapscript

/-- **An `OP_SUCCESS` opcode ends the run where it is met**: what stands before it
has been run. -/
theorem runProgram_of_hasSuccess {script : Bytes} (h : HasSuccess script) (ctx : Context)
    (st : State) :
    (∃ e, runProgram (step ctx) st (beforeSuccess script) = .error e
        ∧ runProgram (step ctx) st (parse script) = .error e)
      ∨ ∃ st', runProgram (step ctx) st (beforeSuccess script) = .ok (.next st')
        ∧ runProgram (step ctx) st (parse script) = .ok (.done st') := by
  obtain ⟨code, post, hcode, hparse⟩ := h.parse_eq
  rw [hparse]
  rcases hrun : runProgram (step ctx) st (beforeSuccess script) with e | (st' | st')
  · exact Or.inl ⟨e, rfl, runProgram_append_error hrun⟩
  · refine Or.inr ⟨st', rfl, ?_⟩
    rw [runProgram_append hrun, runProgram, step, if_pos hcode]
  · obtain ⟨u, i, -, hi, hstep⟩ := exists_reached_done hrun
    obtain ⟨code, rfl, hs⟩ := success_of_step_done hstep
    have hnot := List.mem_takeWhile_imp hi
    rw [Instruction.isSuccess, hs] at hnot
    cases hnot

end Tapscript

omit [ScriptCrypto] in
theorem checkTop_eq_ok {stack : List Bytes} {msg : String} {u : Unit} :
    checkTop stack msg = .ok u ↔ ∃ top, stack.head? = some top ∧ castToBool top = true := by
  unfold checkTop
  cases stack with
  | nil => simp
  | cons top rest => simp

namespace Spend

/-- **A spend of a tapleaf script**: a Taproot output, spent with an empty scriptSig
and a control block that is valid for the script, of leaf version `0xc0`, and with
BIP-110 off. -/
structure LeafSpend (s : Spend) (flags : ScriptFlags) (script : Bytes) (stack : List Bytes) :
    Prop where
  witness : flags.verifyWitness = true
  taproot : flags.verifyTaproot = true
  bip110 : flags.verifyBip110 = false
  scriptSig : s.input.scriptSig = []
  leaf : ∃ program outputKey control,
    parseWitnessProgram s.prevout.scriptPubkey = some (1, program) ∧ program.length = 32
      ∧ xOnlyPublicKey program = .ok outputKey
      ∧ taprootItems s.input.witness = control :: script :: stack
      ∧ controlBlock control = .ok 0xc0
      ∧ verifyTaprootCommitment control outputKey script = true

/-- What the interpreter reads for the spend. -/
def leafContext (s : Spend) (script : Bytes) : Tapscript.Context :=
  ⟨s.tx, s.inputIndex, s.prevouts, tapLeafHash script, annex s.input.witness, false⟩

variable {s : Spend} {flags : ScriptFlags} {script : Bytes} {stack : List Bytes}

/-- Such a spend verifies if its script leaves a true element on top. -/
theorem LeafSpend.verify_iff (h : s.LeafSpend flags script stack) :
    s.verify flags = .ok ()
      ↔ ∃ result, executeTapscript script stack s.tx s.inputIndex s.prevouts (tapLeafHash script)
          (annex s.input.witness) false = .ok result
        ∧ ∃ top, result.head? = some top ∧ castToBool top = true := by
  obtain ⟨program, outputKey, control, hprogram, hlen, hkey, hitems, hcontrol, hcommit⟩ := h.leaf
  have hne : s.input.witness ≠ [] := by
    intro hnil
    rw [hnil] at hitems
    cases hitems
  have hnative : s.verify flags = s.verifyNative flags 1 program := by
    unfold verify
    rw [program_of_witness h.witness, hprogram]
  rw [hnative]
  simp only [verifyNative, h.scriptSig, Except.bind_eq_ok, exists_unit, rejectIf_eq_ok,
    if_neg Nat.one_ne_zero, h.taproot, hlen, and_self, if_true, verifyWitnessV1, hne, h.bip110,
    orInvalid_eq_ok, hkey, hitems, verifyScriptPath, hcontrol, hcommit, checkIf_eq_ok,
    checkTop_eq_ok, Bool.false_eq_true, false_and, not_false_eq_true, true_and, ne_eq,
    not_true_eq_false, false_implies, Except.ok.injEq, exists_eq_left', Bool.true_eq_false]

/-- The run of the script, for a spend with BIP-110 off. -/
theorem executeTapscript_of_hasSuccess (s : Spend) (hsuccess : HasSuccess script)
    {result : List Bytes} :
    executeTapscript script stack s.tx s.inputIndex s.prevouts (tapLeafHash script)
        (annex s.input.witness) false = .ok result
      ↔ ∃ st, runProgram (Tapscript.step (s.leafContext script))
          (Tapscript.State.start stack s.input.witness) (beforeSuccess script) = .ok (.next st)
        ∧ st.machine.stack = result := by
  have hinput : inputAt s.tx s.inputIndex = .ok s.input := inputAt_eq_ok.mpr s.input_eq
  unfold executeTapscript
  rw [show checkIf ((false : Bool) = true) _ = (.ok () : Except CoreError Unit) from rfl,
    Except.ok_bind, hinput, Except.ok_bind]
  rcases Tapscript.runProgram_of_hasSuccess hsuccess (s.leafContext script)
    (Tapscript.State.start stack s.input.witness) with ⟨e, hpre, hrun⟩ | ⟨st, hpre, hrun⟩
  · rw [hpre]
    unfold leafContext at hrun
    rw [hrun]
    exact iff_of_false (fun h => by cases h) fun h => by cases h.choose_spec.1
  · rw [hpre]
    unfold leafContext at hrun
    rw [hrun]
    constructor
    · intro h
      cases h
      exact ⟨st, rfl, rfl⟩
    · rintro ⟨st', hst, rfl⟩
      cases hst
      rfl

/-- **A script with an `OP_SUCCESS` opcode is accepted** exactly if what stands
before the first one runs through and leaves a true element on top. -/
theorem verify_iff_beforeSuccess (h : s.LeafSpend flags script stack)
    (hsuccess : HasSuccess script) :
    verifyScript s.tx s.inputIndex s.prevouts flags = .ok ()
      ↔ ∃ st top, runProgram (Tapscript.step (s.leafContext script))
          (Tapscript.State.start stack s.input.witness) (beforeSuccess script) = .ok (.next st)
        ∧ st.machine.stack.head? = some top ∧ castToBool top = true := by
  rw [verifyScript_spend, h.verify_iff]
  constructor
  · rintro ⟨result, hresult, top, htop, htrue⟩
    obtain ⟨st, hrun, rfl⟩ := (executeTapscript_of_hasSuccess s hsuccess).mp hresult
    exact ⟨st, top, hrun, htop, htrue⟩
  · rintro ⟨st, top, hrun, htop, htrue⟩
    exact ⟨_, (executeTapscript_of_hasSuccess s hsuccess).mpr ⟨st, hrun, rfl⟩, top, htop, htrue⟩

end Spend

omit [ScriptCrypto] in
/-- A spend whose script has such an opcode verifies, whatever the stack is and whatever
stands before or after the opcode. -/
def SuccessUnconditional : Prop :=
  ∀ [ScriptCrypto] (s : Spend) (flags : ScriptFlags) (script : Bytes) (stack : List Bytes),
    s.LeafSpend flags script stack → HasSuccess script →
    verifyScript s.tx s.inputIndex s.prevouts flags = .ok ()

end Script

section Sample

attribute [local instance] Script.sampleCrypto

namespace Script

/-- A control block without a path: the leaf version and the internal key. -/
def bareControl : Bytes := 0xc0 :: List.replicate 32 1

/-- A spend of a tapleaf script with a given stack. -/
def leafSpend (script : Bytes) (stack : List Bytes) : Spend :=
  sampleInput [] (stack ++ [script, bareControl]) ([0x51, 0x20] ++ List.replicate 32 1)

theorem leafSpend_leaf (script : Bytes) (stack : List Bytes) :
    (leafSpend script stack).LeafSpend ScriptFlags.all script stack.reverse := by
  have hprogram : parseWitnessProgram ([0x51, 0x20] ++ List.replicate 32 1)
      = some (1, List.replicate 32 1) := by decide
  refine ⟨rfl, rfl, rfl, rfl, _, _, bareControl, hprogram, rfl, rfl, ?_, by decide, rfl⟩
  show taprootItems (stack ++ [script, bareControl]) = _
  have hannex : hasAnnex (stack ++ [script, bareControl]) = false := by
    unfold hasAnnex
    rw [show stack ++ [script, bareControl] = (stack ++ [script]) ++ [bareControl] by simp,
      List.getLast?_concat]
    exact Bool.and_false _
  rw [taprootItems, hannex]
  simp

theorem hasSuccess_reserved : HasSuccess [0x50] := ⟨.op 0x50, by decide, by decide⟩

/-- `OP_SUCCESS80` alone, on an empty stack, is refused. -/
theorem not_successUnconditional : ¬ SuccessUnconditional := by
  intro h
  exact absurd (h (leafSpend [0x50] []) ScriptFlags.all [0x50] [] (leafSpend_leaf _ [])
    hasSuccess_reserved) (by decide +kernel)

/-- On a stack with a true element it is accepted. -/
theorem verify_reserved :
    verifyScript (leafSpend [0x50] [[1]]).tx (leafSpend [0x50] [[1]]).inputIndex
      (leafSpend [0x50] [[1]]).prevouts ScriptFlags.all = .ok () :=
  (Spend.verify_iff_beforeSuccess (leafSpend_leaf _ [[1]]) hasSuccess_reserved).mpr
    ⟨_, [1], rfl, rfl, by decide⟩

end Script

end Sample
