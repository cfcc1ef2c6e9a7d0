import BitcoinPR.Core.Chain
import BitcoinPR.Script.RedeemScript

/-!
# Signature operations charged and executed

A block may hold a limited number of signature operations, and they are counted before
anything is run: in the redeem script as it is read off the scriptSig, and in the witness
script. A script has no loops, so that what it executes is at most what stands in it; and
where the opcode before `OP_CHECKMULTISIG` is a small number, that number is the number of
keys, since an opcode and the one before it are executed together
(`Legacy.tally_le_sigopsOf`).

What the charge misses is the redeem script of a scriptSig that does not only push: it is
run, and it is not read off (`Spend.checks_le_charge_iff`).
-/

namespace Script

/-- The number of keys on top of the stack. -/
def Machine.keyCount (m : Machine) : Nat :=
  match m.stack with
  | [] => 0
  | top :: _ =>
    match decodeNum top with
    | .ok n => asUsize n
    | .error _ => 0

/-- The signatures an instruction of a legacy or witness script checks, if it is executed:
one, or as many as there are keys. -/
def Legacy.sigChecks (st : State) : Instruction → Nat
  | .pushBytes _ => 0
  | .op code =>
    if st.machine.executing then
      if code = 0xac ∨ code = 0xad then 1
      else if code = 0xae ∨ code = 0xaf then st.machine.keyCount
      else 0
    else 0

variable [ScriptCrypto]

namespace Legacy

variable {ctx : Context} {st : State} {code : UInt8} {f : StepResult State}

/-- `OP_CHECKMULTISIG` has at most 20 keys. -/
theorem keyCount_le_of_step {t : State} (hcode : code = 0xae ∨ code = 0xaf)
    (hex : st.machine.executing = true) (h : step ctx st (.op code) = .ok (.next t)) :
    st.machine.keyCount ≤ 20 := by
  have hdoes := does_of_step h
  have htakes : ∃ P, st.machine.TakesKeys t.machine P := by
    rcases hcode with rfl | rfl
    · exact ⟨_, (if_pos hex).mp hdoes⟩
    · exact ⟨_, (if_pos hex).mp hdoes⟩
  obtain ⟨P, x, -, keys, -, -, hx, hkeys, h20, -⟩ := htakes
  obtain ⟨rest, hstack⟩ := List.head?_eq_some_iff.mp (List.head?_eq_getElem?.trans hx)
  simp only [Machine.keyCount, hstack, hkeys]
  exact h20

/-- After a small number, the number of keys is that number where the next instruction is
executed. -/
def CountsKeys (lastOp : UInt8) (m : Machine) : Prop :=
  0x51 ≤ lastOp ∧ lastOp ≤ 0x60 → m.executing = true → m.keyCount = (lastOp - 0x50).toNat

omit [ScriptCrypto] in
theorem keyCount_push {n : UInt8} (h : n.toNat ≤ 16) (m : Machine) :
    (m.push [n]).keyCount = n.toNat := by
  have hsmall : ∀ k : Fin 17, (Machine.mk [[UInt8.ofNat k]] [] []).keyCount = k := by decide
  have hn := hsmall ⟨n.toNat, Nat.lt_succ_of_le h⟩
  rw [UInt8.ofNat_toNat] at hn
  exact hn

theorem countsKeys_of_step {t : State} (h : step ctx st (.op code) = .ok (.next t)) :
    CountsKeys code t.machine := by
  rintro ⟨hlo, hhi⟩ hex
  have hlo' : 0x51 ≤ code.toNat := UInt8.le_iff_toNat_le.mp hlo
  have hhi' : code.toNat ≤ 0x60 := UInt8.le_iff_toNat_le.mp hhi
  have hdoes := does_of_step h
  have hop := Opcode.ofByte_number hlo' hhi'
  simp only [Machine.Does, hop, Tapscript.branchOp] at hdoes
  split at hdoes
  · obtain ⟨-, x, rfl, hm⟩ := hdoes
    rw [hm]
    exact keyCount_push (Opcode.number_bounds hop).2 _
  · rename_i hnot
    exact absurd (hdoes ▸ hex) hnot

/-- **What a run checks is at most what stands in the script.** -/
theorem tally_le_sigopsOf {prog : List Instruction} {lastOp : UInt8}
    (hkeys : CountsKeys lastOp st.machine) (h : runProgram (step ctx) st prog = .ok f) :
    tally (step ctx) sigChecks st prog ≤ sigopsOf true lastOp prog := by
  induction prog generalizing st lastOp with
  | nil => exact Nat.le_refl 0
  | cons i prog ih =>
    rcases runProgram_cons_eq_ok.mp h with ⟨t, ht, -⟩ | ⟨t, ht, hrun⟩
    · exact absurd ht (step_ne_done ctx st i t)
    rw [tally_cons ht]
    cases i with
    | pushBytes data =>
      rw [sigChecks, Nat.zero_add]
      exact ih (fun h0 => absurd h0.1 (by decide)) hrun
    | op code =>
      refine Nat.add_le_add ?_ (ih (countsKeys_of_step ht) hrun)
      rw [sigChecks]
      by_cases hex : st.machine.executing = true
      · rw [if_pos hex]
        by_cases hsig : code = 0xac ∨ code = 0xad
        · rw [if_pos hsig, if_pos hsig]
        · rw [if_neg hsig, if_neg hsig]
          by_cases hmulti : code = 0xae ∨ code = 0xaf
          · rw [if_pos hmulti, if_pos hmulti]
            by_cases hlast : 0x51 ≤ lastOp ∧ lastOp ≤ 0x60
            · rw [if_pos ⟨rfl, hlast⟩, hkeys hlast hex]
            · rw [if_neg fun h => hlast h.2]
              exact keyCount_le_of_step hmulti hex ht
          · rw [if_neg hmulti]
            exact Nat.zero_le _
      · rw [if_neg hex]
        exact Nat.zero_le _

end Legacy

/-! ## The charge of a spend -/

omit [ScriptCrypto] in
/-- A version-0 program as bytes. -/
theorem eq_of_parseWitnessProgram {script program : Bytes}
    (h : parseWitnessProgram script = some (0, program)) :
    script = 0x00 :: UInt8.ofNat program.length :: program := by
  obtain ⟨code, len, rfl, hversion, hlen, -⟩ := exists_of_parseWitnessProgram h
  unfold witnessVersion at hversion
  split at hversion
  · rename_i hcode
    rw [hcode, hlen, UInt8.ofNat_toNat]
  · split at hversion
    · rename_i hcode
      have hzero := Option.some.inj hversion
      omega
    · cases hversion

namespace Spend

variable {s : Spend} {flags : ScriptFlags} {n : Nat}

/-- The signatures checked when a script is run. -/
def checksOf (script : Bytes) (stack : List Bytes) (s : Spend) (flags : ScriptFlags)
    (segwit : Bool) : Nat :=
  tally (Legacy.step ⟨script, s.tx, s.inputIndex, s.prevout.value, flags, segwit⟩)
    Legacy.sigChecks (.start stack) (parse script)

/-- **The signatures a spend checks** in its redeem script or witness script; a key hash
stands for a script that checks one. -/
inductive Checks (s : Spend) (flags : ScriptFlags) : Nat → Prop
  | redeemScript {redeem : Bytes} {rest : List Bytes} (hp2sh : s.isP2shSpend flags = true)
      (hsaved : s.runScriptSig flags = .ok (redeem :: rest))
      (hprogram : program flags redeem = none) : Checks s flags (checksOf redeem rest s flags false)
  | witnessScript {program script : Bytes} (h : s.HasProgram flags 0 program)
      (hlen : program.length = 32) (hlast : s.input.witness.getLast? = some script) :
      Checks s flags (checksOf script s.input.witness.dropLast.reverse s
        (ScriptFlags.all.withBip110 flags.verifyBip110) true)
  | keyHash {program : Bytes} (h : s.HasProgram flags 0 program) (hlen : program.length = 20) :
      Checks s flags 1

/-- The sigops block validation counts in the redeem script of a spend. -/
def p2shSigops (s : Spend) (flags : ScriptFlags) : Nat :=
  if s.isP2shSpend flags then
    match p2shRedeemScript s.input.scriptSig with
    | some redeem => countSigops redeem true
    | none => 0
  else 0

/-- **The charge for a spend**, before the redeem script counts four times. -/
def sigopCharge (s : Spend) (flags : ScriptFlags) : Nat :=
  s.p2shSigops flags
    + witnessSigopCost s.prevout.scriptPubkey s.input.scriptSig s.input.witness

omit [ScriptCrypto] in
/-- Block validation charges the redeem script four times. -/
theorem inputSigopCost_eq (hwitness : flags.verifyWitness = true) :
    inputSigopCost flags s.prevout.scriptPubkey s.input
      = s.sigopCharge flags + 3 * s.p2shSigops flags := by
  unfold inputSigopCost sigopCharge p2shSigops isP2shSpend
  rw [if_pos hwitness]
  cases p2shRedeemScript s.input.scriptSig <;> simp only <;> split <;> omega

theorem checksOf_le {script : Bytes} {stack : List Bytes} {segwit : Bool}
    (h : (Execution.legacy ⟨script, s.tx, s.inputIndex, s.prevout.value, flags, segwit⟩
      stack).Succeeds) : checksOf script stack s flags segwit ≤ countSigops script true := by
  obtain ⟨f, hrun⟩ := h
  exact Legacy.tally_le_sigopsOf (fun h0 => absurd h0.1 (by decide)) hrun

section

variable (h : s.verify flags = .ok ())
  (hread : s.isP2shSpend flags = true → (p2shRedeemScript s.input.scriptSig).isSome = true)
include h hread

/-- Where the witness program of a spend is charged from. -/
theorem HasProgram.exists_charged {program : Bytes} (hp : s.HasProgram flags 0 program) :
    ∃ script, (if isP2sh s.prevout.scriptPubkey then p2shRedeemScript s.input.scriptSig
        else some s.prevout.scriptPubkey) = some script
      ∧ script = 0x00 :: UInt8.ofNat program.length :: program := by
  cases hp with
  | native hp =>
    obtain ⟨-, hparse⟩ := program_eq_some.mp hp
    refine ⟨s.prevout.scriptPubkey, ?_, eq_of_parseWitnessProgram hparse⟩
    rw [isP2sh_of_program hparse]
    rfl
  | nested hnone hp2sh hsaved hp =>
    refine ⟨_, ?_, eq_of_parseWitnessProgram (program_eq_some.mp hp).2⟩
    rw [(Bool.and_eq_true_iff.mp hp2sh).2]
    exact p2shRedeemScript_of_verify h hp2sh hsaved (hread hp2sh)

/-- **What is read off is charged**: a spend checks no more signatures than it is charged
for, if its redeem script is read off. -/
theorem checks_le_charge (hn : s.Checks flags n) : n ≤ s.sigopCharge flags := by
  unfold sigopCharge
  cases hn with
  | redeemScript hp2sh hsaved hprogram =>
    have hnone := program_of_isP2sh (Bool.and_eq_true_iff.mp hp2sh).2 flags
    have hle := checksOf_le (succeeds_of_verify h (.redeemScript hnone hp2sh hsaved hprogram))
    unfold p2shSigops
    rw [if_pos hp2sh, p2shRedeemScript_of_verify h hp2sh hsaved (hread hp2sh)]
    exact hle.trans (Nat.le_add_right _ _)
  | witnessScript hp hlen hlast =>
    have hle := checksOf_le (succeeds_of_verify h (.witnessScript hp hlen hlast))
    obtain ⟨script, hscript, rfl⟩ := hp.exists_charged h hread
    refine hle.trans ?_
    simp [witnessSigopCost, hscript, isP2wpkh, isP2wsh, hlen, hlast]
  | keyHash hp hlen =>
    obtain ⟨script, hscript, rfl⟩ := hp.exists_charged h hread
    simp [witnessSigopCost, hscript, isP2wpkh, hlen]

end

/-- **Where the charge covers what runs**: wherever the redeem script of a script hash is
read off, which is seen on the scripts alone; and where it is not, only if what runs checks
nothing. -/
theorem checks_le_charge_iff (h : verifyScript s.tx s.inputIndex s.prevouts flags = .ok ()) :
    ((s.isP2shSpend flags = true → (p2shRedeemScript s.input.scriptSig).isSome = true) →
        ∀ n, s.Checks flags n → n ≤ s.sigopCharge flags)
      ∧ ((∀ n, s.Checks flags n → n ≤ s.sigopCharge flags)
        ↔ (s.isP2shSpend flags = true → p2shRedeemScript s.input.scriptSig = none →
            ∀ n, s.Checks flags n → n = 0)) := by
  rw [verifyScript_spend] at h
  refine ⟨fun hread n hn => checks_le_charge h hread hn, ?_, ?_⟩
  · intro hle hp2sh hnone n hn
    -- nothing is charged
    have hzero : s.sigopCharge flags = 0 := by
      unfold sigopCharge p2shSigops witnessSigopCost
      simp only [hnone, (Bool.and_eq_true_iff.mp hp2sh).2, if_true, ite_self]
    exact Nat.le_zero.mp (hzero ▸ hle n hn)
  · intro hzero n hn
    by_cases hnone : s.isP2shSpend flags = true ∧ p2shRedeemScript s.input.scriptSig = none
    · rw [hzero hnone.1 hnone.2 n hn]
      exact Nat.zero_le _
    · refine checks_le_charge h (fun hp2sh => ?_) hn
      exact Option.isSome_iff_ne_none.mpr fun hn => hnone ⟨hp2sh, hn⟩

end Spend

/-- The charge covers what runs, as stated. -/
def SigopsCovered : Prop :=
  ∀ [ScriptCrypto] (s : Spend) (flags : ScriptFlags), flags.verifyP2sh = true →
    flags.verifyWitness = true → verifyScript s.tx s.inputIndex s.prevouts flags = .ok () →
    ∀ n, s.Checks flags n → n ≤ s.sigopCharge flags

end Script

section Sample

attribute [local instance] Script.sampleCrypto

namespace Script

/-- A script that checks the empty signature and turns the answer round. -/
def checksEmpty : Bytes := [0x00, 0x00, 0xac, 0x91]

/-- A spend of the script hash zero by it, with an `OP_NOP` before the push. -/
def unchargedSpend : Spend := sampleInput ([0x61, 0x04] ++ checksEmpty) [] zeroScriptHash

/-- It checks a signature that is not charged. -/
theorem not_sigopsCovered : ¬ SigopsCovered := by
  intro h
  have hchecks : unchargedSpend.Checks ScriptFlags.all
      (Spend.checksOf checksEmpty [] unchargedSpend ScriptFlags.all false) :=
    .redeemScript (by decide) (by decide +kernel) (by decide)
  have hle := h unchargedSpend ScriptFlags.all rfl rfl (by decide +kernel) _ hchecks
  revert hle
  decide +kernel

/-- A spend without it. -/
def chargedSpend : Spend := sampleInput ([0x04] ++ checksEmpty) [] zeroScriptHash

theorem checks_le_charge_chargedSpend :
    chargedSpend.Checks ScriptFlags.all
        (Spend.checksOf checksEmpty [] chargedSpend ScriptFlags.all false)
      ∧ Spend.checksOf checksEmpty [] chargedSpend ScriptFlags.all false = 1
      ∧ ∀ n, chargedSpend.Checks ScriptFlags.all n → n ≤ chargedSpend.sigopCharge ScriptFlags.all :=
  ⟨.redeemScript (by decide) (by decide +kernel) (by decide), by decide +kernel,
    (Spend.checks_le_charge_iff (by decide +kernel)).1 fun _ => by decide +kernel⟩

end Script

end Sample
