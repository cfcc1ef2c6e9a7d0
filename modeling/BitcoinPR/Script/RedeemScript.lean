import BitcoinPR.Script.Bip110
import BitcoinPR.Script.Executions

/-!
# Script-hash spends

BIP 16 asks that the scriptSig of a script-hash spend only pushes, and BIP 141 that it
is the one push of the redeem script if that is a witness program: then nobody but the
spender can write the scriptSig in another way.

The code runs the scriptSig like any other script and takes what is on top of the
stack for the redeem script. Where it counts signature operations it reads the redeem
script off the scriptSig, and there it does ask for pushes alone
(`p2shRedeemScript`). In a spend that verifies the two agree if the scriptSig only
pushes (`Spend.p2shRedeemScript_of_pushOnly`), and this reading is just what tells the
spends that keep the rules from the others (`Spend.keepsPushRules_iff`).
-/

namespace Script

/-! ## Reading the redeem script off the scriptSig -/

variable {is : List Instruction}

/-- An opcode above `OP_16` ends the reading. -/
theorem forall_le_of_lastPush {last : Option Bytes} {redeem : Bytes}
    (h : lastPush last is = some redeem) {code : UInt8} (hmem : .op code ∈ is) :
    code.toNat ≤ 0x60 := by
  induction is generalizing last with
  | nil => cases hmem
  | cons i is ih =>
    cases i with
    | pushBytes data =>
      rcases List.mem_cons.mp hmem with heq | hmem
      · cases heq
      · exact ih h hmem
    | op c =>
      rw [lastPush] at h
      by_cases hc : 0x60 < c
      · rw [if_pos hc] at h
        cases h
      · rw [if_neg hc] at h
        rcases List.mem_cons.mp hmem with heq | hmem
        · cases heq
          exact UInt8.le_iff_toNat_le.mp (UInt8.not_lt.mp hc)
        · exact ih h hmem

/-- The last push is found behind pushes. -/
theorem lastPush_append (his : ∀ code, .op code ∈ is → code.toNat ≤ 0x60)
    (last : Option Bytes) (redeem : Bytes) :
    lastPush last (is ++ [.pushBytes redeem]) = some redeem := by
  induction is generalizing last with
  | nil => rfl
  | cons i is ih =>
    have hrest := ih fun code hcode => his code (List.mem_cons_of_mem i hcode)
    cases i with
    | pushBytes data => exact hrest _
    | op c =>
      have hc : ¬ 0x60 < c :=
        UInt8.not_lt.mpr (UInt8.le_iff_toNat_le.mpr (his c List.mem_cons_self))
      rw [List.cons_append, lastPush, if_neg hc]
      exact hrest _

theorem pushOnly_of_p2shRedeemScript {scriptSig redeem : Bytes}
    (h : p2shRedeemScript scriptSig = some redeem) : PushOnly scriptSig := by
  intro code hcode
  simp only [p2shRedeemScript] at h
  split at h
  · exact forall_le_of_lastPush h hcode
  · cases h

theorem p2shRedeemScript_eq {scriptSig redeem : Bytes}
    (hparses : parses scriptSig = true) (hpush : PushOnly scriptSig)
    (hparse : parse scriptSig = is ++ [.pushBytes redeem]) :
    p2shRedeemScript scriptSig = some redeem := by
  simp only [p2shRedeemScript]
  rw [if_pos (show (instructions scriptSig.length scriptSig).2 = true from hparses)]
  show lastPush none (parse scriptSig) = some redeem
  rw [hparse]
  refine lastPush_append (fun code hcode => hpush code ?_) none redeem
  rw [hparse]
  exact List.mem_append_left _ hcode

variable [ScriptCrypto]

/-- The script of a script hash does not run on an empty stack. -/
theorem not_executes_p2sh_nil {script : Bytes} (hp2sh : isP2sh script = true) {tx : Tx}
    {inputIndex : Nat} {amount : UInt64} {flags : ScriptFlags} {segwit : Bool}
    {result : List Bytes} :
    executeScriptInner script [] tx inputIndex amount flags segwit ≠ .ok result := by
  intro h
  simp only [isP2sh, Bool.and_eq_true, beq_iff_eq] at hp2sh
  obtain ⟨⟨⟨-, hhead⟩, -⟩, -⟩ := hp2sh
  cases script with
  | nil => cases hhead
  | cons code rest =>
    obtain rfl : code = 0xa9 := Option.some.inj hhead
    simp only [executeScriptInner, Except.bind_eq_ok, exists_unit] at h
    obtain ⟨-, flow, hrun, -⟩ := h
    have hparse : parse (0xa9 :: rest) = .op 0xa9 :: (instructions rest.length rest).1 := rfl
    rcases runProgram_cons_eq_ok.mp hrun with ⟨t, ht, -⟩ | ⟨t, ht, -⟩
    · cases ht
    · cases ht

namespace Spend

variable {s : Spend} {flags : ScriptFlags}

/-- **A script-hash spend that verifies** has a redeem script on top of what the
scriptSig leaves. -/
theorem exists_redeemScript (hp2sh : s.isP2shSpend flags = true) (h : s.verify flags = .ok ()) :
    ∃ redeem rest, s.runScriptSig flags = .ok (redeem :: rest)
      ∧ s.verifyRedeem flags redeem rest = .ok () := by
  obtain ⟨-, hscript⟩ := Bool.and_eq_true_iff.mp hp2sh
  obtain ⟨-, saved, stack, hsaved, hrun, -, hrest⟩ :=
    (verifyLegacy_eq_ok s flags).mp (verifyLegacy_of_verify h (program_of_isP2sh hscript flags))
  cases saved with
  | nil => exact absurd hrun (not_executes_p2sh_nil hscript)
  | cons redeem rest =>
    rw [verifySaved_cons hp2sh] at hrest
    exact ⟨redeem, rest, hsaved, hrest⟩

/-- **The redeem script that runs is the one that is read off** a push-only scriptSig. -/
theorem p2shRedeemScript_of_pushOnly {redeem : Bytes} {rest : List Bytes}
    (hpush : PushOnly s.input.scriptSig) (hsaved : s.runScriptSig flags = .ok (redeem :: rest))
    (h : s.verifyRedeem flags redeem rest = .ok ()) :
    p2shRedeemScript s.input.scriptSig = some redeem := by
  obtain ⟨is, hparse⟩ := exists_lastPush hpush hsaved h
  exact p2shRedeemScript_eq (parses_of_executeScriptInner hsaved) hpush hparse

theorem p2shRedeemScript_of_verify {redeem : Bytes} {rest : List Bytes}
    (h : s.verify flags = .ok ()) (hp2sh : s.isP2shSpend flags = true)
    (hsaved : s.runScriptSig flags = .ok (redeem :: rest))
    (hsome : (p2shRedeemScript s.input.scriptSig).isSome = true) :
    p2shRedeemScript s.input.scriptSig = some redeem := by
  obtain ⟨read, hread⟩ := Option.isSome_iff_exists.mp hsome
  have hnone := program_of_isP2sh (Bool.and_eq_true_iff.mp hp2sh).2 flags
  exact p2shRedeemScript_of_pushOnly (pushOnly_of_p2shRedeemScript hread) hsaved
    (verifyRedeem_of_verify h hnone hp2sh hsaved)

/-- **The rules of BIP 16 and BIP 141 for the scriptSig** of a script-hash spend: it only
pushes, and is the one push of the redeem script if that is a witness program. -/
structure KeepsPushRules (s : Spend) (flags : ScriptFlags) : Prop where
  pushOnly : PushOnly s.input.scriptSig
  single : flags.verifyWitness = true → ∀ redeem rest,
    s.runScriptSig flags = .ok (redeem :: rest) → (parseWitnessProgram redeem).isSome = true →
    s.input.scriptSig = serializeScriptPush redeem

/-- **What tells the spends that keep the rules**: the scriptSig has a redeem script as
the sigop count reads it, and is the push of it if that is a witness program. -/
theorem keepsPushRules_iff (hp2sh : s.isP2shSpend flags = true)
    (h : verifyScript s.tx s.inputIndex s.prevouts flags = .ok ()) :
    s.KeepsPushRules flags ↔ ∃ redeem, p2shRedeemScript s.input.scriptSig = some redeem
      ∧ (flags.verifyWitness = true → (parseWitnessProgram redeem).isSome = true →
          s.input.scriptSig = serializeScriptPush redeem) := by
  rw [verifyScript_spend] at h
  obtain ⟨redeem, rest, hsaved, hredeem⟩ := exists_redeemScript hp2sh h
  have hread (hpush : PushOnly s.input.scriptSig) :=
    p2shRedeemScript_of_pushOnly hpush hsaved hredeem
  constructor
  · intro hkeeps
    exact ⟨redeem, hread hkeeps.pushOnly, fun hw => hkeeps.single hw redeem rest hsaved⟩
  · rintro ⟨redeem', hsome, hsingle⟩
    have hpush : PushOnly s.input.scriptSig := pushOnly_of_p2shRedeemScript hsome
    obtain rfl : redeem' = redeem := Option.mem_unique hsome (hread hpush)
    refine ⟨hpush, fun hw top rest' htop hprogram => ?_⟩
    cases htop.symm.trans hsaved
    exact hsingle hw hprogram

end Spend

/-- The rules as stated, for every spend the code accepts. -/
def PushRulesHold : Prop :=
  ∀ [ScriptCrypto] (s : Spend) (flags : ScriptFlags), s.isP2shSpend flags = true →
    verifyScript s.tx s.inputIndex s.prevouts flags = .ok () → s.KeepsPushRules flags

end Script

section Sample

attribute [local instance] Script.sampleCrypto

namespace Script

/-- A spend of the script hash zero with an `OP_NOP` before the push of `OP_1`. -/
def nopBeforePush : Spend := sampleInput [0x61, 0x01, 0x51] [] zeroScriptHash

/-- It is accepted. -/
theorem not_pushRulesHold : ¬ PushRulesHold := by
  intro h
  have hkeeps : nopBeforePush.KeepsPushRules ScriptFlags.all :=
    h nopBeforePush ScriptFlags.all (by decide) (by decide +kernel)
  exact absurd (hkeeps.pushOnly 0x61 (by decide)) (by decide)

/-- The spend without it. -/
def pushedRedeem : Spend := sampleInput [0x01, 0x51] [] zeroScriptHash

theorem keepsPushRules_pushedRedeem :
    pushedRedeem.isP2shSpend ScriptFlags.all = true
      ∧ verifyScript pushedRedeem.tx pushedRedeem.inputIndex pushedRedeem.prevouts
          ScriptFlags.all = .ok ()
      ∧ pushedRedeem.KeepsPushRules ScriptFlags.all := by
  have hok : verifyScript pushedRedeem.tx pushedRedeem.inputIndex pushedRedeem.prevouts
      ScriptFlags.all = .ok () := by decide +kernel
  have hread : p2shRedeemScript pushedRedeem.input.scriptSig = some [0x51] := by decide
  exact ⟨by decide, hok, (Spend.keepsPushRules_iff (by decide) hok).mpr
    ⟨[0x51], hread, fun _ h => absurd h (by decide)⟩⟩

end Script

end Sample
