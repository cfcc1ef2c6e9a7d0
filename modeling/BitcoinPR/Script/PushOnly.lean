import BitcoinPR.Script.Effects
import BitcoinPR.Script.Verify

/-!
# Push-only scripts

A script-hash spend leaves the redeem script on top of the stack, and the code
takes that for the last push of the scriptSig. It is, if the scriptSig only
pushes: then the stack is the list of what it pushed, last first
(`stack_of_pushOnly`). An opcode that pushes a number may stand last, but what it
pushes is no script that runs (`not_runs_number`), so that in a spend that
verifies the last instruction is the push of the redeem script
(`Spend.exists_lastPush`).

The code does not ask for a push-only scriptSig, though.
-/

open List Except

namespace Script

/-- **No opcode above `OP_16`.** -/
def PushOnly (script : Bytes) : Prop := ∀ code, .op code ∈ parse script → code.toNat ≤ 0x60

/-- What an opcode up to `OP_16` pushes. -/
def Opcode.pushed : Opcode → Bytes
  | .oneNegate => [0x81]
  | .number n => [n]
  | _ => []

/-- What an instruction of a push-only script pushes. -/
def pushed : Instruction → Bytes
  | .pushBytes data => data
  | .op code => (Opcode.ofByte code).pushed

variable {code : UInt8}

/-- A byte that an opcode pushes as a number. -/
def IsNumber (b : UInt8) : Prop := b = 0x81 ∨ 1 ≤ b.toNat ∧ b.toNat ≤ 16

theorem Opcode.ofByte_of_le (hlt : 0x4e < code.toNat) (hle : code.toNat ≤ 0x60) :
    ofByte code = .oneNegate ∨ (∃ n, IsNumber n ∧ ofByte code = .number n)
      ∨ ofByte code = .unknown := by
  unfold ofByte
  split
  case h_2 => exact Or.inl rfl
  case h_65 =>
    split
    · refine Or.inr (Or.inl ⟨_, Or.inr ?_, rfl⟩)
      have hle : (0x50 : UInt8) ≤ code :=
        UInt8.le_iff_toNat_le.mpr (show 0x50 ≤ code.toNat by omega)
      have hsub : (code - 0x50).toNat = code.toNat - 0x50 := UInt8.toNat_sub_of_le code 0x50 hle
      omega
    · split
      · omega
      · exact Or.inr (Or.inr rfl)
  all_goals omega

theorem Opcode.ofByte_number (hlt : 0x51 ≤ code.toNat) (hle : code.toNat ≤ 0x60) :
    ofByte code = .number (code - 0x50) := by
  unfold ofByte
  split
  case h_65 => rw [if_pos ⟨hlt, hle⟩]
  all_goals omega

theorem takePush_ne_op {len : Nat} {rest tail : Bytes} :
    takePush len rest ≠ some (.op code, tail) := by
  unfold takePush
  split
  · exact fun h => by cases h
  · exact fun h => by cases h

/-- The bytes up to `OP_PUSHDATA4` start a push. -/
theorem lt_of_nextInstruction {b code : UInt8} {rest tail : Bytes}
    (h : nextInstruction b rest = some (.op code, tail)) : 0x4e < code.toNat := by
  unfold nextInstruction at h
  split at h
  · exact absurd h takePush_ne_op
  · rename_i hle
    split at h
    · cases rest with
      | nil => cases h
      | cons a rest => exact absurd h takePush_ne_op
    · rename_i h4c
      split at h
      · split at h
        · exact absurd h takePush_ne_op
        · cases h
      · rename_i h4d
        split at h
        · split at h
          · exact absurd h takePush_ne_op
          · cases h
        · rename_i h4e
          have hne : ∀ n : UInt8, b ≠ n → b.toNat ≠ n.toNat :=
            fun n hn heq => hn (UInt8.toNat_inj.mp heq)
          have h1 : b.toNat ≠ 0x4c := hne _ h4c
          have h2 : b.toNat ≠ 0x4d := hne _ h4d
          have h3 : b.toNat ≠ 0x4e := hne _ h4e
          cases h
          omega

theorem lt_of_op_mem_parse {script : Bytes} (h : .op code ∈ parse script) :
    0x4e < code.toNat := by
  unfold parse at h
  generalize script.length = fuel at h
  induction fuel generalizing script with
  | zero =>
    cases script with
    | nil => cases h
    | cons b rest => cases h
  | succ fuel ih =>
    cases script with
    | nil => cases h
    | cons b rest =>
      rw [instructions] at h
      cases hn : nextInstruction b rest with
      | none =>
        rw [hn] at h
        cases h
      | some p =>
        rw [hn] at h
        rcases mem_cons.mp h with heq | hmem
        · exact lt_of_nextInstruction (hn.trans (congrArg some (Prod.ext heq.symm rfl)))
        · exact ih hmem

/-- An instruction of a push-only script. -/
def Pushes : Instruction → Prop
  | .pushBytes _ => True
  | .op code => 0x4e < code.toNat ∧ code.toNat ≤ 0x60

/-- An instruction that pushed: if it was an opcode, it pushed a number. -/
def HasPushed : Instruction → Prop
  | .pushBytes _ => True
  | .op code => ∃ n, IsNumber n ∧ pushed (.op code) = [n]

/-- One instruction of a push-only script pushes, or fails. -/
theorem Machine.Does.push {m m' : Machine} {i : Instruction} (h : m.Does i m')
    (hexec : m.execStack = []) (hi : Pushes i) : HasPushed i ∧ m' = m.push (pushed i) := by
  have hex : m.executing = true := by rw [Machine.executing, hexec, all_nil]
  cases i with
  | pushBytes data =>
    rw [Machine.Does, if_pos hex] at h
    exact ⟨trivial, h.2⟩
  | op code =>
    rw [HasPushed, pushed]
    rcases Opcode.ofByte_of_le hi.1 hi.2 with ho | ⟨n, hn, ho⟩ | ho
    all_goals
      rw [Machine.Does, ho] at h
      simp only [Tapscript.branchOp, hex, if_true] at h
      rw [ho]
    · obtain ⟨-, x, rfl, hm⟩ := h
      exact ⟨⟨0x81, Or.inl rfl, rfl⟩, hm⟩
    · obtain ⟨-, x, rfl, hm⟩ := h
      exact ⟨⟨n, hn, rfl⟩, hm⟩
    · exact h.elim

/-- **A push-only program leaves what it pushed**, last first. -/
theorem everyPath_pushOnly {m : Machine} {prog : List Instruction} {Q : Machine → Prop}
    (hexec : m.execStack = []) (hprog : ∀ i ∈ prog, Pushes i)
    (hQ : ∀ m', (∀ i ∈ prog, HasPushed i) →
      m'.stack = (prog.map pushed).reverse ++ m.stack → Q m') :
    EveryPath Machine.Does (fun _ _ => True) Q m prog := by
  induction prog generalizing m with
  | nil => exact hQ m (fun i hi => (not_mem_nil hi).elim) rfl
  | cons i prog ih =>
    refine ⟨trivial, fun m₁ hm₁ => ?_⟩
    obtain ⟨hi, rfl⟩ := hm₁.push hexec (hprog i mem_cons_self)
    refine ih hexec (fun j hj => hprog j (mem_cons_of_mem i hj)) fun m' hall hstack =>
      hQ m' (forall_mem_cons.mpr ⟨hi, hall⟩) ?_
    rw [hstack, map_cons, reverse_cons, append_assoc]
    rfl

variable [ScriptCrypto]

section

variable {script : Bytes} {stack result : List Bytes} {tx : Tx} {inputIndex : Nat}
  {amount : UInt64} {flags : ScriptFlags} {segwit : Bool}

/-- The stack a push-only script leaves. -/
theorem stack_of_pushOnly (hpush : PushOnly script)
    (h : executeScriptInner script stack tx inputIndex amount flags segwit = .ok result) :
    (∀ i ∈ parse script, HasPushed i)
      ∧ result = ((parse script).map pushed).reverse ++ stack := by
  refine Ends.of_executeScriptInner (R := fun result => _ ∧ result = _)
    ⟨everyPath_pushOnly rfl (fun i hi => ?_) fun m hall hstack _ => ⟨hall, hstack⟩⟩ h
  cases i with
  | pushBytes data => trivial
  | op code => exact ⟨lt_of_op_mem_parse hi, hpush code hi⟩

/-- A number is no script that runs: `0x81` is a disabled opcode and a small
number a truncated push. -/
theorem not_runs_number {n : UInt8} (hn : IsNumber n) :
    executeScriptInner [n] stack tx inputIndex amount flags segwit ≠ .ok result := by
  intro h
  rcases hn with rfl | ⟨hpos, hle⟩
  · obtain ⟨st, f, hstep⟩ :=
      exists_step_of_executeScriptInner h (i := .op 0x81) (mem_singleton.mpr rfl)
    obtain ⟨st', hst', -⟩ := bind_eq_ok.mp hstep
    obtain ⟨st₁, hst₁, -⟩ := bind_eq_ok.mp hst'
    exact absurd (Legacy.checkOp_eq_ok.mp hst₁).2.2.1 (by decide)
  · have hparses : parses [n] = true := parses_of_executeScriptInner h
    have hnext : nextInstruction n [] = none := by
      unfold nextInstruction takePush
      rw [if_pos (by omega), if_pos (by simp; omega)]
    rw [parses, length_singleton, instructions, hnext] at hparses
    cases hparses

end

namespace Spend

variable {s : Spend} {flags : ScriptFlags} {redeemScript : Bytes} {rest : List Bytes}

theorem not_verifyRedeem_number {n : UInt8} (hn : IsNumber n) :
    s.verifyRedeem flags [n] rest ≠ .ok () := by
  intro h
  have hprogram : program flags [n] = none := by
    unfold program
    split
    · rfl
    · rfl
  simp only [verifyRedeem, hprogram, bind_eq_ok, exists_unit] at h
  obtain ⟨-, result, hrun, -⟩ := h
  exact not_runs_number hn hrun

/-- **The redeem script is the last push** of a push-only scriptSig. -/
theorem exists_lastPush (hpush : PushOnly s.input.scriptSig)
    (hsaved : s.runScriptSig flags = .ok (redeemScript :: rest))
    (h : s.verifyRedeem flags redeemScript rest = .ok ()) :
    ∃ is, parse s.input.scriptSig = is ++ [.pushBytes redeemScript] := by
  obtain ⟨hall, hstack⟩ := stack_of_pushOnly hpush hsaved
  rcases eq_nil_or_concat (parse s.input.scriptSig) with hnil | ⟨is, i, hi⟩
  · rw [hnil] at hstack
    cases hstack
  · rw [hi, concat_eq_append, map_append, reverse_append] at hstack
    have htop : redeemScript = pushed i := (List.cons.inj hstack).1
    refine ⟨is, ?_⟩
    rw [hi, concat_eq_append]
    cases i with
    | pushBytes data => rw [htop, pushed]
    | op code =>
      have hmem : .op code ∈ parse s.input.scriptSig := by
        rw [hi, concat_eq_append]
        exact mem_append_right is mem_cons_self
      obtain ⟨n, hn, hpushed⟩ := hall _ hmem
      rw [htop, hpushed] at h
      exact absurd h (not_verifyRedeem_number hn)

end Spend

end Script
