import BitcoinPR.Script.Tapscript

/-!
# What instructions do to the stacks

But for the bytes it computes, what an opcode does is fixed: it moves elements about,
or takes some and leaves one. `Opcode.Does` says so opcode by opcode: which elements
go where, and of a result no more than that it is a boolean, if it is one.

Read as a program, the effects go every way the results may come out: a comparison
leaves an empty element or the byte 1, a hash anything. An interpreter goes one of
these ways (`Tapscript.does_of_step`, `Legacy.does_of_step`), so what holds on every
path of the effects holds of its run (`EveryPath.of_reached`, `EveryPath.of_run`), and
is known without running anything. The bodies of the opcodes are gone through once,
in the tapscript interpreter; the legacy one has most of them word for word.
-/

open List Except

namespace Script

/-- The operands BIP 342 allows for a branch opcode. -/
def MinimalOperand (x : Bytes) : Prop := x = [] ∨ x = [1]

namespace Machine

variable (m m' : Machine)

/-- The top elements give way to those at some places, counted from the top. -/
def Moves (k : Nat) (places : List Nat) : Prop :=
  k ≤ m.stack.length ∧ m' = { m with stack := places.filterMap (m.stack[·]?) ++ m.stack.drop k }

/-- The top elements give way to one. -/
def Leaves (k : Nat) (P : Bytes → Prop) : Prop :=
  k ≤ m.stack.length ∧ ∃ x, P x ∧ m' = { m with stack := x :: m.stack.drop k }

/-- An element below its index comes to the top, or a copy of it. -/
def Fetches (copy : Bool) : Prop :=
  ∃ x rest n y, m.stack = x :: rest ∧ decodeNum x = .ok n ∧ rest[asUsize n]? = some y
    ∧ m' = { m with stack := y :: if copy then rest else rest.eraseIdx (asUsize n) }

/-- At most 20 keys are taken and their signatures, with the counts and the dummy. -/
def TakesKeys (P : List Bytes → Prop) : Prop :=
  ∃ x y keys sigs xs, m.stack[0]? = some x ∧ decodeNum x = .ok keys ∧ asUsize keys ≤ 20
    ∧ m.stack[asUsize keys + 1]? = some y ∧ decodeNum y = .ok sigs
    ∧ asUsize keys + asUsize sigs + 3 ≤ m.stack.length ∧ P xs
    ∧ m' = { m with stack := xs ++ m.stack.drop (asUsize keys + asUsize sigs + 3) }

end Machine

open Machine in
/-- **What an opcode does**, if it is executed and no branch. -/
def Opcode.Does (m m' : Machine) : Opcode → Prop
  | .zero => Leaves m m' 0 (· = [])
  | .oneNegate => Leaves m m' 0 (· = [0x81])
  | .number n => Leaves m m' 0 (· = [n])
  | .nop | .codeSeparator | .checkLockTimeVerify | .checkSequenceVerify => Moves m m' 0 []
  | .verify | .drop => Moves m m' 1 []
  | .twoDrop | .equalVerify | .numEqualVerify | .checkSigVerify => Moves m m' 2 []
  | .dup => Moves m m' 1 [0, 0]
  | .twoDup => Moves m m' 2 [0, 1, 0, 1]
  | .threeDup => Moves m m' 3 [0, 1, 2, 0, 1, 2]
  | .twoOver => Moves m m' 4 [2, 3, 0, 1, 2, 3]
  | .twoRot => Moves m m' 6 [4, 5, 0, 1, 2, 3]
  | .twoSwap => Moves m m' 4 [2, 3, 0, 1]
  | .nip => Moves m m' 2 [0]
  | .over => Moves m m' 2 [1, 0, 1]
  | .rot => Moves m m' 3 [2, 0, 1]
  | .swap => Moves m m' 2 [1, 0]
  | .tuck => Moves m m' 2 [0, 1, 0]
  | .depth | .size => Leaves m m' 0 fun _ => True
  | .not | .zeroNotEqual => Leaves m m' 1 MinimalOperand
  | .oneAdd | .oneSub | .negate | .abs | .ripemd160 | .sha1 | .sha256 | .hash160 | .hash256 =>
    Leaves m m' 1 fun _ => True
  | .equal | .boolAnd | .boolOr | .numEqual | .numNotEqual | .lessThan | .greaterThan
  | .lessThanOrEqual | .greaterThanOrEqual | .checkSig => Leaves m m' 2 MinimalOperand
  | .add | .sub | .min | .max => Leaves m m' 2 fun _ => True
  | .within => Leaves m m' 3 MinimalOperand
  | .checkSigAdd => Leaves m m' 3 fun _ => True
  | .toAltStack => ∃ x rest, m.stack = x :: rest
      ∧ m' = { m with stack := rest, altStack := x :: m.altStack }
  | .fromAltStack => ∃ x rest, m.altStack = x :: rest
      ∧ m' = { m with stack := x :: m.stack, altStack := rest }
  | .ifDup => ∃ x rest, m.stack = x :: rest ∧ m' = if castToBool x then m.push x else m
  | .pick => Fetches m m' true
  | .roll => Fetches m m' false
  | .checkMultiSig => TakesKeys m m' fun xs => ∃ x, MinimalOperand x ∧ xs = [x]
  | .checkMultiSigVerify => TakesKeys m m' (· = [])
  | _ => False

/-- **What an instruction does**: one in a branch that is not taken does nothing. -/
def Machine.Does (m : Machine) (i : Instruction) (m' : Machine) : Prop :=
  match i with
  | .pushBytes data =>
    if m.executing then data.length ≤ maxScriptElementSize ∧ m' = m.push data else m' = m
  | .op code =>
    match Tapscript.branchOp m (Opcode.ofByte code) with
    | some result => result = .ok m'
    | none => if m.executing then (Opcode.ofByte code).Does m m' else m' = m

theorem minimalOperand_boolBytes (c : Prop) [Decidable c] : MinimalOperand (boolBytes c) := by
  unfold boolBytes
  split
  · exact Or.inr rfl
  · exact Or.inl rfl

/-- A truth value is encoded as the stack has it. -/
theorem encodeNum_ofBool (c : Prop) [Decidable c] : encodeNum (ofBool c) = boolBytes c := by
  unfold ofBool boolBytes
  split
  · rfl
  · rfl

theorem minimalOperand_ofBool (c : Prop) [Decidable c] : MinimalOperand (encodeNum (ofBool c)) := by
  rw [encodeNum_ofBool]
  exact minimalOperand_boolBytes c

/-- A push-number opcode pushes a number from 1 to 16. -/
theorem Opcode.number_bounds {code n : UInt8} (h : Opcode.ofByte code = .number n) :
    1 ≤ n.toNat ∧ n.toNat ≤ 16 := by
  unfold Opcode.ofByte at h
  split at h
  case h_65 =>
    split at h
    · rename_i hn
      cases h
      have hle : (0x50 : UInt8) ≤ code := by
        exact le_trans (by decide) hn.1
      rw [UInt8.toNat_sub_of_le _ _ hle]
      have h50 : (0x50 : UInt8).toNat = 0x50 := rfl
      omega
    · split at h <;> cases h
  all_goals cases h

/-- The interpreters push the same byte for it. -/
theorem encodeNum_number {code n : UInt8} (h : Opcode.ofByte code = .number n) :
    encodeNum n.toNat = [n] := by
  obtain ⟨h1, h16⟩ := Opcode.number_bounds h
  have hone : ∀ k < 17, 1 ≤ k → encodeNum (k : Nat) = [UInt8.ofNat k] := by decide
  rw [hone n.toNat (by omega) h1, UInt8.ofNat_toNat]

/-! ## What is popped -/

namespace Machine

variable {m m' : Machine} {α : Type} {r : α}

theorem stackPop_eq_ok {k : Bytes → Machine → Except CoreError α} (h : m.stackPop k = .ok r) :
    ∃ x rest, m.stack = x :: rest ∧ k x { m with stack := rest } = .ok r := by
  unfold stackPop at h
  split at h
  · cases h
  · exact ⟨_, _, by assumption, h⟩

theorem stackPop_stackPop_eq_ok {k : Bytes → Bytes → Machine → Except CoreError α}
    (h : m.stackPop (fun b m => m.stackPop fun a m => k b a m) = .ok r) :
    2 ≤ m.stack.length ∧ ∃ b a, k b a { m with stack := m.stack.drop 2 } = .ok r := by
  obtain ⟨b, rest, hs, h⟩ := stackPop_eq_ok h
  obtain ⟨a, rest', hs', h⟩ := stackPop_eq_ok h
  obtain rfl : rest = a :: rest' := hs'
  rw [hs]
  exact ⟨by simp, b, a, h⟩

theorem stackPops_eq_ok {n : Nat} {k : List Bytes → Machine → Except CoreError α}
    (h : m.stackPops n k = .ok r) :
    n ≤ m.stack.length ∧ k (m.stack.take n) { m with stack := m.stack.drop n } = .ok r := by
  unfold stackPops at h
  split at h
  · cases h
  · exact ⟨by omega, h⟩

theorem popNum_eq_ok {k : Int → Machine → Except CoreError α} (h : m.popNum k = .ok r) :
    ∃ x rest n, m.stack = x :: rest ∧ decodeNum x = .ok n
      ∧ k n { m with stack := rest } = .ok r := by
  obtain ⟨x, rest, hs, h⟩ := stackPop_eq_ok h
  obtain ⟨n, hn, h⟩ := bind_eq_ok.mp h
  exact ⟨x, rest, n, hs, hn, h⟩

theorem popNum_popNum_eq_ok {k : Int → Int → Machine → Except CoreError α}
    (h : m.popNum (fun b m => m.popNum fun a m => k b a m) = .ok r) :
    2 ≤ m.stack.length ∧ ∃ b a, k b a { m with stack := m.stack.drop 2 } = .ok r := by
  obtain ⟨x, rest, b, hs, -, h⟩ := popNum_eq_ok h
  obtain ⟨y, rest', a, hs', -, h⟩ := popNum_eq_ok h
  obtain rfl : rest = y :: rest' := hs'
  rw [hs]
  exact ⟨by simp, b, a, h⟩

theorem leaves_of_unaryNum {f : Int → Int} {P : Bytes → Prop} (hf : ∀ a, P (encodeNum (f a)))
    (h : m.unaryNum f = .ok m') : Leaves m m' 1 P := by
  obtain ⟨x, rest, n, hs, -, h⟩ := popNum_eq_ok h
  cases h
  rw [Leaves, hs]
  exact ⟨by simp, _, hf n, rfl⟩

theorem leaves_of_binaryNum {f : Int → Int → Int} {P : Bytes → Prop}
    (hf : ∀ a b, P (encodeNum (f a b))) (h : m.binaryNum f = .ok m') : Leaves m m' 2 P := by
  obtain ⟨hlen, b, a, h⟩ := popNum_popNum_eq_ok h
  cases h
  exact ⟨hlen, _, hf a b, rfl⟩

theorem leaves_of_digest {f : Bytes → Bytes} (h : m.digest f = .ok m') :
    Leaves m m' 1 fun _ => True := by
  obtain ⟨x, rest, hs, h⟩ := stackPop_eq_ok h
  cases h
  rw [Leaves, hs]
  exact ⟨by simp, _, trivial, rfl⟩

end Machine

variable [ScriptCrypto] {code : UInt8} {m m' : Machine} {i : Instruction}

open Machine

/-! ## Tapscript -/

namespace Tapscript

variable {ctx : Context} {st st' : State}

/-- **An opcode does what its effect says.** -/
theorem does_of_plainOp (h : plainOp ctx code m (Opcode.ofByte code) = .ok m') :
    (Opcode.ofByte code).Does m m' := by
  obtain ⟨stack, altStack, execStack⟩ := m
  unfold plainOp at h
  cases hop : Opcode.ofByte code <;> rw [hop] at h <;> simp only at h
  case zero | oneNegate =>
    cases h
    exact ⟨Nat.zero_le _, _, rfl, rfl⟩
  case number n =>
    cases h
    exact ⟨Nat.zero_le _, _, encodeNum_number hop, rfl⟩
  case nop =>
    cases h
    exact ⟨Nat.zero_le _, rfl⟩
  case checkLockTimeVerify | checkSequenceVerify =>
    obtain ⟨-, -, h⟩ := bind_eq_ok.mp h
    cases h
    exact ⟨Nat.zero_le _, rfl⟩
  case twoDup | threeDup | twoOver | twoRot | twoSwap | dup | nip | «over» | rot | swap | tuck =>
    split at h <;> cases h
    exact ⟨by simp, rfl⟩
  case drop =>
    obtain ⟨x, rest, rfl, h⟩ := stackPop_eq_ok h
    cases h
    exact ⟨by simp, rfl⟩
  case verify =>
    obtain ⟨x, rest, rfl, h⟩ := stackPop_eq_ok h
    split at h <;> cases h
    exact ⟨by simp, rfl⟩
  case twoDrop =>
    obtain ⟨hlen, -, -, h⟩ := stackPop_stackPop_eq_ok h
    cases h
    exact ⟨hlen, rfl⟩
  case equalVerify =>
    obtain ⟨hlen, b, a, h⟩ := stackPop_stackPop_eq_ok h
    split at h <;> cases h
    exact ⟨hlen, rfl⟩
  case numEqualVerify =>
    obtain ⟨hlen, b, a, h⟩ := popNum_popNum_eq_ok h
    split at h <;> cases h
    exact ⟨hlen, rfl⟩
  case equal =>
    obtain ⟨hlen, b, a, h⟩ := stackPop_stackPop_eq_ok h
    cases h
    exact ⟨hlen, _, minimalOperand_boolBytes _, rfl⟩
  case numEqual =>
    obtain ⟨hlen, b, a, h⟩ := popNum_popNum_eq_ok h
    cases h
    exact ⟨hlen, _, minimalOperand_boolBytes _, rfl⟩
  case within =>
    obtain ⟨x, rest, max, rfl, -, h⟩ := popNum_eq_ok h
    obtain ⟨hlen, min, a, h⟩ := popNum_popNum_eq_ok h
    cases h
    exact ⟨Nat.succ_le_succ hlen, _, minimalOperand_ofBool _, rfl⟩
  case not | zeroNotEqual => exact leaves_of_unaryNum (fun _ => minimalOperand_ofBool _) h
  case oneAdd | oneSub | negate | abs => exact leaves_of_unaryNum (fun _ => trivial) h
  case boolAnd | boolOr | numNotEqual | lessThan | greaterThan | lessThanOrEqual
      | greaterThanOrEqual => exact leaves_of_binaryNum (fun _ _ => minimalOperand_ofBool _) h
  case add | sub | min | max => exact leaves_of_binaryNum (fun _ _ => trivial) h
  case ripemd160 | sha1 | sha256 | hash160 | hash256 => exact leaves_of_digest h
  case depth =>
    cases h
    exact ⟨Nat.zero_le _, _, trivial, rfl⟩
  case size =>
    split at h <;> cases h
    exact ⟨Nat.zero_le _, _, trivial, rfl⟩
  case toAltStack =>
    obtain ⟨x, rest, rfl, h⟩ := stackPop_eq_ok h
    cases h
    exact ⟨x, rest, rfl, rfl⟩
  case fromAltStack =>
    split at h <;> cases h
    exact ⟨_, _, rfl, rfl⟩
  case ifDup =>
    split at h
    · cases h
    · refine ⟨_, _, rfl, ?_⟩
      split at h <;> cases h <;> simp [*]
  case pick | roll =>
    obtain ⟨x, rest, n, rfl, hn, h⟩ := popNum_eq_ok h
    split at h <;> cases h
    rename_i hval
    exact ⟨x, rest, n, _, rfl, hn, hval, rfl⟩
  all_goals cases h

/-- What a key and a signature come to. -/
theorem checkKey_eq_ok {sig pubkey : Bytes} {failed : String}
    {empty valid : State → Except CoreError State}
    (h : checkKey ctx st sig pubkey failed empty valid = .ok st') :
    empty st = .ok st' ∨ valid { st with sigopsBudget := st.sigopsBudget - 50 } = .ok st' := by
  unfold checkKey at h
  split at h
  · cases h
  · split at h
    · exact Or.inl h
    · simp only at h
      split at h
      · cases h
      · split at h
        · exact Or.inr h
        · split at h
          · exact Or.inr h
          · cases h

theorem does_of_executeOp (h : executeOp ctx st code = .ok st') :
    (Opcode.ofByte code).Does st.machine st'.machine := by
  have hplain : ∀ m', plainOp ctx code st.machine (Opcode.ofByte code) = .ok m' →
      (Opcode.ofByte code).Does st.machine m' := fun _ => does_of_plainOp
  unfold executeOp at h
  cases hop : Opcode.ofByte code <;> rw [hop] at h hplain
  case checkSig =>
    obtain ⟨hlen, pubkey, sig, h⟩ := stackPop_stackPop_eq_ok h
    rcases checkKey_eq_ok h with h | h
    · cases h
      exact ⟨hlen, _, Or.inl rfl, rfl⟩
    · cases h
      exact ⟨hlen, _, Or.inr rfl, rfl⟩
  case checkSigVerify =>
    obtain ⟨hlen, pubkey, sig, h⟩ := stackPop_stackPop_eq_ok h
    rcases checkKey_eq_ok h with h | h
    · cases h
    · cases h
      exact ⟨hlen, rfl⟩
  case checkSigAdd =>
    obtain ⟨pubkey, rest, hs, h⟩ := stackPop_eq_ok h
    obtain ⟨hlen, n, sig, h⟩ := stackPop_stackPop_eq_ok h
    obtain ⟨n, -, h⟩ := bind_eq_ok.mp h
    unfold Opcode.Does Leaves
    rw [hs]
    rcases checkKey_eq_ok h with h | h
    all_goals
      cases h
      exact ⟨Nat.succ_le_succ hlen, _, trivial, rfl⟩
  case codeSeparator =>
    cases h
    exact ⟨Nat.zero_le _, rfl⟩
  case checkMultiSig | checkMultiSigVerify => cases h
  all_goals
    obtain ⟨m, hm, h⟩ := bind_eq_ok.mp h
    cases h
    exact hplain m hm

/-- **An instruction does what its effect says.** -/
theorem does_of_step (h : step ctx st i = .ok (.next st')) :
    st.machine.Does i st'.machine := by
  rcases step_cases h with ⟨hex, hb, rfl⟩ | ⟨data, rfl, hex, hlen, -, rfl⟩ | ⟨code, m, rfl, hb, rfl⟩
    | ⟨code, u, rfl, hb, hex, hop, -, rfl⟩
  · cases i with
    | pushBytes data => simp [Machine.Does, hex, State.advance]
    | op code => simp [Machine.Does, hex, hb code rfl, State.advance]
  · simp [Machine.Does, hex, hlen, State.advance]
  · simp [Machine.Does, hb, State.advance]
  · have hdoes := does_of_executeOp hop
    simpa only [Machine.Does, hb, hex, if_true, State.advance] using hdoes

/-- Only an `OP_SUCCESS` makes the loop return early. -/
theorem success_of_step_done (h : step ctx st i = .ok (.done st')) :
    ∃ code, i = .op code ∧ isTapscriptSuccessOpcode code = true := by
  cases i with
  | pushBytes data =>
    obtain ⟨a, -, ha⟩ := bind_eq_ok.mp h
    cases ha
  | op code =>
    refine ⟨code, rfl, ?_⟩
    by_contra hs
    rw [step, if_neg hs] at h
    obtain ⟨a, -, ha⟩ := bind_eq_ok.mp h
    cases ha

end Tapscript

/-! ## The legacy interpreter -/

namespace Legacy

variable {ctx : Context} {st st' : State}

theorem does_of_plainOp (h : plainOp ctx code m (Opcode.ofByte code) = .ok m') :
    (Opcode.ofByte code).Does m m' := by
  have htap : ∀ tap : Tapscript.Context,
      Tapscript.plainOp tap code m (Opcode.ofByte code) = .ok m' →
        (Opcode.ofByte code).Does m m' := fun tap => Tapscript.does_of_plainOp
  cases hop : Opcode.ofByte code <;> rw [hop] at h htap
  case number n =>
    cases h
    exact ⟨Nat.zero_le _, _, rfl, rfl⟩
  case dup =>
    obtain ⟨stack, altStack, execStack⟩ := m
    unfold plainOp at h
    simp only at h
    split at h <;> cases h
    exact ⟨by simp, rfl⟩
  case numEqual => exact leaves_of_binaryNum (fun _ _ => minimalOperand_ofBool _) h
  case checkLockTimeVerify | checkSequenceVerify =>
    obtain ⟨-, -, h⟩ := bind_eq_ok.mp h
    cases h
    exact ⟨Nat.zero_le _, rfl⟩
  all_goals first | exact htap ⟨ctx.tx, ctx.inputIndex, [], [], none, false⟩ h | cases h

/-- What a multisignature opcode takes. -/
theorem checkMultiSigOp_eq_ok {name : String} {k : Bool → State → Except CoreError State}
    (h : checkMultiSigOp ctx st name k = .ok st') :
    ∃ x y keys sigs success opCount, st.machine.stack[0]? = some x ∧ decodeNum x = .ok keys
      ∧ asUsize keys ≤ 20 ∧ st.machine.stack[asUsize keys + 1]? = some y ∧ decodeNum y = .ok sigs
      ∧ asUsize keys + asUsize sigs + 3 ≤ st.machine.stack.length
      ∧ k success { st with
          machine := { st.machine with
            stack := st.machine.stack.drop (asUsize keys + asUsize sigs + 3) }
          opCount := opCount } = .ok st' := by
  obtain ⟨x, rest, keys, hs, hkeys, h⟩ := popNum_eq_ok h
  simp only [bind_eq_ok, exists_unit, rejectIf_eq_ok, not_lt] at h
  obtain ⟨h20, -, h⟩ := h
  obtain ⟨hlen, h⟩ := stackPops_eq_ok h
  obtain ⟨y, rest', sigs, hdrop, hsigs, h⟩ := popNum_eq_ok h
  simp only [bind_eq_ok, exists_unit, rejectIf_eq_ok, not_lt] at h
  obtain ⟨-, h⟩ := h
  obtain ⟨hlen', h⟩ := stackPops_eq_ok h
  obtain ⟨dummy, rest'', hdrop', h⟩ := stackPop_eq_ok h
  simp only [bind_eq_ok, exists_unit] at h hdrop hdrop' hlen hlen'
  obtain ⟨-, h⟩ := h
  -- the stack is the count of keys, the keys, the count of signatures, those and a dummy
  have hy : rest[asUsize keys]? = some y := by rw [← head?_drop, hdrop, head?_cons]
  have hrest : rest' = rest.drop (asUsize keys + 1) := by rw [← tail_drop, hdrop, tail_cons]
  have hend : rest'' = (x :: rest).drop (asUsize keys + asUsize sigs + 3) := by
    have htail := congrArg tail hdrop'
    rw [tail_drop, tail_cons, hrest, drop_drop] at htail
    rw [← htail, drop_succ_cons]
    congr 1
    omega
  have hmany : asUsize keys + asUsize sigs + 3 ≤ (x :: rest).length := by
    have hlong := congrArg length hdrop'
    rw [hrest] at hlong
    simp only [length_drop, length_cons] at hlong ⊢
    omega
  subst hend
  rw [hs]
  exact ⟨x, y, keys, sigs, _, _, rfl, hkeys, h20, hy, hsigs, hmany, h⟩

theorem does_of_executeOp (h : executeOp ctx st code = .ok st') :
    (Opcode.ofByte code).Does st.machine st'.machine := by
  have hplain : ∀ m', plainOp ctx code st.machine (Opcode.ofByte code) = .ok m' →
      (Opcode.ofByte code).Does st.machine m' := fun _ => does_of_plainOp
  unfold executeOp at h
  cases hop : Opcode.ofByte code <;> rw [hop] at h hplain
  case checkSig =>
    obtain ⟨hlen, pubkey, sig, h⟩ := stackPop_stackPop_eq_ok h
    cases h
    exact ⟨hlen, _, minimalOperand_boolBytes _, rfl⟩
  case checkSigVerify =>
    obtain ⟨hlen, pubkey, sig, h⟩ := stackPop_stackPop_eq_ok h
    rcases ite_eq_iff.mp h with ⟨-, h⟩ | ⟨-, h⟩
    · cases h
      exact ⟨hlen, rfl⟩
    · cases h
  case checkMultiSig =>
    obtain ⟨x, y, keys, sigs, success, opCount, hx, hkeys, h20, hy, hsigs, hlen, h⟩ :=
      checkMultiSigOp_eq_ok h
    cases h
    exact ⟨x, y, keys, sigs, _, hx, hkeys, h20, hy, hsigs, hlen,
      ⟨_, minimalOperand_boolBytes _, rfl⟩, rfl⟩
  case checkMultiSigVerify =>
    obtain ⟨x, y, keys, sigs, success, opCount, hx, hkeys, h20, hy, hsigs, hlen, h⟩ :=
      checkMultiSigOp_eq_ok h
    split at h <;> cases h
    exact ⟨x, y, keys, sigs, [], hx, hkeys, h20, hy, hsigs, hlen, rfl, rfl⟩
  case codeSeparator =>
    cases h
    exact ⟨Nat.zero_le _, rfl⟩
  all_goals
    obtain ⟨m, hm, h⟩ := bind_eq_ok.mp h
    cases h
    exact hplain m hm

omit [ScriptCrypto] in
theorem branchOp_eq (m : Machine) (op : Opcode) : branchOp m op = Tapscript.branchOp m op := by
  cases op with
  | _ => rfl

/-- **An instruction does what its effect says.** -/
theorem does_of_step (h : step ctx st i = .ok (.next st')) :
    st.machine.Does i st'.machine := by
  cases i with
  | pushBytes data =>
    simp only [step, stepPush, bind_eq_ok, exists_unit, rejectIf_eq_ok, not_lt, pure_eq_ok] at h
    obtain ⟨st₁, ⟨hlen, -, h⟩, hst⟩ := h
    cases hst
    rw [Machine.Does]
    split at h
    · rename_i hex
      simp only [bind_eq_ok, exists_unit, pure_eq_ok] at h
      obtain ⟨-, rfl⟩ := h
      rw [if_pos (show st.machine.executing = true from hex)]
      exact ⟨hlen, rfl⟩
    · rename_i hex
      cases h
      rw [if_neg (show ¬ st.machine.executing = true from hex)]
  | op code =>
    simp only [step, stepOp, bind_eq_ok, pure_eq_ok] at h
    obtain ⟨st₁, ⟨st₂, hcheck, h⟩, hst⟩ := h
    cases hst
    obtain ⟨-, -, -, rfl⟩ := checkOp_eq_ok.mp hcheck
    rw [Machine.Does, ← branchOp_eq]
    cases hb : branchOp st.machine (Opcode.ofByte code) with
    | some result =>
      simp only [hb, bind_eq_ok, pure_eq_ok] at h
      obtain ⟨m, rfl, rfl⟩ := h
      rfl
    | none =>
      simp only [hb] at h
      split at h
      · rename_i hex
        simp only [bind_eq_ok, exists_unit, pure_eq_ok] at h
        obtain ⟨st₃, hop, -, rfl⟩ := h
        have hdoes := does_of_executeOp hop
        rw [if_pos hex]
        exact hdoes
      · rename_i hex
        cases h
        rw [if_neg hex]

end Legacy

/-! ## What a script leaves -/

/-- **Whatever is computed, `R` holds of the stack that a script leaves**, if it leaves
one. -/
structure Ends (R : List Bytes → Prop) (script : Bytes) (stack : List Bytes) : Prop where
  everyPath : EveryPath Machine.Does (fun _ _ => True) (fun m => m.execStack = [] → R m.stack)
    (Machine.start stack) (parse script)

section

variable {R : List Bytes → Prop} {script : Bytes} {stack result : List Bytes} {tx : Tx}
  {inputIndex : Nat} (h : Ends R script stack)
include h

theorem Ends.of_executeScriptInner {amount : UInt64} {flags : ScriptFlags} {segwit : Bool}
    (hrun : executeScriptInner script stack tx inputIndex amount flags segwit = .ok result) :
    R result := by
  simp only [executeScriptInner, bind_eq_ok, exists_unit, rejectIf_eq_ok, not_not,
    pure_eq_ok] at hrun
  obtain ⟨-, flow, hflow, -, hexec, rfl⟩ := hrun
  cases flow with
  | done st =>
    obtain ⟨u, j, -, -, hstep⟩ := exists_reached_done hflow
    exact absurd hstep (Legacy.step_ne_done _ u j st)
  | next st =>
    obtain ⟨m, rfl, hm⟩ := h.everyPath.of_run (D := fun m st => st.machine = m) rfl hflow
      fun m u j t hu _ hstep => ⟨_, hu ▸ Legacy.does_of_step hstep, rfl⟩
    exact hm hexec

end

end Script
