import Mathlib.Logic.Basic

/-!
# Sequences of checks

Code that validates is a sequence of checks, each of which may end the whole
with an error. In `Except` that is a chain of binds; the lemmas here take a
chain apart, once for a result and once for an error: a chain succeeds when
every link does, and fails with the error of the first link that fails.
-/

variable {ε α β : Type}

/-- Fail with `e` if `c` holds. -/
def rejectIf (c : Prop) [Decidable c] (e : ε) : Except ε Unit :=
  if c then .error e else .ok ()

@[simp] theorem rejectIf_eq_ok {c : Prop} [Decidable c] {e : ε} {u : Unit} :
    rejectIf c e = .ok u ↔ ¬ c := by
  unfold rejectIf
  by_cases h : c <;> simp [h]

@[simp] theorem rejectIf_eq_error {c : Prop} [Decidable c] {e e' : ε} :
    rejectIf c e = .error e' ↔ c ∧ e = e' := by
  unfold rejectIf
  by_cases h : c <;> simp [h]

/-- Make the check `x` if `c` holds. -/
def checkIf (c : Prop) [Decidable c] (x : Except ε Unit) : Except ε Unit :=
  if c then x else .ok ()

@[simp] theorem checkIf_eq_ok {c : Prop} [Decidable c] {x : Except ε Unit} {u : Unit} :
    checkIf c x = .ok u ↔ (c → x = .ok ()) := by
  unfold checkIf
  by_cases h : c <;> simp [h]

/-- A check returns nothing worth naming. -/
theorem exists_unit {p : Unit → Prop} : (∃ u, p u) ↔ p () := by
  refine ⟨?_, fun h => ⟨(), h⟩⟩
  rintro ⟨u, h⟩
  exact h

namespace Except

variable {x : Except ε α}

/-- A chain succeeds when its first link and the rest do. -/
theorem bind_eq_ok {f : α → Except ε β} {b : β} :
    (x >>= f) = .ok b ↔ ∃ a, x = .ok a ∧ f a = .ok b := by
  cases x with
  | error e => simp [bind, Except.bind]
  | ok a => simp [bind, Except.bind]

/-- A chain fails when its first link fails, or when it succeeds and the rest
fails. -/
theorem bind_eq_error {f : α → Except ε β} {e : ε} :
    (x >>= f) = .error e ↔ x = .error e ∨ ∃ a, x = .ok a ∧ f a = .error e := by
  cases x with
  | error e => simp [bind, Except.bind]
  | ok a => simp [bind, Except.bind]

@[simp] theorem pure_eq_ok {a b : α} : (pure a : Except ε α) = .ok b ↔ a = b := by
  show Except.ok a = .ok b ↔ a = b
  simp

@[simp] theorem ok_bind (a : α) (f : α → Except ε β) : (Except.ok a >>= f) = f a := rfl

/-- Whatever `x` fails with satisfies `P`. -/
def FailsIn (P : ε → Prop) (x : Except ε α) : Prop := ∀ e, x = .error e → P e

section FailsIn

variable {P : ε → Prop}

theorem failsIn_ok (a : α) : (Except.ok a : Except ε α).FailsIn P := fun _ h => (by cases h)

theorem failsIn_error {e : ε} (h : P e) : (Except.error e : Except ε α).FailsIn P := by
  rintro _ ⟨⟩
  exact h

theorem failsIn_rejectIf {c : Prop} [Decidable c] {e : ε} (h : c → P e) :
    (rejectIf c e).FailsIn P := by
  intro e' he
  obtain ⟨hc, rfl⟩ := rejectIf_eq_error.mp he
  exact h hc

theorem failsIn_checkIf {c : Prop} [Decidable c] {x : Except ε Unit} (h : c → x.FailsIn P) :
    (checkIf c x).FailsIn P := by
  unfold checkIf
  by_cases hc : c
  · rw [if_pos hc]
    exact h hc
  · rw [if_neg hc]
    exact failsIn_ok ()

/-- A chain fails as its links do. -/
theorem FailsIn.bind {x : Except ε α} {f : α → Except ε β} (hx : x.FailsIn P)
    (hf : ∀ a, x = .ok a → (f a).FailsIn P) : (x >>= f).FailsIn P := by
  intro e he
  rcases bind_eq_error.mp he with he | ⟨a, ha, he⟩
  · exact hx e he
  · exact hf a ha e he

end FailsIn

end Except
