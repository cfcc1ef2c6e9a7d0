import BitcoinPR.Lib.Checked

/-!
# Remembering which checks succeeded

Checks are expensive, so a program remembers the ones that succeeded and does
not make them again. A memory is asked by a **key** of the check and not by the
check itself; it may forget, but it never knows a key it was not told.

Whether the memory can be trusted is a matter of the keys: if two checks of the
same key come out the same way, then what is remembered is right
(`Honest`), and going through a list of checks with the memory comes to what
going through it without comes to (`checkAll_eq`).
-/

/-- **A memory** of keys, which may forget some when it is told another. -/
structure Memo (C κ : Type) where
  contains : C → κ → Bool
  insert : C → κ → C
  contains_insert : ∀ {c k k'}, contains (insert c k) k' = true → k' = k ∨ contains c k' = true

namespace Memo

variable {C κ α ε : Type} (m : Memo C κ) (key : α → κ) (verify : α → Except ε Unit)

/-- Make a check, unless it is remembered; a success is remembered. -/
def check (c : C) (a : α) : Except ε C :=
  if m.contains c (key a) then .ok c
  else do
    verify a
    return m.insert c (key a)

/-- Make checks one after the other, up to the first that fails. -/
def checkAll (wrap : ε → ε) : List α → C → Except ε Unit × C
  | [], c => (.ok (), c)
  | a :: as, c =>
    match check m key verify c a with
    | .error e => (.error (wrap e), c)
    | .ok c => checkAll wrap as c

/-- The same without a memory. -/
def verifyAll (wrap : ε → ε) : List α → Except ε Unit
  | [] => .ok ()
  | a :: as =>
    match verify a with
    | .error e => .error (wrap e)
    | .ok _ => verifyAll wrap as

/-- **What is remembered is right**, for the checks of a kind. -/
def Honest (P : α → Prop) (c : C) : Prop :=
  ∀ a, P a → m.contains c (key a) = true → verify a = .ok ()

variable {m key verify} {P : α → Prop}
  (hkey : ∀ a b, P a → P b → key a = key b → verify a = verify b)
include hkey

theorem Honest.insert {c : C} (h : m.Honest key verify P c) {a : α} (ha : P a)
    (hv : verify a = .ok ()) : m.Honest key verify P (m.insert c (key a)) := by
  intro b hb hin
  rcases m.contains_insert hin with heq | hin
  · rw [hkey b a hb ha heq]
    exact hv
  · exact h b hb hin

/-- One check comes out as it does without the memory. -/
theorem Honest.check {c : C} (h : m.Honest key verify P c) {a : α} (ha : P a) :
    (∃ e, verify a = .error e ∧ Memo.check m key verify c a = .error e)
      ∨ ∃ c', verify a = .ok () ∧ Memo.check m key verify c a = .ok c'
          ∧ m.Honest key verify P c' := by
  unfold Memo.check
  by_cases hin : m.contains c (key a) = true
  · rw [if_pos hin]
    exact Or.inr ⟨c, h a ha hin, rfl, h⟩
  · rw [if_neg hin]
    cases hv : verify a with
    | error e => exact Or.inl ⟨e, rfl, rfl⟩
    | ok u => exact Or.inr ⟨m.insert c (key a), rfl, rfl, h.insert hkey ha hv⟩

/-- **A list of checks comes out as it does without the memory**, and the memory
stays right. -/
theorem checkAll_eq (wrap : ε → ε) {as : List α} (has : ∀ a ∈ as, P a) {c : C}
    (h : m.Honest key verify P c) :
    (checkAll m key verify wrap as c).1 = verifyAll verify wrap as
      ∧ m.Honest key verify P (checkAll m key verify wrap as c).2 := by
  induction as generalizing c with
  | nil => exact ⟨rfl, h⟩
  | cons a as ih =>
    rw [checkAll, verifyAll]
    rcases h.check hkey (has a List.mem_cons_self) with ⟨e, hv, hc⟩ | ⟨c', hv, hc, h'⟩
    · rw [hc, hv]
      exact ⟨rfl, h⟩
    · rw [hc, hv]
      exact ih (fun b hb => has b (List.mem_cons_of_mem a hb)) h'

end Memo
