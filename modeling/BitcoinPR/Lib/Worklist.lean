import Mathlib.Algebra.Order.BigOperators.Group.Finset
import Mathlib.Algebra.Order.Group.Nat
import Mathlib.Data.Finset.SDiff
import Mathlib.Logic.Relation

/-!
# Closing a set under successors, with a worklist

A search keeps a stack of items to look at and the items it has seen. It takes
the item on top; an item seen before is dropped, a new one is noted and its
successors are pushed. When the stack is empty the items seen are closed under
successors, and each of them is reached from where the search began.

The search is given fuel. An item is looked at once for every time it is
pushed, and it is pushed once from every item seen, so that the length of the
stack and the numbers of successors of the items not seen yet are fuel enough
(`budget`).
-/

open List

namespace Worklist

variable {α : Type} [DecidableEq α] (succ : α → List α)

/-- **The search**: from a stack and what was seen before, what is seen in the
end, in the order in which it was seen. Successors are pushed from left to
right. -/
def close : Nat → List α → List α → List α
  | 0, _, seen => seen
  | _ + 1, [], seen => seen
  | fuel + 1, a :: stack, seen =>
    if a ∈ seen then close fuel stack seen
    else close fuel ((succ a).reverse ++ stack) (seen ++ [a])

/-- The fuel a search needs, if only items of `support` have successors. -/
def budget (support : Finset α) (stack seen : List α) : Nat :=
  stack.length + ∑ a ∈ support \ seen.toFinset, (succ a).length

variable {succ} {stack seen : List α}

/-- What was seen stays seen, in its place. -/
theorem isPrefix_close (fuel : Nat) (stack seen : List α) :
    seen <+: close succ fuel stack seen := by
  induction fuel generalizing stack seen with
  | zero => exact prefix_refl seen
  | succ fuel ih =>
    cases stack with
    | nil => exact prefix_refl seen
    | cons a stack =>
      rw [close]
      split
      · exact ih stack seen
      · exact (prefix_append seen [a]).trans (ih _ _)

theorem subset_close {fuel : Nat} {a : α} (h : a ∈ seen) :
    a ∈ close succ fuel stack seen :=
  (isPrefix_close fuel stack seen).subset h

/-- Nothing is seen twice. -/
theorem nodup_close {fuel : Nat} (h : seen.Nodup) :
    (close succ fuel stack seen).Nodup := by
  induction fuel generalizing stack seen with
  | zero => exact h
  | succ fuel ih =>
    cases stack with
    | nil => exact h
    | cons a stack =>
      rw [close]
      split
      · exact ih h
      · rename_i ha
        refine ih (h.append (nodup_singleton a) ?_)
        exact fun b hb hb' => ha (mem_singleton.mp hb' ▸ hb)

/-- Seeing an item pays for pushing its successors. -/
theorem budget_push {support : Finset α} (hsupport : ∀ a, a ∉ support → succ a = []) {a : α}
    (ha : a ∉ seen) :
    budget succ support ((succ a).reverse ++ stack) (seen ++ [a]) + 1
      ≤ budget succ support (a :: stack) seen := by
  have herase : support \ (seen ++ [a]).toFinset = (support \ seen.toFinset).erase a := by
    ext b
    simp only [Finset.mem_sdiff, mem_toFinset, mem_append, mem_singleton, Finset.mem_erase, not_or]
    tauto
  have hsum : ∑ b ∈ (support \ seen.toFinset).erase a, (succ b).length + (succ a).length
      ≤ ∑ b ∈ support \ seen.toFinset, (succ b).length := by
    by_cases hmem : a ∈ support
    · refine Nat.le_of_eq (Finset.sum_erase_add _ _ ?_)
      rw [Finset.mem_sdiff, mem_toFinset]
      exact ⟨hmem, ha⟩
    · rw [hsupport a hmem, length_nil]
      exact Finset.sum_le_sum_of_subset (Finset.erase_subset _ _)
  unfold budget
  rw [herase, length_append, length_reverse, length_cons]
  omega

/-- **With enough fuel the search ends**: all of the stack is seen, and so are
the successors of all that is new. -/
theorem closed_close {support : Finset α} (hsupport : ∀ a, a ∉ support → succ a = [])
    {fuel : Nat} (hfuel : budget succ support stack seen ≤ fuel) :
    (∀ a ∈ stack, a ∈ close succ fuel stack seen)
      ∧ ∀ a ∈ close succ fuel stack seen, a ∉ seen → ∀ b ∈ succ a,
          b ∈ close succ fuel stack seen := by
  induction fuel generalizing stack seen with
  | zero =>
    have hstack : stack = [] := by
      refine length_eq_zero_iff.mp (Nat.le_zero.mp (le_trans ?_ hfuel))
      exact Nat.le_add_right _ _
    subst hstack
    exact ⟨fun _ h => (by cases h), fun a ha hna => absurd ha hna⟩
  | succ fuel ih =>
    cases stack with
    | nil => exact ⟨fun _ h => (by cases h), fun a ha hna => absurd ha hna⟩
    | cons a stack =>
      rw [close]
      split
      · rename_i ha
        have hrest := @ih stack seen (by
          unfold budget at hfuel ⊢
          rw [length_cons] at hfuel
          omega)
        refine ⟨fun b hb => ?_, hrest.2⟩
        rcases mem_cons.mp hb with rfl | hb
        · exact subset_close ha
        · exact hrest.1 b hb
      · rename_i ha
        have hrest := @ih ((succ a).reverse ++ stack) (seen ++ [a])
          (Nat.le_of_succ_le_succ ((budget_push hsupport ha).trans hfuel))
        refine ⟨fun b hb => ?_, fun b hb hnb c hc => ?_⟩
        · rcases mem_cons.mp hb with rfl | hb
          · exact subset_close (mem_append_right seen (mem_singleton_self b))
          · exact hrest.1 b (mem_append_right _ hb)
        · by_cases hba : b = a
          · subst hba
            exact hrest.1 c (mem_append_left _ (mem_reverse.mpr hc))
          · refine hrest.2 b hb (fun hmem => ?_) c hc
            rcases mem_append.mp hmem with h | h
            · exact hnb h
            · exact hba (mem_singleton.mp h)

end Worklist
