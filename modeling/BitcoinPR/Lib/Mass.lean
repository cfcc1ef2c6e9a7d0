import BitcoinPR.Lib.PartialMap
import Mathlib.Algebra.BigOperators.Group.Finset.Piecewise
import Mathlib.Algebra.Order.BigOperators.Group.Finset
import Mathlib.Algebra.Order.Ring.Nat

/-!
# Bounded totals

A store holds weights, one per key, and the question is what they add up to.
The keys are not known to be finitely many, so the total is spoken of through
its bounds: `AtMost g b` says that no finite set of keys weighs more than `b`.
Taking the weight of one key away lowers the bound by that weight, adding to
one key raises it by what is added, and binding a list of values raises it by
the weight of the list. Nothing else is asked of a total.
-/

open Finset

namespace Mass

variable {K V : Type}

/-- The weights `g` add up to at most `b`. -/
def AtMost (g : K → ℕ) (b : ℕ) : Prop := ∀ F : Finset K, ∑ k ∈ F, g k ≤ b

namespace AtMost

variable {g g' : K → ℕ} {b b' : ℕ}

section

variable (h : AtMost g b)
include h

theorem apply_le (k : K) : g k ≤ b := by
  have hk := h {k}
  rwa [sum_singleton] at hk

theorem mono (hb : b ≤ b') : AtMost g b' := fun F => (h F).trans hb

/-- Lighter weights have a smaller total. -/
theorem of_le (hg : ∀ k, g' k ≤ g k) : AtMost g' b :=
  fun F => (sum_le_sum fun k _ => hg k).trans (h F)

variable [DecidableEq K]

theorem sum_list_le {l : List K} (hl : l.Nodup) : (l.map g).sum ≤ b := by
  have hF := h l.toFinset
  rwa [List.sum_toFinset g hl] at hF

/-- **Taking one weight away** lowers the bound by it. -/
theorem erase (k : K) : AtMost (Function.update g k 0) (b - g k) := by
  intro F
  have hrest : ∑ j ∈ F, Function.update g k 0 j ≤ ∑ j ∈ F.erase k, g j := by
    rw [← sum_erase F (Function.update_self k 0 g)]
    refine le_of_eq (sum_congr rfl fun j hj => ?_)
    rw [Function.update_of_ne (ne_of_mem_erase hj)]
  have htotal := h (insert k (F.erase k))
  rw [sum_insert (notMem_erase k F)] at htotal
  exact hrest.trans (Nat.le_sub_of_add_le' htotal)

/-- **Adding to one weight** raises the bound by what is added. -/
theorem add_at (k : K) {v : ℕ} (hg : ∀ j, g' j ≤ g j + if j = k then v else 0) :
    AtMost g' (b + v) := by
  intro F
  calc ∑ j ∈ F, g' j ≤ ∑ j ∈ F, (g j + if j = k then v else 0) :=
        sum_le_sum fun j _ => hg j
    _ = ∑ j ∈ F, g j + ∑ j ∈ F, (if j = k then v else 0) := sum_add_distrib
    _ ≤ b + v := by
      refine Nat.add_le_add (h F) ?_
      rw [sum_ite_eq']
      split
      · exact Nat.le_refl v
      · exact Nat.zero_le v

end

end AtMost

/-- What a value bound to a key weighs. -/
def worth (amount : V → ℕ) (v : Option V) : ℕ := (v.map amount).getD 0

@[simp] theorem worth_some (amount : V → ℕ) (v : V) : worth amount (some v) = amount v := rfl

theorem atMost_worth_none (amount : V → ℕ) :
    AtMost (fun _ : K => worth amount none) 0 :=
  fun _ => Nat.le_of_eq (sum_eq_zero fun _ _ => rfl)

/-- **Binding a list** adds at most what its values weigh, beside any weights
`f` and whatever part of the keys is counted. -/
theorem AtMost.putAll [DecidableEq K] {amount : V → ℕ} {f : K → ℕ} {m : K → Option V}
    {counted : K → Prop} [DecidablePred counted] {b : ℕ}
    (h : AtMost (fun k => if counted k then f k + worth amount (m k) else 0) b)
    (l : List (K × V)) :
    AtMost (fun k => if counted k then f k + worth amount (PartialMap.putAll m l k) else 0)
      (b + (l.map fun p => amount p.2).sum) := by
  induction l generalizing m b with
  | nil => exact h
  | cons p l ih =>
    rw [List.map_cons, List.sum_cons, ← Nat.add_assoc]
    refine ih (h.add_at p.1 fun k => ?_)
    by_cases hc : counted k
    · simp only [if_pos hc]
      by_cases hk : k = p.1
      · subst hk
        rw [Function.update_self, if_pos rfl, worth_some]
        omega
      · rw [Function.update_of_ne hk]
        omega
    · simp only [if_neg hc]
      exact Nat.zero_le _

end Mass
