import Mathlib.Data.List.Sort

/-!
# The median of a sliding window

The median of a list is what stands in the middle once the list is sorted; of
two middle entries it is the upper one. It is at least `x` exactly if no more
than half of the entries are below `x`, so that a median is compared by counting
and the sorted list is never looked at again.

A window that moves on by an entry that is not below its median keeps the median
from falling.
-/

open List

namespace Median

variable {α : Type} [LinearOrder α] {l : List α}

/-- The upper median; none of the empty list. -/
def median (l : List α) : Option α := (l.insertionSort (· ≤ ·))[l.length / 2]?

theorem median_eq_none_iff : median l = none ↔ l = [] := by
  rw [median, getElem?_eq_none_iff, length_insertionSort]
  constructor
  · intro h
    exact length_eq_zero_iff.mp (by omega)
  · rintro rfl
    exact Nat.zero_le _

/-- An entry of a sorted list is at least `x` if and only if no more entries
than stand before it are below `x`. -/
theorem le_iff_countP_le {before after : List α} {m : α}
    (hs : (before ++ m :: after).Pairwise (· ≤ ·)) (x : α) :
    x ≤ m ↔ (before ++ m :: after).countP (fun a => decide (a < x)) ≤ before.length := by
  obtain ⟨-, hafter, hbefore⟩ := pairwise_append.mp hs
  rw [countP_append]
  constructor
  · intro hle
    have hzero : (m :: after).countP (fun a => decide (a < x)) = 0 := by
      refine countP_eq_zero.mpr fun a ha => ?_
      have hma : m ≤ a := (mem_cons.mp ha).elim (fun h => h ▸ le_rfl)
        fun h => rel_of_pairwise_cons hafter h
      simpa using hle.trans hma
    rw [hzero]
    exact countP_le_length
  · intro hcount
    by_contra hlt
    rw [not_le] at hlt
    -- then everything up to the entry is below `x`
    have hall : before.countP (fun a => decide (a < x)) = before.length :=
      countP_eq_length.mpr fun a ha =>
        decide_eq_true ((hbefore a ha m mem_cons_self).trans_lt hlt)
    have hpos : 0 < (m :: after).countP (fun a => decide (a < x)) :=
      countP_pos_iff.mpr ⟨m, mem_cons_self, decide_eq_true hlt⟩
    omega

/-- **A median is compared by counting.** -/
theorem le_median_iff {m : α} (h : median l = some m) (x : α) :
    x ≤ m ↔ l.countP (fun a => decide (a < x)) ≤ l.length / 2 := by
  obtain ⟨hlt, heq⟩ := List.getElem?_eq_some_iff.mp h
  have hsplit := List.take_append_drop (l.length / 2) (l.insertionSort (· ≤ ·))
  rw [drop_eq_getElem_cons hlt, heq] at hsplit
  have hsorted := pairwise_insertionSort (· ≤ ·) l
  have hcount := (perm_insertionSort (· ≤ ·) l).countP_eq fun a => decide (a < x)
  rw [← hsplit] at hsorted hcount
  rw [le_iff_countP_le hsorted x, hcount, length_take, Nat.min_eq_left (Nat.le_of_lt hlt)]

/-- **The median of a window of the last `n` entries does not fall** when an
entry that is not below it comes in. -/
theorem median_le_median_cons {n : Nat} {t m m' : α}
    (hm : median (l.take n) = some m) (ht : m ≤ t) (hm' : median ((t :: l).take n) = some m') :
    m ≤ m' := by
  have hbelow := (le_median_iff hm m).mp le_rfl
  refine (le_median_iff hm' m).mpr ?_
  cases n with
  | zero => cases hm
  | succ n =>
    calc ((t :: l).take (n + 1)).countP (fun a => decide (a < m))
        = (l.take n).countP (fun a => decide (a < m)) := by
          rw [take_succ_cons, countP_cons_of_neg (by simpa using ht)]
      _ ≤ (l.take (n + 1)).countP (fun a => decide (a < m)) :=
          (take_sublist_take_left (Nat.le_succ n)).countP_le
      _ ≤ (l.take (n + 1)).length / 2 := hbelow
      _ ≤ ((t :: l).take (n + 1)).length / 2 := by
          simp only [length_take, length_cons]
          omega

end Median
