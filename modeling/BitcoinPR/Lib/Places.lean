import Mathlib.Data.List.Infix

/-!
# What stands at a place of a growing sequence

A sequence that is only ever appended to keeps what stands in it: `Stands v i r`
says that `r` is found at place `i` of `v`, and a longer sequence still has it
there. `Agrees v i r` is the weaker statement for a sequence that may end too
early: what is found at place `i` is not in conflict with `r`, because it *is*
`r` or because `v` ends inside it. Agreement survives a cut, which standing does
not, and an append that ends before the place of `r` or begins behind it.

A read of an exact number of elements fails where the sequence is too short.
Inside the place of `r` it gives the elements of `r` whenever it succeeds, if the
sequence agrees with `r`, and it succeeds if `r` stands.
-/

open List

namespace Places

variable {α : Type*} {v w r : List α} {i : Nat}

/-- `r` is found at place `i`. -/
def Stands (v : List α) (i : Nat) (r : List α) : Prop := r <+: v.drop i

/-- What is found at place `i` is `r`, as far as the sequence goes. -/
def Agrees (v : List α) (i : Nat) (r : List α) : Prop := v.drop i <+: r ∨ r <+: v.drop i

/-- Read `n` elements from `i` on, or nothing if there are fewer. -/
def readExact (v : List α) (i n : Nat) : Option (List α) :=
  if i + n ≤ v.length then some ((v.drop i).take n) else none

theorem stands_nil (v : List α) (i : Nat) : Stands v i [] := nil_prefix

theorem Stands.mono (h : Stands v i r) (hw : v <+: w) : Stands w i r :=
  h.trans (hw.drop i)

/-- What is appended stands behind what was there. -/
theorem stands_append_right (h : v.length = i) (r : List α) : Stands (v ++ r) i r := by
  unfold Stands
  rw [← h, drop_left]

/-- Appending to a sequence that ends with `r` continues `r`. -/
theorem Stands.continue (h : Stands v i r) (hi : v.length = i + r.length) (w : List α) :
    Stands (v ++ w) i (r ++ w) := by
  have hlen : (v.drop i).length = r.length := by
    rw [length_drop, hi, Nat.add_sub_cancel_left]
  have hdrop : v.drop i = r := (h.eq_of_length hlen.symm).symm
  unfold Stands
  rw [drop_append_of_le_length (hi ▸ Nat.le_add_right i _), hdrop]

theorem Stands.length_le (h : Stands v i r) (hr : 0 < r.length) : i + r.length ≤ v.length := by
  have hlen := List.IsPrefix.length_le h
  rw [length_drop] at hlen
  omega

theorem Stands.agrees (h : Stands v i r) : Agrees v i r := Or.inr h

/-- A sequence that has not reached the place agrees with anything. -/
theorem agrees_of_length_le (h : v.length ≤ i) (r : List α) : Agrees v i r := by
  left
  rw [drop_eq_nil_of_le h]
  exact nil_prefix

/-- A sequence cut short still agrees. -/
theorem Agrees.cut (h : Agrees w i r) (hv : v <+: w) : Agrees v i r := by
  have hd : v.drop i <+: w.drop i := hv.drop i
  rcases h with h | h
  · exact Or.inl (hd.trans h)
  · exact prefix_or_prefix_of_prefix hd h

/-- An append behind the place of `r` does not touch it. -/
theorem Agrees.append (h : Agrees v i r) (hr : i + r.length ≤ v.length) (w : List α) :
    Agrees (v ++ w) i r := by
  refine Or.inr (Stands.mono ?_ (prefix_append v w))
  rcases h with h | h
  · refine (h.eq_of_length_le ?_) ▸ prefix_refl _
    rw [length_drop]
    omega
  · exact h

/-- **A read inside the place of `r`** gives the elements of `r`. -/
theorem Agrees.readExact_eq (h : Agrees v i r) {a n : Nat} (hn : a + n ≤ r.length)
    {d : List α} (hd : readExact v (i + a) n = some d) : d = (r.drop a).take n := by
  unfold readExact at hd
  split at hd
  · rename_i hv
    rw [← Option.some.inj hd, ← drop_drop]
    -- both sides are the same cut of two sequences of which one begins the other
    rcases h with ⟨t, rfl⟩ | ⟨t, ht⟩
    · rw [drop_append, take_append_of_le_length]
      rw [length_drop, length_drop]
      omega
    · rw [← ht, drop_append, take_append_of_le_length]
      rw [length_drop]
      omega
  · cases hd

/-- **A read inside the place of `r` succeeds** if `r` stands. -/
theorem Stands.readExact (h : Stands v i r) (hr : 0 < r.length) {a n : Nat}
    (hn : a + n ≤ r.length) : readExact v (i + a) n = some ((r.drop a).take n) := by
  have hlen := h.length_le hr
  have hread : Places.readExact v (i + a) n = some ((v.drop (i + a)).take n) :=
    if_pos (by omega)
  rw [hread]
  exact congrArg some (h.agrees.readExact_eq hn hread)

end Places
