import Mathlib.Tactic.Ring

/-!
# Long division, bit by bit

The bits of the numerator are brought into a remainder from the top, and the
denominator is taken off whenever it fits. After the bits from `k` on, quotient and
remainder are those of `num / 2 ^ k`, the quotient being kept in place (`divided`).
The remainder never exceeds the part of the numerator that has been read
(`shifted_le`), so a fixed-width implementation that holds the numerator holds every
intermediate remainder.
-/

namespace LongDivision

/-- The remainder with the next bit brought in. -/
def shifted (num rem k : Nat) : Nat := 2 * rem + num / 2 ^ k % 2

/-- One step of the division, at bit `k`. -/
def step (num den : Nat) (qr : Nat × Nat) (k : Nat) : Nat × Nat :=
  if shifted num qr.2 k < den then (qr.1, shifted num qr.2 k)
  else (qr.1 + 2 ^ k, shifted num qr.2 k - den)

/-- Quotient and remainder once the bits from `k` on are read. -/
def divided (num den k : Nat) : Nat × Nat := (num / 2 ^ k / den * 2 ^ k, num / 2 ^ k % den)

theorem div_two_pow_succ (num k : Nat) :
    num / 2 ^ k = 2 * (num / 2 ^ (k + 1)) + num / 2 ^ k % 2 := by
  rw [pow_succ, ← Nat.div_div_eq_div_mul]
  omega

/-- The shifted remainder is part of what has been read. -/
theorem shifted_le (num den k : Nat) :
    shifted num (divided num den (k + 1)).2 k ≤ num / 2 ^ k := by
  have hmod : num / 2 ^ (k + 1) % den ≤ num / 2 ^ (k + 1) := Nat.mod_le _ _
  have hread := div_two_pow_succ num k
  unfold shifted divided
  omega

/-- **One step reads one bit.** -/
theorem step_divided {num den : Nat} (hden : 0 < den) (k : Nat) :
    step num den (divided num den (k + 1)) k = divided num den k := by
  have hread := div_two_pow_succ num k
  have hlt : num / 2 ^ (k + 1) % den < den := Nat.mod_lt _ hden
  have hsplit := Nat.div_add_mod (num / 2 ^ (k + 1)) den
  unfold step shifted divided
  generalize num / 2 ^ (k + 1) % den = r at *
  generalize num / 2 ^ (k + 1) / den = q at *
  generalize hb : num / 2 ^ k % 2 = b at *
  have hb1 : b < 2 := hb ▸ Nat.mod_lt _ Nat.two_pos
  rw [← hsplit] at hread
  split
  · rename_i hfits
    have hdm : num / 2 ^ k / den = 2 * q ∧ num / 2 ^ k % den = 2 * r + b := by
      rw [Nat.div_mod_unique hden]
      exact ⟨by rw [hread]; ring, hfits⟩
    rw [hdm.1, hdm.2]
    exact Prod.ext (by ring) rfl
  · rename_i hfits
    have hdm : num / 2 ^ k / den = 2 * q + 1 ∧ num / 2 ^ k % den = 2 * r + b - den := by
      rw [Nat.div_mod_unique hden]
      refine ⟨?_, by omega⟩
      rw [Nat.mul_add]
      have : den * (2 * q) = 2 * (den * q) := by ring
      omega
    rw [hdm.1, hdm.2]
    exact Prod.ext (by ring) rfl

end LongDivision
