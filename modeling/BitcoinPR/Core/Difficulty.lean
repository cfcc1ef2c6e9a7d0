import BitcoinPR.Core.Validation
import BitcoinPR.Lib.LongDivision
import Mathlib.Tactic.IntervalCases

/-!
# The arithmetic of difficulty

Work and retargeting are computed by hand-written loops: carries over the 32 bytes of a
big-endian number, a long division over its 256 bits, a multiplication and a division
over four 64-bit limbs. Each loop is first given its meaning on numbers, carry out
included; the division of `u256Div` is then the abstract one of `LongDivision`, bit by
bit.

`calculateWork_eq` is the exact work of a target, and `multiplyTargetByRatio_eq` the
exact ratio as long as the product fits in 256 bits. For the networks that retarget it
always does, on signet by a factor of about 1.000004 (`ratio_fits`).
-/

open List LongDivision Nat ConsensusParams

/-! ## Loops over bytes -/

theorem beNat_replicate_zero (n : Nat) : beNat (replicate n 0) = 0 := by
  induction n with
  | zero => rfl
  | succ n ih => rw [replicate_succ, beNat, ih, UInt8.toNat_zero, zero_mul]

variable {a b : Bytes}

/-- Byte strings of one length that spell one number are equal. -/
theorem beNat_inj (hlen : a.length = b.length) (h : beNat a = beNat b) : a = b := by
  have hab : ¬ a < b := fun hlt => absurd ((lt_iff_beNat_lt hlen).mp hlt) (by omega)
  have hba : ¬ b < a := fun hlt => absurd ((lt_iff_beNat_lt hlen.symm).mp hlt) (by omega)
  exact List.le_antisymm hba hab

@[simp]
theorem length_addOneCarry (a : Bytes) : (addOneCarry a).1.length = a.length := by
  induction a with
  | nil => rfl
  | cons b bs ih => rw [addOneCarry, length_cons, length_cons, ih]

theorem beNat_addOneCarry (a : Bytes) :
    beNat (addOneCarry a).1 + (addOneCarry a).2 * 256 ^ a.length = beNat a + 1 := by
  induction a with
  | nil => rfl
  | cons b bs ih =>
    have hdm := div_add_mod (b.toNat + (addOneCarry bs).2) 256
    simp only [addOneCarry, beNat, UInt8.toNat_ofNat', length_addOneCarry, length_cons, pow_succ]
    generalize 256 ^ bs.length = w at *
    generalize (addOneCarry bs).2 = c at *
    calc (b.toNat + c) % 256 * w + beNat (addOneCarry bs).1 + (b.toNat + c) / 256 * (w * 256)
        = (256 * ((b.toNat + c) / 256) + (b.toNat + c) % 256) * w
            + beNat (addOneCarry bs).1 := by ring
      _ = b.toNat * w + (beNat (addOneCarry bs).1 + c * w) := by rw [hdm]; ring
      _ = b.toNat * w + beNat bs + 1 := by rw [ih, add_assoc]

/-- Complementing the bytes complements the number. -/
theorem beNat_map_not (a : Bytes) :
    beNat (a.map fun b => ~~~b) + beNat a + 1 = 256 ^ a.length := by
  induction a with
  | nil => rfl
  | cons b bs ih =>
    have hnot : (~~~b).toNat + b.toNat = 255 := by
      have hb : b.toNat < 256 := b.toNat_lt
      rw [UInt8.toNat_not]
      show 256 - 1 - b.toNat + b.toNat = 255
      omega
    rw [map_cons, beNat, beNat, length_map, length_cons, pow_succ]
    generalize 256 ^ bs.length = w at *
    calc (~~~b).toNat * w + beNat (bs.map fun b => ~~~b) + (b.toNat * w + beNat bs) + 1
        = ((~~~b).toNat + b.toNat) * w + (beNat (bs.map fun b => ~~~b) + beNat bs + 1) := by ring
      _ = w * 256 := by rw [hnot, ih]; ring

@[simp]
theorem length_shiftInBit (a : Bytes) (bit : Nat) :
    (shiftInBit a bit).1.length = a.length := by
  induction a with
  | nil => rfl
  | cons b bs ih => rw [shiftInBit, length_cons, length_cons, ih]

theorem shiftInBit_carry_le (a : Bytes) {bit : Nat} (hbit : bit ≤ 1) :
    (shiftInBit a bit).2 ≤ 1 := by
  cases a with
  | nil => exact hbit
  | cons b bs =>
    have hb : b.toNat < 256 := b.toNat_lt
    show b.toNat / 128 ≤ 1
    omega

theorem beNat_shiftInBit (a : Bytes) {bit : Nat} (hbit : bit ≤ 1) :
    beNat (shiftInBit a bit).1 + (shiftInBit a bit).2 * 256 ^ a.length = 2 * beNat a + bit := by
  induction a with
  | nil => simp [shiftInBit, beNat]
  | cons b bs ih =>
    have hcarry := shiftInBit_carry_le bs hbit
    simp only [shiftInBit, beNat, UInt8.toNat_ofNat', length_shiftInBit, length_cons, pow_succ]
    generalize 256 ^ bs.length = w at *
    generalize (shiftInBit bs bit).2 = c at *
    -- The carry in fills the bit the shift frees, so the byte loses its top bit only.
    have hbyte : (b.toNat * 2 + c) % 256 + b.toNat / 128 * 256 = b.toNat * 2 + c := by
      have hb : b.toNat < 256 := b.toNat_lt
      omega
    calc (b.toNat * 2 + c) % 256 * w + beNat (shiftInBit bs bit).1 + b.toNat / 128 * (w * 256)
        = ((b.toNat * 2 + c) % 256 + b.toNat / 128 * 256) * w
            + beNat (shiftInBit bs bit).1 := by ring
      _ = 2 * (b.toNat * w) + (beNat (shiftInBit bs bit).1 + c * w) := by rw [hbyte]; ring
      _ = 2 * (b.toNat * w + beNat bs) + bit := by rw [ih]; ring

/-- The byte of a difference is the same with and without a borrow, modulo 256. -/
theorem subBorrow_cons (a b : UInt8) (as bs : Bytes) :
    subBorrow (a :: as) (b :: bs)
      = (UInt8.ofNat (a.toNat + 256 - b.toNat - (subBorrow as bs).2) :: (subBorrow as bs).1,
        if a.toNat < b.toNat + (subBorrow as bs).2 then 1 else 0) := by
  show (if a.toNat < b.toNat + (subBorrow as bs).2 then _ else _) = _
  split
  · rfl
  · have hbyte : UInt8.ofNat (a.toNat - b.toNat - (subBorrow as bs).2)
        = UInt8.ofNat (a.toNat + 256 - b.toNat - (subBorrow as bs).2) := by
      apply UInt8.toNat_inj.mp
      rw [UInt8.toNat_ofNat', UInt8.toNat_ofNat']
      omega
    rw [hbyte]

theorem length_subBorrow (h : a.length = b.length) :
    (subBorrow a b).1.length = a.length := by
  refine Bytes.induction₂ h rfl fun a b as bs _ ih => ?_
  rw [subBorrow_cons, length_cons, length_cons, ih]

theorem subBorrow_borrow_le (a b : Bytes) : (subBorrow a b).2 ≤ 1 := by
  cases a with
  | nil => exact zero_le 1
  | cons a as =>
    cases b with
    | nil => exact zero_le 1
    | cons b bs =>
      rw [subBorrow_cons]
      show (if _ then 1 else 0) ≤ 1
      split <;> decide

theorem beNat_subBorrow (h : a.length = b.length) :
    beNat (subBorrow a b).1 + beNat b = beNat a + (subBorrow a b).2 * 256 ^ a.length := by
  refine Bytes.induction₂ h rfl fun a b as bs hlen ih => ?_
  have hborrow := subBorrow_borrow_le as bs
  rw [subBorrow_cons]
  simp only [beNat, UInt8.toNat_ofNat', length_subBorrow hlen, length_cons, ← hlen, pow_succ]
  generalize 256 ^ as.length = w at *
  generalize (subBorrow as bs).2 = d at *
  generalize hout : (if a.toNat < b.toNat + d then 1 else 0) = out
  have hbyte : (a.toNat + 256 - b.toNat - d) % 256 + b.toNat + d = a.toNat + out * 256 := by
    have ha : a.toNat < 256 := a.toNat_lt
    have hb : b.toNat < 256 := b.toNat_lt
    split at hout <;> omega
  have hweighted : (a.toNat + 256 - b.toNat - d) % 256 * w + b.toNat * w + d * w
      = a.toNat * w + out * (w * 256) := by
    rw [← add_mul, ← add_mul, hbyte]
    ring
  show (a.toNat + 256 - b.toNat - d) % 256 * w + beNat (subBorrow as bs).1
    + (b.toNat * w + beNat bs) = a.toNat * w + beNat as + out * (w * 256)
  omega

/-- Taking off a number that fits borrows nothing past the first byte. -/
theorem beNat_u256Sub (ha : a.length = 32) (hb : b.length = 32) (hle : beNat b ≤ beNat a) :
    (u256Sub a b).length = 32 ∧ beNat (u256Sub a b) = beNat a - beNat b := by
  have hlen := ha.trans hb.symm
  have hsub := beNat_subBorrow hlen
  have hlt := beNat_lt (subBorrow a b).1
  have hborrow := subBorrow_borrow_le a b
  rw [length_subBorrow hlen, ha] at hlt
  rw [ha] at hsub
  refine ⟨(length_subBorrow hlen).trans ha, ?_⟩
  show beNat (subBorrow a b).1 = beNat a - beNat b
  omega

/-! ## Bits -/

/-- The byte that holds a bit, and the bytes around it. -/
theorem exists_split {a : Bytes} (hlen : a.length = 32) {j : Nat} (hj : j < 32) :
    ∃ front byte back, a = front ++ byte :: back ∧ front.length = 31 - j ∧ back.length = j := by
  have hi : 31 - j < a.length := by omega
  refine ⟨a.take (31 - j), a[31 - j], a.drop (31 - j + 1), ?_, ?_, ?_⟩
  · rw [getElem_cons_drop, take_append_drop]
  · rw [length_take]
    omega
  · rw [length_drop]
    omega

/-- Reading a number from a byte on. -/
theorem beNat_split_div (front : Bytes) (byte : UInt8) (back : Bytes) :
    beNat (front ++ byte :: back) / 256 ^ back.length = beNat front * 256 + byte.toNat := by
  have hlow := beNat_lt back
  rw [beNat_append, beNat, length_cons, pow_succ]
  generalize 256 ^ back.length = w at *
  have hw : 0 < w := zero_lt_of_lt hlow
  have hnum : beNat front * (w * 256) + (byte.toNat * w + beNat back)
      = beNat back + w * (beNat front * 256 + byte.toNat) := by ring
  rw [hnum, add_mul_div_left _ _ hw, div_eq_of_lt hlow, zero_add]

theorem two_pow_eq (k : Nat) : 2 ^ k = 256 ^ (k / 8) * 2 ^ (k % 8) := by
  rw [show 256 = 2 ^ 8 from rfl, ← pow_mul, ← pow_add, div_add_mod]

theorem bitAt_eq {a : Bytes} (hlen : a.length = 32) {k : Nat} (hk : k < 256) :
    bitAt a k = beNat a / 2 ^ k % 2 := by
  obtain ⟨front, byte, back, rfl, hfront, hback⟩ := exists_split hlen (show k / 8 < 32 by omega)
  have hget : (front ++ byte :: back).getD (31 - k / 8) 0 = byte := by
    rw [← hfront]
    simp
  have hr : k % 8 < 8 := Nat.mod_lt _ (by decide)
  rw [bitAt, hget, two_pow_eq k, ← hback, ← Nat.div_div_eq_div_mul, beNat_split_div]
  generalize k % 8 = r at hr
  interval_cases r <;> omega

/-- Setting a bit adds its weight when it and the bits below are clear. -/
theorem beNat_setBit {a : Bytes} (hlen : a.length = 32) {k : Nat} (hk : k < 256)
    (hclear : 2 ^ (k + 1) ∣ beNat a) : beNat (setBit a k) = beNat a + 2 ^ k := by
  obtain ⟨front, byte, back, rfl, hfront, hback⟩ := exists_split hlen (show k / 8 < 32 by omega)
  have hset : setBit (front ++ byte :: back) k
      = front ++ (byte ||| UInt8.ofNat (1 <<< (k % 8))) :: back := by
    rw [setBit, ← hfront, modify_eq_take_cons_drop (by simp)]
    simp
  have hr : k % 8 < 8 := mod_lt _ (by decide)
  -- The byte is a multiple of twice the weight the bit has in it.
  have hbyte : (byte ||| UInt8.ofNat (1 <<< (k % 8))).toNat = byte.toNat + 2 ^ (k % 8) := by
    have hread : 2 ^ (k % 8 + 1) ∣ beNat front * 256 + byte.toNat := by
      rw [← beNat_split_div, hback]
      apply dvd_div_of_mul_dvd
      rwa [pow_succ, ← mul_assoc, ← two_pow_eq]
    have hdvd : 2 ^ (k % 8 + 1) ∣ byte.toNat := by
      have hwhole : 2 ^ (k % 8 + 1) ∣ beNat front * 256 :=
        Dvd.dvd.mul_left (pow_dvd_pow 2 (show k % 8 + 1 ≤ 8 from hr)) _
      exact (Nat.dvd_add_right hwhole).mp hread
    obtain ⟨m, hm⟩ := hdvd
    have hlow : 2 ^ (k % 8) < 2 ^ (k % 8 + 1) :=
      Nat.pow_lt_pow_right Nat.one_lt_two (Nat.lt_succ_self _)
    have hfits : 2 ^ (k % 8) < 256 := Nat.pow_lt_pow_right (a := 2) Nat.one_lt_two hr
    rw [UInt8.toNat_or, UInt8.toNat_ofNat', Nat.one_shiftLeft, Nat.mod_eq_of_lt hfits, hm,
      ← two_pow_add_eq_or_of_lt hlow]
  rw [hset, beNat_append, beNat_append, beNat, beNat, hbyte, two_pow_eq k]
  rw [length_cons, length_cons, hback]
  ring

/-! ## Division and work -/

theorem pow_32 : (256 : Nat) ^ 32 = 2 ^ 256 := by norm_num

/-- A pair of 32-byte numbers spells a quotient and a remainder. -/
structure Spells (bytes : Bytes × Bytes) (qr : Nat × Nat) : Prop where
  length_quotient : bytes.1.length = 32
  length_remainder : bytes.2.length = 32
  quotient : beNat bytes.1 = qr.1
  remainder : beNat bytes.2 = qr.2

variable {num den : Bytes}

section

variable (hnum : num.length = 32) (hden : den.length = 32) (hpos : 0 < beNat den)
include hnum hden hpos

/-- **One step on bytes is one step of long division.** The shift loses no bit, since the
remainder is part of a numerator of 256 bits. -/
theorem spells_divStep {k : Nat} (hk : k < 256) {qr : Bytes × Bytes}
    (h : Spells qr (divided (beNat num) (beNat den) (k + 1))) :
    Spells (divStep num den qr k) (divided (beNat num) (beNat den) k) := by
  have hbit : bitAt num k ≤ 1 := by
    rw [bitAt_eq hnum hk]
    omega
  have hlen : (shiftInBit qr.2 (bitAt num k)).1.length = 32 := by
    rw [length_shiftInBit, h.length_remainder]
  have hread := shifted_le (beNat num) (beNat den) k
  rw [← h.remainder] at hread
  have hrem : beNat (shiftInBit qr.2 (bitAt num k)).1
      = shifted (beNat num) (beNat qr.2) k := by
    have hshift := beNat_shiftInBit qr.2 hbit
    have hcarry := shiftInBit_carry_le qr.2 hbit
    have hfits : beNat num / 2 ^ k < 256 ^ 32 :=
      lt_of_le_of_lt (div_le_self _ _) (hnum ▸ beNat_lt num)
    rw [h.length_remainder, bitAt_eq hnum hk] at hshift
    rw [bitAt_eq hnum hk] at hcarry ⊢
    unfold shifted at hread ⊢
    omega
  have hqr : divided (beNat num) (beNat den) (k + 1) = (beNat qr.1, beNat qr.2) :=
    Prod.ext h.quotient.symm h.remainder.symm
  have hcond : (shiftInBit qr.2 (bitAt num k)).1 < den
      ↔ shifted (beNat num) (beNat qr.2) k < beNat den := by
    rw [lt_iff_beNat_lt (hlen.trans hden.symm), hrem]
  rw [← step_divided hpos k, hqr, step]
  by_cases hfits : shifted (beNat num) (beNat qr.2) k < beNat den
  · rw [divStep, if_pos (hcond.mpr hfits), if_pos hfits]
    exact ⟨h.length_quotient, hlen, rfl, hrem⟩
  · rw [divStep, if_neg (hcond.not.mpr hfits), if_neg hfits]
    have hclear : 2 ^ (k + 1) ∣ beNat qr.1 := by
      rw [h.quotient]
      exact Nat.dvd_mul_left _ _
    have hsub := beNat_u256Sub hlen hden (hrem ▸ Nat.le_of_not_lt hfits)
    rw [hrem] at hsub
    exact ⟨by rw [setBit, length_modify, h.length_quotient], hsub.1,
      beNat_setBit h.length_quotient hk hclear, hsub.2⟩

theorem spells_foldl_divStep {n : Nat} (hn : n ≤ 256) {qr : Bytes × Bytes}
    (h : Spells qr (divided (beNat num) (beNat den) n)) :
    Spells ((range n).reverse.foldl (divStep num den) qr)
      (divided (beNat num) (beNat den) 0) := by
  induction n generalizing qr with
  | zero => exact h
  | succ n ih =>
    rw [range_succ, reverse_append, reverse_singleton, singleton_append]
    exact ih (le_of_succ_le hn) (spells_divStep hnum hden hpos hn h)

/-- **Exact division.** -/
theorem beNat_u256Div :
    (u256Div num den).length = 32 ∧ beNat (u256Div num den) = beNat num / beNat den := by
  have hne : den ≠ List.replicate 32 0 := by
    rintro rfl
    exact lt_irrefl 0 hpos
  have hnone : beNat num / 2 ^ 256 = 0 :=
    div_eq_of_lt (pow_32 ▸ hnum ▸ beNat_lt num)
  have hstart : Spells (List.replicate 32 0, List.replicate 32 0)
      (divided (beNat num) (beNat den) 256) := by
    rw [divided, hnone, Nat.zero_div]
    exact ⟨rfl, rfl, beNat_replicate_zero 32, beNat_replicate_zero 32⟩
  have hend := spells_foldl_divStep hnum hden hpos (le_refl 256) hstart
  rw [u256Div, if_neg hne]
  refine ⟨hend.length_quotient, hend.quotient.trans ?_⟩
  rw [divided, pow_zero, Nat.div_one, Nat.mul_one]

end

/-- **The work of a target.** -/
theorem calculateWork_eq {target : Nat} (hpos : 0 < target) (hlt : target < 2 ^ 256) :
    calculateWork target = beBytes 32 (2 ^ 256 / (target + 1)) := by
  have hbytes : beNat (beBytes 32 target) = target := by
    rw [beNat_beBytes, pow_32, mod_eq_of_lt hlt]
  have hne : beBytes 32 target ≠ List.replicate 32 0 := fun h => by
    rw [h, beNat_replicate_zero] at hbytes
    omega
  have hnext := beNat_addOneCarry (beBytes 32 target)
  have hnot := beNat_map_not (beBytes 32 target)
  rw [hbytes, length_beBytes, pow_32] at hnext hnot
  rw [calculateWork]
  simp only [if_neg hne, u256AddOne, bne_iff_ne, ne_eq]
  by_cases hcarry : (addOneCarry (beBytes 32 target)).2 = 0
  · rw [if_neg (not_not_intro hcarry)]
    rw [hcarry, zero_mul, add_zero] at hnext
    have hnotlen : ((beBytes 32 target).map fun b => ~~~b).length = 32 := by
      rw [length_map, length_beBytes]
    have hnextlen : (addOneCarry (beBytes 32 target)).1.length = 32 := by
      rw [length_addOneCarry, length_beBytes]
    obtain ⟨hlen, hquot⟩ := beNat_u256Div hnotlen hnextlen (by omega)
    have hwork := beNat_addOneCarry
      (u256Div ((beBytes 32 target).map fun b => ~~~b) (addOneCarry (beBytes 32 target)).1)
    have hsucc : 2 ^ 256 / (target + 1)
        = beNat ((beBytes 32 target).map fun b => ~~~b) / (target + 1) + 1 := by
      rw [← hnot, add_assoc, add_div_right _ (succ_pos target)]
    have hhalf : 2 ^ 256 / (target + 1) < 2 ^ 256 :=
      div_lt_self (by positivity) (by omega)
    rw [hlen, hquot, hnext] at hwork
    apply beNat_inj
    · rw [length_addOneCarry, hlen, length_beBytes]
    · rw [beNat_beBytes, pow_32]
      omega
  · rw [if_pos hcarry]
    -- Only the largest target has no successor in 32 bytes.
    have hmax : target + 1 = 2 ^ 256 := by
      have := one_le_iff_ne_zero.mpr hcarry
      omega
    rw [hmax]
    rfl

/-- **A smaller target is never less work**, in the order chains are compared by. -/
theorem not_calculateWork_lt {a b : Nat} (hpos : 0 < a) (hle : a ≤ b) (hlt : b < 2 ^ 256) :
    ¬ calculateWork a < calculateWork b := by
  have hwork : ∀ {t : Nat}, 0 < t → t < 2 ^ 256 →
      beNat (calculateWork t) = 2 ^ 256 / (t + 1) := fun {t} ht htlt => by
    rw [calculateWork_eq ht htlt, beNat_beBytes, pow_32,
      mod_eq_of_lt (div_lt_self (by positivity) (by omega))]
  have hb : 0 < b := lt_of_lt_of_le hpos hle
  have ha : a < 2 ^ 256 := lt_of_le_of_lt hle hlt
  rw [lt_iff_beNat_lt (by rw [calculateWork_eq hpos ha, calculateWork_eq hb hlt,
    length_beBytes, length_beBytes]), hwork hpos ha, hwork hb hlt, not_lt]
  exact div_le_div_left (succ_le_succ hle) (succ_pos a)

/-! ## Limbs -/

/-- The number limbs spell, lowest first. -/
def limbsNat (limbs : List Nat) : Nat := limbs.foldr (fun l n => l + 2 ^ 64 * n) 0

@[simp]
theorem limbsNat_cons (l : Nat) (limbs : List Nat) :
    limbsNat (l :: limbs) = l + 2 ^ 64 * limbsNat limbs := rfl

/-- What the multiplication drops is the part above the last limb. -/
theorem limbsNat_mulLimbs (numerator : Nat) (limbs : List Nat) (carry : Nat) :
    limbsNat (mulLimbs numerator limbs carry)
      = (limbsNat limbs * numerator + carry) % 2 ^ (64 * limbs.length) := by
  induction limbs generalizing carry with
  | nil =>
    rw [length_nil, pow_zero, mod_one]
    rfl
  | cons l limbs ih =>
    have hwhole : (l + 2 ^ 64 * limbsNat limbs) * numerator + carry
        = 2 ^ 64 * (limbsNat limbs * numerator) + (l * numerator + carry) := by ring
    rw [mulLimbs, limbsNat_cons, limbsNat_cons, ih, length_cons, mul_succ, pow_add,
      mul_comm (2 ^ (64 * limbs.length)), mod_mul, hwhole, mul_add_mod,
      mul_add_div (by positivity)]

theorem mulLimbs_lt (numerator : Nat) (limbs : List Nat) (carry : Nat) :
    ∀ l ∈ mulLimbs numerator limbs carry, l < 2 ^ 64 := by
  induction limbs generalizing carry with
  | nil => exact fun _ h => absurd h not_mem_nil
  | cons l limbs ih =>
    rw [mulLimbs, forall_mem_cons]
    exact ⟨mod_lt _ (by positivity), ih _⟩

/-- A quotient limb loses no bits: the remainder it starts from is below the divisor. -/
theorem limbsNat_divLimbs {denominator : Nat} (hpos : 0 < denominator) {limbs : List Nat}
    (hlimbs : ∀ l ∈ limbs, l < 2 ^ 64) :
    limbsNat (divLimbs denominator limbs).1 = limbsNat limbs / denominator
      ∧ (divLimbs denominator limbs).2 = limbsNat limbs % denominator := by
  induction limbs with
  | nil => exact ⟨(Nat.zero_div _).symm, (Nat.zero_mod _).symm⟩
  | cons l limbs ih =>
    rw [forall_mem_cons] at hlimbs
    obtain ⟨hquot, hrem⟩ := ih hlimbs.2
    have hsplit := div_add_mod (limbsNat limbs) denominator
    have hlt : limbsNat limbs % denominator < denominator := mod_lt _ hpos
    simp only [divLimbs, limbsNat_cons, hquot, hrem]
    generalize limbsNat limbs / denominator = q at *
    generalize limbsNat limbs % denominator = r at *
    have hfits : (r * 2 ^ 64 + l) / denominator < 2 ^ 64 := by
      rw [div_lt_iff_lt_mul hpos]
      nlinarith [hlimbs.1]
    have hwhole : l + 2 ^ 64 * limbsNat limbs = denominator * (2 ^ 64 * q) + (r * 2 ^ 64 + l) := by
      rw [← hsplit]
      ring
    rw [mod_eq_of_lt hfits, hwhole, mul_add_div hpos, mul_add_mod, add_comm]
    exact ⟨rfl, rfl⟩

theorem limbsNat_range (target n : Nat) :
    limbsNat ((range n).map fun i => target / 2 ^ (64 * i) % 2 ^ 64)
      = target % 2 ^ (64 * n) := by
  induction n generalizing target with
  | zero => rw [pow_zero, mod_one]; rfl
  | succ n ih =>
    have hshift : ∀ i, target / 2 ^ (64 * (i + 1)) = target / 2 ^ 64 / 2 ^ (64 * i) := fun i => by
      rw [Nat.div_div_eq_div_mul, ← pow_add, Nat.mul_succ, Nat.add_comm]
    rw [range_succ_eq_map, map_cons, map_map, limbsNat_cons]
    simp only [Function.comp_def, Nat.succ_eq_add_one, hshift]
    rw [ih, pow_zero, Nat.div_one, Nat.mul_succ, Nat.add_comm (64 * n), pow_add,
      Nat.mod_mul]

/-- **The ratio is exact when the product fits in four limbs.** -/
theorem multiplyTargetByRatio_eq {target numerator denominator : Nat} (hpos : 0 < denominator)
    (htarget : target < 2 ^ 256) (hfits : target * numerator < 2 ^ 256) :
    multiplyTargetByRatio target numerator denominator = target * numerator / denominator := by
  have hlimbs := limbsNat_range target 4
  have hprod := limbsNat_mulLimbs numerator
    ((List.range 4).map fun i => target / 2 ^ (64 * i) % 2 ^ 64) 0
  rw [hlimbs, length_map, length_range, mod_eq_of_lt htarget, add_zero,
    mod_eq_of_lt hfits] at hprod
  exact (limbsNat_divLimbs hpos (mulLimbs_lt _ _ _)).1.trans (by rw [hprod])

/-! ## Retargeting -/

/-- The time a period is taken to have lasted: what the headers say, between a quarter and
four times the intended time. -/
def clampedTimespan (first last timespan : Nat) : Nat :=
  (max ((timespan / 4 : Nat) : Int) (min ((timespan * 4 : Nat) : Int) ((last : Int) - first))).toNat

/-- The target of a new period, before it is rounded to the compact form. -/
def retarget (params : ConsensusParams) (target first last : Nat) : Nat :=
  min params.powLimit
    (target * clampedTimespan first last params.powTargetTimespan / params.powTargetTimespan)

/-- **Four times the limit fits.** Every network that retargets leaves room for the factor
`4 * T` above its easiest target. -/
theorem ratio_fits (network : Network)
    (hretargets : (forNetwork network).powNoRetargeting = false) :
    (forNetwork network).powLimit
      * ((forNetwork network).powTargetTimespan * 4) < 2 ^ 256 := by
  cases network with
  | regtest => cases hretargets
  | bitcoin => decide
  | testnet => decide
  | testnet4 => decide
  | signet => decide

/-- Retargeting under some parameters, for every old target up to the limit and every pair
of header times: the bits are kept, or the ratio loses no bit and its rounding is what the
next header has to carry. -/
structure RetargetsExactly (params : ConsensusParams) : Prop where
  kept : params.powNoRetargeting = true →
    ∀ first last, calculateNextWorkRequired first last params = last.bits
  ratio : params.powNoRetargeting = false →
    ∀ target ≤ params.powLimit, ∀ first last,
      min (multiplyTargetByRatio target (clampedTimespan first last params.powTargetTimespan)
        params.powTargetTimespan) params.powLimit = retarget params target first last
  rounded : params.powNoRetargeting = false →
    ∀ first last : Header, last.target ≤ params.powLimit →
      calculateNextWorkRequired first last params
        = toCompactLossy (retarget params last.target first.time.toNat last.time.toNat)

theorem min_multiplyTargetByRatio {params : ConsensusParams} (hpos : 0 < params.powTargetTimespan)
    (hfits : params.powLimit * (params.powTargetTimespan * 4) < 2 ^ 256) {target : Nat}
    (htarget : target ≤ params.powLimit) (first last : Nat) :
    min (multiplyTargetByRatio target (clampedTimespan first last params.powTargetTimespan)
      params.powTargetTimespan) params.powLimit = retarget params target first last := by
  have hproduct : target * clampedTimespan first last params.powTargetTimespan < 2 ^ 256 := by
    refine Nat.lt_of_le_of_lt (Nat.mul_le_mul htarget ?_) hfits
    unfold clampedTimespan
    omega
  have hlt : target < 2 ^ 256 := by
    refine Nat.lt_of_le_of_lt (htarget.trans ?_) hfits
    exact Nat.le_mul_of_pos_right _ (by omega)
  rw [multiplyTargetByRatio_eq hpos hlt hproduct, min_comm, retarget]

theorem retargetsExactly_forNetwork (network : Network) :
    RetargetsExactly (forNetwork network) := by
  have hpos : 0 < (forNetwork network).powTargetTimespan := by
    cases network <;> decide
  refine ⟨fun hkept first last => ?_, fun hretargets target htarget first last => ?_,
    fun hretargets first last htarget => ?_⟩
  · rw [calculateNextWorkRequired, if_pos hkept]
  · exact min_multiplyTargetByRatio hpos (ratio_fits network hretargets) htarget first last
  · rw [← min_multiplyTargetByRatio hpos (ratio_fits network hretargets) htarget,
      calculateNextWorkRequired, hretargets, if_neg Bool.false_ne_true]
    rfl

/-- **Work and retargeting are exact.** The work of a non-zero target is
`2 ^ 256 / (target + 1)` and never grows with the target; and every network keeps its bits or
moves by the clamped ratio, below its limit and with no bit of the product lost. -/
theorem difficulty_exact :
    (∀ target, 0 < target → target < 2 ^ 256 →
      calculateWork target = beBytes 32 (2 ^ 256 / (target + 1)))
    ∧ (∀ a b, 0 < a → a ≤ b → b < 2 ^ 256 → ¬ calculateWork a < calculateWork b)
    ∧ ∀ network, RetargetsExactly (ConsensusParams.forNetwork network) :=
  ⟨fun _ hpos hlt => calculateWork_eq hpos hlt,
    fun _ _ hpos hle hlt => not_calculateWork_lt hpos hle hlt, retargetsExactly_forNetwork⟩

/-- The tightest case: signet at its limit, after a period that took four times as long as
intended. -/
theorem retarget_signet_limit :
    min (multiplyTargetByRatio powLimitSignet (clampedTimespan 0 4838400 1209600) 1209600)
        powLimitSignet = powLimitSignet
      ∧ calculateWork powLimitSignet = beBytes 32 (2 ^ 256 / (powLimitSignet + 1)) := by
  have hratio := (difficulty_exact.2.2 .signet).ratio rfl powLimitSignet (le_refl _) 0 4838400
  exact ⟨hratio.trans (by decide), difficulty_exact.1 _ (by decide) (by decide)⟩
