import Mathlib.Data.Nat.Basic
import Mathlib.Tactic.Ring

/-!
# Fixed-width little-endian integers

`leBytes w n` is the `w`-byte little-endian form of `n`, truncated to
`w` bytes as a machine integer of that width is; `ofLeBytes` reads bytes
back. The round trip `ofLeBytes_leBytes` needs the number to fit.
-/

/-- The `w` low bytes of `n`, least significant first. -/
def leBytes : Nat → Nat → List UInt8
  | 0, _ => []
  | w + 1, n => UInt8.ofNat (n % 256) :: leBytes w (n / 256)

/-- The number a little-endian byte string spells. -/
def ofLeBytes : List UInt8 → Nat
  | [] => 0
  | b :: bs => b.toNat + 256 * ofLeBytes bs

@[simp] theorem length_leBytes (w n : Nat) : (leBytes w n).length = w := by
  induction w generalizing n with
  | zero => rfl
  | succ w ih => rw [leBytes, List.length_cons, ih]

/-- **Round trip**: reading back the `w`-byte form gives the number
modulo `256 ^ w`. -/
theorem ofLeBytes_leBytes_mod (w n : Nat) :
    ofLeBytes (leBytes w n) = n % 256 ^ w := by
  induction w generalizing n with
  | zero => rw [leBytes, ofLeBytes, Nat.pow_zero, Nat.mod_one]
  | succ w ih =>
    have hb : (UInt8.ofNat (n % 256)).toNat = n % 256 := by
      exact Nat.mod_mod n 256
    rw [leBytes, ofLeBytes, ih, hb, Nat.pow_succ', Nat.mod_mul]

/-- A number that fits in `w` bytes survives the round trip. -/
theorem ofLeBytes_leBytes {w n : Nat} (h : n < 256 ^ w) :
    ofLeBytes (leBytes w n) = n := by
  rw [ofLeBytes_leBytes_mod, Nat.mod_eq_of_lt h]

/-- A byte string spells a number below `256` to its length. -/
theorem ofLeBytes_lt (bs : List UInt8) : ofLeBytes bs < 256 ^ bs.length := by
  induction bs with
  | nil => exact Nat.one_pos
  | cons b bs ih =>
    have hb : b.toNat < 256 := b.toNat_lt
    rw [ofLeBytes, List.length_cons]
    omega

theorem ofLeBytes_append (a b : List UInt8) :
    ofLeBytes (a ++ b) = ofLeBytes a + 256 ^ a.length * ofLeBytes b := by
  induction a with
  | nil => simp [ofLeBytes]
  | cons x a ih =>
    rw [List.cons_append, ofLeBytes, ofLeBytes, ih, List.length_cons]
    ring

/-- Byte strings of one length that spell the same number are equal. -/
theorem ofLeBytes_inj {a b : List UInt8} (hlen : a.length = b.length)
    (h : ofLeBytes a = ofLeBytes b) : a = b := by
  induction a generalizing b with
  | nil => exact (List.length_eq_zero_iff.mp hlen.symm).symm
  | cons x a ih =>
    cases b with
    | nil => cases hlen
    | cons y b =>
      have hx : x.toNat < 256 := x.toNat_lt
      have hy : y.toNat < 256 := y.toNat_lt
      rw [ofLeBytes, ofLeBytes] at h
      rw [ih (Nat.succ.inj hlen) (by omega), UInt8.toNat_inj.mp (show x.toNat = y.toNat by omega)]
