import BitcoinPR.Primitives
import Mathlib.Data.Nat.Size
import Mathlib.Tactic.Linarith
import Mathlib.Tactic.NormNum
import Mathlib.Tactic.Ring

/-!
# Targets and chain work

A target is decoded from the compact form a header carries, and the work of
a block is computed from its target by 256-bit long division on big-endian
bytes. Work is accumulated along a chain byte by byte with a carry.
-/

open Nat

/-- The number a big-endian byte string spells. -/
def beNat : Bytes → Nat
  | [] => 0
  | b :: bs => b.toNat * 256 ^ bs.length + beNat bs

/-- The `w` low bytes of `n`, most significant first. -/
def beBytes : Nat → Nat → Bytes
  | 0, _ => []
  | w + 1, n => UInt8.ofNat (n / 256 ^ w % 256) :: beBytes w n

@[simp]
theorem length_beBytes (w n : Nat) : (beBytes w n).length = w := by
  induction w with
  | zero => rfl
  | succ w ih => rw [beBytes, List.length_cons, ih]

theorem beNat_beBytes (w n : Nat) : beNat (beBytes w n) = n % 256 ^ w := by
  induction w with
  | zero => rw [pow_zero, mod_one]; rfl
  | succ w ih =>
    have hbyte : (UInt8.ofNat (n / 256 ^ w % 256)).toNat = n / 256 ^ w % 256 := by
      rw [UInt8.toNat_ofNat', mod_mod]
    rw [beBytes, beNat, hbyte, length_beBytes, ih, pow_succ, mod_mul, mul_comm,
      add_comm]

theorem beNat_append (a b : Bytes) : beNat (a ++ b) = beNat a * 256 ^ b.length + beNat b := by
  induction a with
  | nil => rw [List.nil_append, beNat, zero_mul, zero_add]
  | cons x a ih =>
    rw [List.cons_append, beNat, beNat, ih, List.length_append]
    ring

/-! ## Targets -/

/-- The target a compact form decodes to. A negative mantissa gives zero, and
the shift drops what leaves 256 bits. -/
def targetFromCompact (bits : UInt32) : Nat :=
  let exponent := bits.toNat / 2 ^ 24
  let mantissa := bits.toNat % 2 ^ 24
  let (mant, expt) :=
    if exponent ≤ 3 then (mantissa >>> (8 * (3 - exponent)), 0)
    else (mantissa, 8 * (exponent - 3))
  if 0x7FFFFF < mant then 0 else (mant <<< (expt % 256)) % 2 ^ 256

/-- The compact form of a target, rounding down. -/
def toCompactLossy (target : Nat) : UInt32 :=
  let size := (target.size + 7) / 8
  let compact :=
    if size ≤ 3 then target <<< (8 * (3 - size)) % 2 ^ 32
    else target >>> (8 * (size - 3)) % 2 ^ 32
  let (compact, size) :=
    if compact.testBit 23 then (compact >>> 8, size + 1) else (compact, size)
  UInt32.ofNat (compact ||| size <<< 24)

/-- The target a header claims. -/
def Header.target (h : Header) : Nat := targetFromCompact h.bits

/-- Proof of work: the hash, as a number, does not exceed the target. -/
def Header.validatePow [Hashing] (h : Header) : Bool :=
  decide (h.blockHash.toNat ≤ h.target)

/-! ## 256-bit arithmetic on big-endian bytes

The loops run from the last byte to the first, so each function returns the
bytes already written together with the carry out of them. -/

/-- Add a carry to a byte string; the carry out is returned beside the sum. -/
def addOneCarry : Bytes → Bytes × Nat
  | [] => ([], 1)
  | b :: bs =>
    let (rest, carry) := addOneCarry bs
    let sum := b.toNat + carry
    (UInt8.ofNat sum :: rest, sum / 256)

/-- Add one; the flag reports overflow. -/
def u256AddOne (a : Bytes) : Bytes × Bool := ((addOneCarry a).1, (addOneCarry a).2 != 0)

/-- Subtract with borrow. -/
def subBorrow : Bytes → Bytes → Bytes × Nat
  | a :: as, b :: bs =>
    let (rest, borrow) := subBorrow as bs
    if a.toNat < b.toNat + borrow then
      (UInt8.ofNat (a.toNat + 256 - b.toNat - borrow) :: rest, 1)
    else (UInt8.ofNat (a.toNat - b.toNat - borrow) :: rest, 0)
  | _, _ => ([], 0)

def u256Sub (a b : Bytes) : Bytes := (subBorrow a b).1

/-- Shift left by one bit, bringing `bit` in at the right. -/
def shiftInBit : Bytes → Nat → Bytes × Nat
  | [], bit => ([], bit)
  | b :: bs, bit =>
    let (rest, carry) := shiftInBit bs bit
    (UInt8.ofNat (b.toNat * 2 + carry) :: rest, b.toNat / 128)

/-- The bit of weight `2 ^ bit` of a 32-byte number. -/
def bitAt (a : Bytes) (bit : Nat) : Nat := (a.getD (31 - bit / 8) 0).toNat >>> (bit % 8) % 2

/-- Set the bit of weight `2 ^ bit`. -/
def setBit (a : Bytes) (bit : Nat) : Bytes :=
  a.modify (31 - bit / 8) fun b => b ||| UInt8.ofNat (1 <<< (bit % 8))

/-- One step of long division, at bit `bit` of the numerator. -/
def divStep (num den : Bytes) (qr : Bytes × Bytes) (bit : Nat) : Bytes × Bytes :=
  let rem := (shiftInBit qr.2 (bitAt num bit)).1
  if rem < den then (qr.1, rem) else (setBit qr.1 bit, u256Sub rem den)

/-- Long division, bit by bit from the top. -/
def u256Div (num den : Bytes) : Bytes :=
  if den = List.replicate 32 0 then List.replicate 32 0xff
  else ((List.range 256).reverse.foldl (divStep num den)
    (List.replicate 32 0, List.replicate 32 0)).1

/-- The work of a target. -/
def calculateWork (target : Nat) : Bytes :=
  let t := beBytes 32 target
  if t = List.replicate 32 0 then List.replicate 32 0xff
  else
    let (tPlusOne, overflow) := u256AddOne t
    if overflow then List.replicate 31 0 ++ [1]
    else (u256AddOne (u256Div (t.map fun b => ~~~b) tPlusOne)).1

/-- Add with carry. -/
def addCarry : Bytes → Bytes → Bytes × Nat
  | a :: as, b :: bs =>
    let (rest, carry) := addCarry as bs
    let sum := a.toNat + b.toNat + carry
    (UInt8.ofNat sum :: rest, sum / 256)
  | _, _ => ([], 0)

/-- Cumulative work; a carry out of the first byte is dropped. -/
def addChainWork (a b : Bytes) : Bytes := (addCarry a b).1

variable {a b : Bytes}

/-- The work of a chain without blocks. -/
def zeroWork : Bytes := List.replicate 32 0

/-- Induction on two byte strings of one length. -/
@[elab_as_elim]
theorem Bytes.induction₂ {motive : Bytes → Bytes → Prop} (h : a.length = b.length)
    (nil : motive [] []) (cons : ∀ x y as bs, as.length = bs.length → motive as bs →
      motive (x :: as) (y :: bs)) : motive a b := by
  induction a generalizing b with
  | nil => exact List.length_eq_zero_iff.mp h.symm ▸ nil
  | cons x as ih =>
    cases b with
    | nil => cases h
    | cons y bs => exact cons x y as bs (succ.inj h) (ih (succ.inj h))

theorem beNat_lt (a : Bytes) : beNat a < 256 ^ a.length := by
  induction a with
  | nil => exact one_pos
  | cons b bs ih =>
    have hb : b.toNat < 256 := b.toNat_lt
    rw [beNat, List.length_cons, pow_succ]
    nlinarith [mul_le_mul_right (256 ^ bs.length) (le_of_lt_succ hb)]

/-- **Byte strings of one length are ordered as the numbers they spell.** -/
theorem lt_iff_beNat_lt (h : a.length = b.length) : a < b ↔ beNat a < beNat b := by
  refine Bytes.induction₂ h (iff_of_false (List.lt_irrefl _) (lt_irrefl _))
    fun a b as bs hlen ih => ?_
  have has := beNat_lt as
  have hbs := beNat_lt bs
  rw [List.cons_lt_cons_iff, ih, beNat, beNat, hlen, UInt8.lt_iff_toNat_lt, ← UInt8.toNat_inj]
  rw [hlen] at has
  generalize 256 ^ bs.length = w at has hbs ⊢
  rcases lt_trichotomy a.toNat b.toNat with hlt | heq | hlt
  · have hmul : (a.toNat + 1) * w ≤ b.toNat * w := mul_le_mul_right w hlt
    rw [add_mul] at hmul
    exact iff_of_true (Or.inl hlt) (by omega)
  · rw [heq]
    simp
  · have hmul : (b.toNat + 1) * w ≤ a.toNat * w := mul_le_mul_right w hlt
    rw [add_mul] at hmul
    exact iff_of_false (by omega) (by omega)
