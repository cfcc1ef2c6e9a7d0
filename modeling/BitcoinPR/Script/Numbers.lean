import BitcoinPR.Script.Machine

/-!
# Numbers on the stack

A number is written as its magnitude, least significant byte first, with its
sign in the top bit of the last byte; where the magnitude takes that bit, a
further byte is there for the sign alone. So a byte string is read with its last
byte apart (`decodeNumBounded_concat`), and a number is written with a last byte
that is needed: without it the magnitude would reach the sign
(`exists_encodeNum`). The round trip, the shortest form and the truth value of a
stack element all follow from these two.
-/

open List

namespace Script

variable {bs : Bytes} {b : UInt8}

/-- What bytes spell when the sign, the top bit of the last one, is left out. -/
def unsigned (bs : Bytes) (b : UInt8) : Nat := ofLeBytes (bs ++ [b &&& 0x7f])

/-- The two parts of the last byte. -/
theorem sign_and_rest (b : UInt8) : (b &&& 0x80 != 0) = decide (128 ≤ b.toNat)
    ∧ (b &&& 0x7f).toNat = b.toNat % 128 ∧ (b ||| 0x80).toNat = b.toNat % 128 + 128 := by
  have hall : ∀ n < 256, (UInt8.ofNat n &&& 0x80 != 0) = decide (128 ≤ n)
      ∧ (UInt8.ofNat n &&& 0x7f).toNat = n % 128
      ∧ (UInt8.ofNat n ||| 0x80).toNat = n % 128 + 128 := by
    decide +kernel
  simpa using hall b.toNat b.toNat_lt

theorem ofLeBytes_concat (bs : Bytes) (b : UInt8) :
    ofLeBytes (bs ++ [b]) = ofLeBytes bs + 256 ^ bs.length * b.toNat := by
  simp [ofLeBytes_append, ofLeBytes]

theorem unsigned_eq (bs : Bytes) (b : UInt8) :
    unsigned bs b = ofLeBytes bs + 256 ^ bs.length * (b.toNat % 128) := by
  rw [unsigned, ofLeBytes_concat, (sign_and_rest b).2.1]

theorem two_mul_unsigned_lt (bs : Bytes) (b : UInt8) :
    2 * unsigned bs b < 256 ^ (bs.length + 1) := by
  have hlow := ofLeBytes_lt bs
  have hhigh : 256 ^ bs.length * (b.toNat % 128) ≤ 256 ^ bs.length * 127 :=
    Nat.mul_le_mul_left _ (by omega)
  rw [pow_succ, unsigned_eq]
  omega

/-- **Reading a number**: the last byte has the sign. -/
theorem decodeNumBounded_concat {maxSize : Nat} (h : bs.length < maxSize) :
    decodeNumBounded (bs ++ [b]) maxSize
      = .ok (if 128 ≤ b.toNat then -(unsigned bs b : Int) else unsigned bs b) := by
  have hbyte : b.toNat < 256 := b.toNat_lt
  unfold decodeNumBounded
  simp only [getLast?_concat, length_append, length_singleton, Nat.add_sub_cancel,
    if_neg (Nat.not_lt.mpr h), (sign_and_rest b).1, decide_eq_true_eq, ofLeBytes_concat,
    unsigned_eq]
  split
  · -- the sign is taken off what the bytes spell
    have hmul : 256 ^ bs.length * b.toNat
        = 256 ^ bs.length * (b.toNat % 128) + 0x80 * 256 ^ bs.length := by
      rw [Nat.mul_comm 0x80, ← Nat.mul_add, show b.toNat % 128 + 0x80 = b.toNat by omega]
    rw [hmul, ← Nat.add_assoc, Nat.add_sub_cancel]
  · rw [Nat.mod_eq_of_lt (show b.toNat < 128 by omega)]

/-- A stack element is true if its magnitude is not zero. -/
theorem castToBool_concat (bs : Bytes) (b : UInt8) :
    castToBool (bs ++ [b]) = true ↔ unsigned bs b ≠ 0 := by
  induction bs with
  | nil =>
    have hall : ∀ n < 256, (UInt8.ofNat n != 0 && UInt8.ofNat n != 0x80) = true ↔ n % 128 ≠ 0 := by
      decide +kernel
    simpa [unsigned_eq, ofLeBytes, castToBool] using hall b.toNat b.toNat_lt
  | cons x bs ih =>
    have hcons : castToBool (x :: (bs ++ [b])) = (x != 0 || castToBool (bs ++ [b])) := by
      cases bs <;> rfl
    have hx : x ≠ 0 ↔ x.toNat ≠ 0 := UInt8.toNat_inj.symm.not
    have hvalue : unsigned (x :: bs) b = x.toNat + 256 * unsigned bs b := rfl
    rw [cons_append, hcons, Bool.or_eq_true, ih, bne_iff_ne, hx, hvalue]
    omega

/-- The magnitude of a number is written without leading zeros. -/
theorem magnitude_spec {fuel n : Nat} (h : n < 256 ^ fuel) :
    ofLeBytes (magnitude fuel n) = n
      ∧ ∀ last, (magnitude fuel n).getLast? = some last → 0 < last.toNat := by
  induction fuel generalizing n with
  | zero => exact ⟨(Nat.lt_one_iff.mp h).symm, fun _ hlast => by cases hlast⟩
  | succ fuel ih =>
    obtain ⟨hspelled, hlast⟩ := @ih (n / 256) (by rw [pow_succ] at h; omega)
    have hbyte : (UInt8.ofNat (n % 256)).toNat = n % 256 := Nat.mod_mod n 256
    rw [magnitude]
    split
    · exact ⟨‹n = 0›.symm, fun _ hlast => by cases hlast⟩
    · refine ⟨by rw [ofLeBytes, hspelled, hbyte]; omega, fun last hl => ?_⟩
      cases hrest : magnitude fuel (n / 256) with
      | nil =>
        -- the number is a single byte
        rw [hrest] at hspelled hl
        obtain rfl : UInt8.ofNat (n % 256) = last := Option.some.inj hl
        rw [ofLeBytes] at hspelled
        rw [hbyte]
        omega
      | cons x rest =>
        rw [hrest, getLast?_cons_cons, ← hrest] at hl
        exact hlast last hl

/-- **Writing a number**: its last byte has the sign and is needed. -/
theorem exists_encodeNum {n : Int} (hn : n ≠ 0) (hlt : n.natAbs < 2 ^ 64) :
    ∃ bs b, encodeNum n = bs ++ [b] ∧ unsigned bs b = n.natAbs ∧ (128 ≤ b.toNat ↔ n < 0)
      ∧ 256 ^ bs.length ≤ 2 * n.natAbs := by
  obtain ⟨hspelled, hpos⟩ := magnitude_spec (show n.natAbs < 256 ^ 8 from hlt)
  unfold encodeNum
  rcases eq_nil_or_concat' (magnitude 8 n.natAbs) with hnil | ⟨bs, last, hconcat⟩
  · rw [hnil] at hspelled
    exact absurd hspelled.symm (Int.natAbs_ne_zero.mpr hn)
  · have hlast := hpos last (by rw [hconcat, getLast?_concat])
    have hbyte : last.toNat < 256 := last.toNat_lt
    rw [hconcat] at hspelled
    have hsum := hspelled.symm.trans (ofLeBytes_concat bs last)
    have hle : 256 ^ bs.length * 1 ≤ 256 ^ bs.length * last.toNat := Nat.mul_le_mul_left _ hlast
    simp only [hconcat, getLast?_concat, (sign_and_rest last).1, decide_eq_true_eq,
      dropLast_concat]
    split
    · -- a byte for the sign alone
      refine ⟨bs ++ [last], _, rfl, ?_, by split <;> simp [*], ?_⟩
      · rw [unsigned_eq, hspelled]
        split <;> rfl
      · have hle : 256 ^ bs.length * 128 ≤ 256 ^ bs.length * last.toNat :=
          Nat.mul_le_mul_left _ ‹_›
        rw [length_append, length_singleton, pow_succ]
        omega
    · have hmod : last.toNat % 128 = last.toNat := Nat.mod_eq_of_lt (by omega)
      have hor := (sign_and_rest last).2.2
      split
      · refine ⟨bs, _, rfl, ?_, by omega, by omega⟩
        rw [unsigned_eq, hor, Nat.add_mod_right, Nat.mod_mod, hmod]
        exact hsum.symm
      · exact ⟨bs, last, rfl, by rw [unsigned_eq, hmod, hsum], by omega, by omega⟩

/-- The bytes that stand for a number other than zero. -/
theorem decodeNumBounded_eq_ok {n : Int} (hn : n ≠ 0) : decodeNumBounded (bs ++ [b]) 5 = .ok n
    ↔ bs.length < 5 ∧ unsigned bs b = n.natAbs ∧ (128 ≤ b.toNat ↔ n < 0) := by
  by_cases hlen : bs.length < 5
  · rw [decodeNumBounded_concat hlen, Except.ok.injEq, and_iff_right hlen]
    split <;> omega
  · unfold decodeNumBounded
    simp only [getLast?_concat, length_append, length_singleton]
    rw [if_pos (by omega)]
    exact iff_of_false (by simp [fail]) fun h => hlen h.1

/-- **A number is read back from what it is written as**, and any other bytes
that stand for it are longer. -/
theorem encodeNum_shortest {n : Int} (hn : n.natAbs < 2 ^ 39) :
    decodeNumBounded (encodeNum n) 5 = .ok n ∧ ∀ other, decodeNumBounded other 5 = .ok n →
      other = encodeNum n ∨ (encodeNum n).length < other.length := by
  rcases eq_or_ne n 0 with rfl | hzero
  · exact ⟨rfl, fun other _ => (eq_or_ne other []).imp_right length_pos_of_ne_nil⟩
  obtain ⟨bs, b, heq, hvalue, hsign, hle⟩ := exists_encodeNum hzero (by omega)
  have hlen : bs.length < 5 := (Nat.pow_lt_pow_iff_right (a := 256) (by decide)).mp (by omega)
  rw [heq]
  refine ⟨(decodeNumBounded_eq_ok hzero).mpr ⟨hlen, hvalue, hsign⟩, fun other hother => ?_⟩
  rcases eq_nil_or_concat' other with rfl | ⟨bs', b', rfl⟩
  · exact absurd (Except.ok.inj hother).symm hzero
  obtain ⟨-, hvalue', hsign'⟩ := (decodeNumBounded_eq_ok hzero).mp hother
  have hshort : bs.length < bs'.length + 1 := by
    refine (Nat.pow_lt_pow_iff_right (a := 256) (by decide)).mp (lt_of_le_of_lt hle ?_)
    rw [← hvalue']
    exact two_mul_unsigned_lt bs' b'
  rcases Nat.lt_or_eq_of_le (Nat.le_of_lt_succ hshort) with hlt | hsame
  · right
    simpa using hlt
  · -- of one length, they are the same byte by byte
    have hbytes : bs' ++ [b' &&& 0x7f] = bs ++ [b &&& 0x7f] :=
      ofLeBytes_inj (by simp [hsame]) (hvalue'.trans hvalue.symm)
    obtain ⟨rfl, hrest⟩ := append_inj' hbytes rfl
    have hrest := congrArg UInt8.toNat (List.cons.inj hrest).1
    rw [(sign_and_rest b').2.1, (sign_and_rest b).2.1] at hrest
    have hb : b.toNat < 256 := b.toNat_lt
    have hb' : b'.toNat < 256 := b'.toNat_lt
    rw [UInt8.toNat_inj.mp (show b'.toNat = b.toNat by omega)]
    exact Or.inl rfl

/-- **Script numbers**: a number below `2 ^ 39` is read back from what it is
written as, and any other bytes that stand for it are longer; and up to five
bytes are read as a number that is not zero exactly if they are true, and that
has no more bits than the bytes but for the sign. No part of them spells more
than 40 bits. -/
theorem scriptNumber_spec {n : Int} (hn : n.natAbs < 2 ^ 39) {data : Bytes}
    (hdata : data.length ≤ 5) :
    decodeNumBounded (encodeNum n) 5 = .ok n
      ∧ (∀ other, decodeNumBounded other 5 = .ok n →
        other = encodeNum n ∨ (encodeNum n).length < other.length)
      ∧ (∃ value, decodeNumBounded data 5 = .ok value ∧ (castToBool data = true ↔ value ≠ 0)
        ∧ 2 * value.natAbs < 2 ^ (8 * data.length))
      ∧ ∀ i, ofLeBytes (data.take i) < 2 ^ 40 := by
  obtain ⟨hround, hshortest⟩ := encodeNum_shortest hn
  refine ⟨hround, hshortest, ?_, fun i => ?_⟩
  · rcases eq_nil_or_concat' data with rfl | ⟨bs, b, rfl⟩
    · exact ⟨0, rfl, by decide, by decide⟩
    · rw [length_append, length_singleton] at hdata ⊢
      have hlt := two_mul_unsigned_lt bs b
      refine ⟨_, decodeNumBounded_concat hdata, ?_, ?_⟩
      · rw [castToBool_concat]
        split <;> omega
      · rw [pow_mul, show 2 ^ 8 = 256 from rfl]
        split <;> omega
  · calc ofLeBytes (data.take i) < 256 ^ (data.take i).length := ofLeBytes_lt _
      _ ≤ 256 ^ 5 := Nat.pow_le_pow_right (by decide) ((length_take_le' _ _).trans hdata)

/-- Minus 128 takes two bytes, and so may zero. -/
theorem scriptNumber_spec_neg : (-128 : Int).natAbs < 2 ^ 39 ∧ [0x00, 0x80].length ≤ 5
    ∧ decodeNumBounded (encodeNum (-128)) 5 = .ok (-128) :=
  ⟨by decide, by decide,
    (scriptNumber_spec (by decide) (show [0x00, 0x80].length ≤ 5 by decide)).1⟩

end Script
