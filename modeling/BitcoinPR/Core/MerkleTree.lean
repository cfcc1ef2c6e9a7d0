import BitcoinPR.Core.Reorg
import BitcoinPR.Lib.HashTree

/-!
# The merkle root and its mutations

`rootDetectingMutation` never builds a level of the tree. It counts leaves in
binary: where a bit of the count is set, `inner` holds the node over the leaves that
bit stands for. Adding a leaf is adding one to the count, and every carry is a pair
that is hashed (`collapse`). At the end the count is rounded up to a power of two,
bit by bit, and the carries are the pairs along the right edge of the tree.

Every pair of real siblings is compared exactly once on the way, when its carry
happens, so that the flag says whether the tree has twins, at any level
(`rootDetectingMutation_eq`). That holds for lists of up to `2 ^ 31` leaves. Rounding
up a longer list takes the count to `2 ^ 32`, which is zero in 32 bits.
-/

open List Hashing HashTree Nat

open HashTree (node hashed)

section

variable [Hashing]

/-! ## The level-by-level root -/

theorem pairLevel_eq (nodes : List Hash) :
    pairLevel nodes = pairUp hashPair nodes := by
  induction nodes using pairLevel.induct with
  | case1 => rfl
  | case2 a => rfl
  | case3 a b rest ih => rw [pairLevel, pairUp, ih]

/-- One level up takes one off the height. -/
theorem height_pairUp {nodes : List Hash} (h : 1 < nodes.length) :
    height nodes = height (pairUp hashPair nodes) + 1 := by
  unfold height
  rw [length_pairUp, clog_of_two_le one_lt_two h]
  rfl

theorem foldLevels_eq {fuel : Nat} {nodes : List Hash} (h : nodes.length ≤ fuel + 1) :
    foldLevels fuel nodes
      = level hashPair nodes (height nodes) := by
  induction fuel generalizing nodes with
  | zero =>
    have hheight : height nodes = 0 := clog_of_right_le_one h 2
    rw [hheight]
    rfl
  | succ fuel ih =>
    rw [foldLevels]
    split
    · rename_i hle
      have hheight : height nodes = 0 := clog_of_right_le_one hle 2
      rw [hheight]
      rfl
    · rename_i hlt
      have hlt' : 1 < nodes.length := Nat.lt_of_not_le hlt
      rw [pairLevel_eq, ih (by rw [length_pairUp]; omega), height_pairUp hlt']
      rfl

variable {leaves : List Hash}

/-- **The merkle root is the node at the top.** -/
theorem level_height_eq_merkleRoot (hne : leaves ≠ []) :
    level hashPair leaves (height leaves) = [merkleRoot leaves] := by
  have hlen := length_level_height hashPair hne
  unfold merkleRoot
  rw [foldLevels_eq (le_succ _)]
  match hlevel : level hashPair leaves (height leaves) with
  | [] => simp [hlevel] at hlen
  | [r] => rfl
  | a :: b :: rest => simp [hlevel] at hlen

/-! ## Carries -/

/-- A count that has wrapped to zero has no bit to stop at. -/
theorem collapse_zero (inner : Nat → Hash) (fuel level : Nat) (h : Hash) (mutated : Bool) :
    collapse inner 0 fuel level h mutated = .error innerPanic := by
  induction fuel generalizing level h mutated with
  | zero => rfl
  | succ fuel ih =>
    rw [collapse, zero_testBit]
    exact ih _ _ _

section Tree

variable (n : Nat) (f : Nat → Hash)

/-- The tree over the first `n` values of `f`. -/
abbrev treeNode (ℓ i : Nat) : Hash := node Hashing.hashPair n f ℓ i

/-- A pair of siblings at an index of a level, and equal. -/
def TwinsAt (ℓ i : Nat) : Prop := treeNode n f ℓ (2 * i) = treeNode n f ℓ (2 * i + 1)

variable {n f}

omit [Hashing] in
theorem testBit_mul_two_pow {count q level : Nat} (h : count = q * 2 ^ level) :
    count.testBit level = decide (q % 2 = 1) := by
  rw [Nat.testBit_eq_decide_div_mod_eq, h, Nat.mul_div_cancel _ (Nat.two_pow_pos level)]

omit [Hashing] in
/-- An odd multiple of a power of two is no even multiple of a higher one. -/
theorem odd_mul_ne_even_mul {k t j ℓ : Nat} (hle : t ≤ ℓ) :
    (2 * k + 1) * 2 ^ t ≠ (2 * j + 2) * 2 ^ ℓ := by
  obtain ⟨e, rfl⟩ := Nat.exists_eq_add_of_le hle
  intro h
  rw [pow_add, Nat.mul_comm (2 ^ t), ← Nat.mul_assoc] at h
  have hodd := Nat.eq_of_mul_eq_mul_right (Nat.two_pow_pos t) h
  have heven : (2 * j + 2) * 2 ^ e = 2 * ((j + 1) * 2 ^ e) := by ring
  omega

variable {inner : Nat → Hash}

/-- **What `collapse` does**: from the last node of a level, over a count that is a
multiple of `2 ^ level`, to the level of the lowest set bit of the count. It compares
every pair that the count ends with on the way. -/
theorem collapse_run {count fuel level q : Nat} (mutated : Bool)
    (hq : count = (q + 1) * 2 ^ level) (hfuel : q + 1 < 2 ^ fuel)
    (hinner : ∀ ℓ k, level ≤ ℓ → count = (2 * k + 2) * 2 ^ ℓ →
      inner ℓ = treeNode n f ℓ (2 * k) ∧ (2 * k + 1) * 2 ^ ℓ < n) :
    ∃ t k m, level ≤ t ∧ count = (2 * k + 1) * 2 ^ t
      ∧ collapse inner count fuel level (treeNode n f level q) mutated
        = .ok (t, treeNode n f t (2 * k), m)
      ∧ (m = true ↔ mutated = true
        ∨ ∃ ℓ k, level ≤ ℓ ∧ count = (2 * k + 2) * 2 ^ ℓ ∧ TwinsAt n f ℓ k) := by
  induction fuel generalizing level q mutated with
  | zero => omega
  | succ fuel ih =>
    rcases even_or_odd' q with ⟨k, rfl | rfl⟩
    · -- the bit is set: the carry ends here
      refine ⟨level, k, mutated, le_refl level, hq, ?_, ?_⟩
      · rw [collapse, testBit_mul_two_pow hq, if_pos (by simp)]
      · refine ⟨Or.inl, fun h => h.resolve_right ?_⟩
        rintro ⟨ℓ, j, hle, hj, -⟩
        exact odd_mul_ne_even_mul hle (hq.symm.trans hj)
    · obtain ⟨hin, hlt⟩ := hinner level k (le_refl level) hq
      have hup : count = (k + 1) * 2 ^ (level + 1) := by rw [hq]; ring
      obtain ⟨t, k', m, hle, hcount, hrun, hm⟩ := ih
        (mutated || inner level == treeNode n f level (2 * k + 1)) hup (by omega)
        fun ℓ j hle hj => hinner ℓ j (by omega) hj
      refine ⟨t, k', m, by omega, hcount, ?_, ?_⟩
      · rw [collapse, testBit_mul_two_pow hq, if_neg (by simp; omega), ← hrun, hin]
        simp only [treeNode, node, if_pos hlt]
      · rw [hm, Bool.or_eq_true, beq_iff_eq, hin, or_assoc]
        refine or_congr_right ⟨?_, ?_⟩
        · rintro (htwins | ⟨ℓ, j, hle, hj, htwins⟩)
          · exact ⟨level, k, le_refl level, hq, htwins⟩
          · exact ⟨ℓ, j, by omega, hj, htwins⟩
        · rintro ⟨ℓ, j, hle, hj, htwins⟩
          rcases Nat.eq_or_lt_of_le hle with rfl | hlt'
          · have hjk := Nat.eq_of_mul_eq_mul_right (Nat.two_pow_pos level) (hq.symm.trans hj)
            obtain rfl : j = k := by omega
            exact Or.inl htwins
          · exact Or.inr ⟨ℓ, j, hlt', hj, htwins⟩

/-! ## Adding the leaves -/

/-- **The invariant while leaves are added**: where a bit of the count is set, `inner`
holds the last node of that level, and the flag is up if a pair of complete nodes is
equal. -/
structure Counted (n : Nat) (f : Nat → Hash) (count : Nat) (inner : Nat → Hash)
    (mutated : Bool) : Prop where
  inner_eq : ∀ ℓ k, count / 2 ^ ℓ = 2 * k + 1 → inner ℓ = treeNode n f ℓ (2 * k)
  mutated_iff : mutated = true ↔ ∃ ℓ k, (2 * k + 2) * 2 ^ ℓ ≤ count ∧ TwinsAt n f ℓ k

theorem counted_zero (inner : Nat → Hash) : Counted n f 0 inner false where
  inner_eq ℓ k h := by simp at h
  mutated_iff := by
    refine ⟨fun h => (by cases h), ?_⟩
    rintro ⟨ℓ, k, hle, -⟩
    have := Nat.two_pow_pos ℓ
    exact absurd hle (Nat.not_le.mpr (Nat.mul_pos (by omega) this))

variable {mutated : Bool}

/-- **One leaf** keeps the invariant. -/
theorem Counted.add {count : Nat}
    (h : Counted n f count inner mutated) (hn : count < n) (hlt : count + 1 < 2 ^ 32) :
    ∃ t k m, count + 1 = (2 * k + 1) * 2 ^ t
      ∧ collapse inner (count + 1) 32 0 (f count) mutated
        = .ok (t, treeNode n f t (2 * k), m)
      ∧ Counted n f (count + 1) (Function.update inner t (treeNode n f t (2 * k))) m := by
  have hinner : ∀ ℓ k, 0 ≤ ℓ → count + 1 = (2 * k + 2) * 2 ^ ℓ →
      inner ℓ = treeNode n f ℓ (2 * k) ∧ (2 * k + 1) * 2 ^ ℓ < n := by
    intro ℓ k _ hk
    have hpos := Nat.two_pow_pos ℓ
    have hsplit : (2 * k + 2) * 2 ^ ℓ = (2 * k + 1) * 2 ^ ℓ + 2 ^ ℓ := by ring
    refine ⟨h.inner_eq ℓ k ?_, by omega⟩
    -- the leaves counted before end just below the pair
    rw [Nat.div_eq_iff hpos]
    omega
  obtain ⟨t, k, m, -, hcount, hrun, hm⟩ :=
    collapse_run mutated (show count + 1 = (count + 1) * 2 ^ 0 by ring) hlt hinner
  refine ⟨t, k, m, hcount, hrun, ?_, ?_⟩
  · intro ℓ j hj
    rcases lt_trichotomy ℓ t with hlt' | rfl | hgt
    · -- the bits below the lowest set bit are clear
      obtain ⟨e, rfl⟩ := Nat.exists_eq_add_of_lt hlt'
      have hdiv : (count + 1) / 2 ^ ℓ = 2 * ((2 * k + 1) * 2 ^ e) := by
        rw [hcount, add_assoc, pow_add, pow_succ]
        rw [show (2 * k + 1) * (2 ^ ℓ * (2 ^ e * 2)) = 2 * ((2 * k + 1) * 2 ^ e) * 2 ^ ℓ by ring]
        exact Nat.mul_div_cancel _ (Nat.two_pow_pos ℓ)
      omega
    · rw [Function.update_self]
      rw [hcount, Nat.mul_div_cancel _ (Nat.two_pow_pos ℓ)] at hj
      obtain rfl : j = k := by omega
      rfl
    · rw [Function.update_of_ne (ne_of_gt hgt)]
      refine h.inner_eq ℓ j ?_
      have hdvd : ¬ 2 ^ ℓ ∣ count + 1 := by
        obtain ⟨e, rfl⟩ := Nat.exists_eq_add_of_lt hgt
        rintro ⟨c, hc⟩
        cases c with
        | zero => omega
        | succ c =>
          have heven : count + 1 = (2 * c + 2) * 2 ^ (t + e) := by rw [hc]; ring
          exact odd_mul_ne_even_mul (le_add_right t e) (hcount.symm.trans heven)
      rw [← succ_div_of_not_dvd hdvd]
      exact hj
  · rw [hm, h.mutated_iff]
    constructor
    · rintro (⟨ℓ, j, hle, htwins⟩ | ⟨ℓ, j, -, hj, htwins⟩)
      · exact ⟨ℓ, j, by omega, htwins⟩
      · exact ⟨ℓ, j, le_of_eq hj.symm, htwins⟩
    · rintro ⟨ℓ, j, hle, htwins⟩
      rcases eq_or_lt_of_le hle with heq | hlt'
      · exact Or.inr ⟨ℓ, j, zero_le ℓ, heq.symm, htwins⟩
      · exact Or.inl ⟨ℓ, j, le_of_lt_succ hlt', htwins⟩

/-- **All leaves** are counted. -/
theorem Counted.addAll {leaves : List Hash} {count : Nat}
    (h : Counted n f count inner mutated) (hn : count + leaves.length = n) (hlt : n < 2 ^ 32)
    (hf : ∀ i < leaves.length, leaves[i]? = some (f (count + i))) :
    ∃ inner' m, addLeaves leaves count inner mutated = .ok (n, inner', m)
      ∧ Counted n f n inner' m := by
  induction leaves generalizing count inner mutated with
  | nil =>
    obtain rfl : count = n := hn
    exact ⟨inner, mutated, rfl, h⟩
  | cons leaf leaves ih =>
    rw [length_cons] at hn
    obtain ⟨t, k, m, -, hrun, hcounted⟩ := h.add (by omega) (by omega)
    obtain rfl : leaf = f count := Option.some.inj (hf 0 (succ_pos _))
    have hrest : ∀ i < leaves.length, leaves[i]? = some (f (count + 1 + i)) := by
      intro i hi
      rw [add_assoc, add_comm 1 i]
      exact hf (i + 1) (succ_lt_succ hi)
    obtain ⟨inner', m', hrun', hcounted'⟩ := ih hcounted (by omega) hrest
    refine ⟨inner', m', ?_, hcounted'⟩
    rw [addLeaves]
    simp only [mod_eq_of_lt (show count + 1 < 2 ^ 32 by omega), hrun, Except.ok_bind]
    exact hrun'

/-! ## Closing the tree -/

omit [Hashing] in
theorem lowestBit_eq {count fuel level q : Nat} (hq : count = (q + 1) * 2 ^ level)
    (hfuel : q + 1 < 2 ^ fuel) :
    ∃ k, count = (2 * k + 1) * 2 ^ lowestBit count fuel level := by
  induction fuel generalizing level q with
  | zero => omega
  | succ fuel ih =>
    rw [lowestBit, testBit_mul_two_pow hq]
    rcases even_or_odd' q with ⟨k, rfl | rfl⟩
    · rw [if_pos (by simp)]
      exact ⟨k, hq⟩
    · rw [if_neg (by simp; omega)]
      exact ih (show count = (k + 1) * 2 ^ (level + 1) by rw [hq]; ring) (by omega)

/-- **The invariant while the tree is closed**: the count is the number of leaves,
rounded up to an odd multiple of `2 ^ level`, and the node is the last of its level. The
flag is up if a pair of complete nodes, or any pair below the level, is equal. -/
structure Closing (n : Nat) (f : Nat → Hash) (k level : Nat) (h : Hash) (mutated : Bool) :
    Prop where
  lower : 2 * k * 2 ^ level < n
  upper : n ≤ (2 * k + 1) * 2 ^ level
  small : 2 ^ level < 2 * n
  node_eq : h = treeNode n f level (2 * k)
  mutated_iff : mutated = true ↔ ∃ ℓ i, (2 * i + 1) * 2 ^ ℓ < n
    ∧ (ℓ < level ∨ (2 * i + 2) * 2 ^ ℓ ≤ n) ∧ TwinsAt n f ℓ i

omit [Hashing] in
theorem eq_clog_two {n d : Nat} (h : n ≤ 2 ^ d) (h' : 2 ^ d < 2 * n) : d = Nat.clog 2 n := by
  refine le_antisymm ?_ ((clog_le_iff_le_pow one_lt_two).mpr h)
  cases d with
  | zero => exact zero_le _
  | succ d =>
    rw [succ_le_iff, lt_clog_iff_pow_lt one_lt_two]
    omega

variable {h : Hash}

/-- A closed tree: its last node is the root, and every pair has been compared. -/
theorem Closing.closed {level : Nat} (hc : Closing n f 0 level h mutated) :
    level = Nat.clog 2 n ∧ h = treeNode n f level 0
      ∧ (mutated = true ↔ ∃ ℓ i, (2 * i + 1) * 2 ^ ℓ < n ∧ TwinsAt n f ℓ i) := by
  have hupper := hc.upper
  refine ⟨eq_clog_two (by omega) hc.small, hc.node_eq, ?_⟩
  rw [hc.mutated_iff]
  refine exists_congr fun ℓ => exists_congr fun i => ?_
  constructor
  · rintro ⟨hlt, -, htwins⟩
    exact ⟨hlt, htwins⟩
  · rintro ⟨hlt, htwins⟩
    refine ⟨hlt, Or.inl ?_, htwins⟩
    by_contra hle
    have hpow := Nat.pow_le_pow_right Nat.two_pos (Nat.le_of_not_lt hle)
    have hone : 1 * 2 ^ ℓ ≤ (2 * i + 1) * 2 ^ ℓ := Nat.mul_le_mul_right _ (by omega)
    omega

omit [Hashing] in
/-- Two multiples of a power of two with `n` in the gap below them are one. -/
theorem eq_of_ceil {n ℓ a b : Nat} (ha : n ≤ (a + 1) * 2 ^ ℓ) (ha' : a * 2 ^ ℓ < n)
    (hb : n ≤ (b + 1) * 2 ^ ℓ) (hb' : b * 2 ^ ℓ < n) : a = b := by
  have hab : a < b + 1 := Nat.lt_of_mul_lt_mul_right (Nat.lt_of_lt_of_le ha' hb)
  have hba : b < a + 1 := Nat.lt_of_mul_lt_mul_right (Nat.lt_of_lt_of_le hb' ha)
  omega

omit [Hashing] in
theorem level_lt_of_mul_lt {c level : Nat} (hc : 0 < c) (h : c * 2 ^ level < 2 ^ 32) :
    level < 32 := by
  by_contra hge
  have hpow : 2 ^ 32 ≤ 2 ^ level := Nat.pow_le_pow_right Nat.two_pos (Nat.le_of_not_lt hge)
  have hone : 1 * 2 ^ level ≤ c * 2 ^ level := Nat.mul_le_mul_right _ hc
  omega

/-- **One round of closing**: the last node is paired with itself and folded up. -/
theorem Closing.step {k level : Nat} {mutated m₀ : Bool}
    (hc : Closing n f (k + 1) level h mutated) (hcounted : Counted n f n inner m₀)
    (hlt : (2 * (k + 1) + 2) * 2 ^ level < 2 ^ 32) :
    ∃ t k' m, level < t ∧ (2 * (k + 1) + 2) * 2 ^ level = (2 * k' + 1) * 2 ^ t
      ∧ collapse inner ((2 * (k + 1) + 2) * 2 ^ level) (31 - level) (level + 1)
          (hashPair h h) mutated = .ok (t, treeNode n f t (2 * k'), m)
      ∧ Closing n f k' t (treeNode n f t (2 * k')) m := by
  have hlower := hc.lower
  have hupper := hc.upper
  have hpos := Nat.two_pow_pos level
  -- the count is the number of leaves rounded up to a multiple of `2 ^ (level + 1)`
  have hcount : (2 * (k + 1) + 2) * 2 ^ level = (k + 1 + 1) * 2 ^ (level + 1) := by ring
  have hround : (k + 1) * 2 ^ (level + 1) < n := by
    rw [show (k + 1) * 2 ^ (level + 1) = 2 * (k + 1) * 2 ^ level by ring]
    exact hlower
  have hbelow : n < (k + 1 + 1) * 2 ^ (level + 1) := by
    rw [show (k + 1 + 1) * 2 ^ (level + 1) = (2 * (k + 1) + 1) * 2 ^ level + 2 ^ level by ring]
    omega
  have hceil : ∀ ℓ c, level + 1 ≤ ℓ → (k + 1 + 1) * 2 ^ (level + 1) = (c + 1) * 2 ^ ℓ →
      c * 2 ^ ℓ < n := by
    intro ℓ c hle hc
    have hpow := Nat.pow_le_pow_right Nat.two_pos hle
    rw [Nat.add_mul, Nat.add_mul c] at hc
    omega
  rw [hcount] at hlt ⊢
  have hinner : ∀ ℓ j, level + 1 ≤ ℓ → (k + 1 + 1) * 2 ^ (level + 1) = (2 * j + 2) * 2 ^ ℓ →
      inner ℓ = treeNode n f ℓ (2 * j) ∧ (2 * j + 1) * 2 ^ ℓ < n := by
    intro ℓ j hle hj
    have hreal := hceil ℓ (2 * j + 1) hle hj
    refine ⟨hcounted.inner_eq ℓ j ?_, hreal⟩
    rw [Nat.div_eq_iff (Nat.two_pow_pos ℓ)]
    have hsplit : (2 * j + 2) * 2 ^ ℓ = (2 * j + 1) * 2 ^ ℓ + 2 ^ ℓ := by ring
    omega
  have hfuel : k + 1 + 1 < 2 ^ (31 - level) := by
    have hle := level_lt_of_mul_lt (succ_pos _) hlt
    have hsplit : 2 ^ (31 - level) * 2 ^ (level + 1) = 2 ^ 32 := by
      rw [← pow_add]
      congr 1
      omega
    rw [← hsplit] at hlt
    exact Nat.lt_of_mul_lt_mul_right hlt
  obtain ⟨t, k', m, hle, hodd, hrun, hm⟩ := collapse_run mutated rfl hfuel hinner
  have hself : hashPair h h = treeNode n f (level + 1) (k + 1) := by
    simp only [hc.node_eq, treeNode, node, if_neg (not_lt.mpr hupper)]
  have hlower' : 2 * k' * 2 ^ t < n := hceil t (2 * k') hle hodd
  refine ⟨t, k', m, hle, hodd, by rw [hself]; exact hrun, hlower', by omega, ?_, rfl, ?_⟩
  · -- the count has less than doubled
    have hone : 1 * 2 ^ t ≤ (2 * k' + 1) * 2 ^ t := mul_le_mul_right _ (by omega)
    have hdouble : (k + 1 + 1) * 2 ^ (level + 1) ≤ 2 * ((k + 1) * 2 ^ (level + 1)) := by
      rw [← mul_assoc]
      exact mul_le_mul_right _ (by omega)
    omega
  · rw [hm, hc.mutated_iff]
    constructor
    · rintro (⟨ℓ, i, hlt', hdone, htwins⟩ | ⟨ℓ, j, hle', hj, htwins⟩)
      · exact ⟨ℓ, i, hlt', hdone.imp_left (by omega), htwins⟩
      · refine ⟨ℓ, j, hceil ℓ (2 * j + 1) hle' hj, Or.inl ?_, htwins⟩
        by_contra hge
        exact odd_mul_ne_even_mul (Nat.le_of_not_lt hge) (hodd.symm.trans hj)
    · rintro ⟨ℓ, i, hlt', hdone, htwins⟩
      by_cases hfull : (2 * i + 2) * 2 ^ ℓ ≤ n
      · exact Or.inl ⟨ℓ, i, hlt', Or.inr hfull, htwins⟩
      · have hℓt : ℓ < t := hdone.resolve_right hfull
        rcases lt_trichotomy ℓ level with hlow | rfl | hhigh
        · exact Or.inl ⟨ℓ, i, hlt', Or.inl hlow, htwins⟩
        · -- at the level itself, every pair but the last node's is complete
          refine absurd ?_ hfull
          have hik : 2 * i + 1 < 2 * (k + 1) + 1 :=
            Nat.lt_of_mul_lt_mul_right (Nat.lt_of_lt_of_le hlt' hupper)
          have hmul : (2 * i + 2) * 2 ^ ℓ ≤ 2 * (k + 1) * 2 ^ ℓ :=
            mul_le_mul_right _ (by omega)
          omega
        · -- between the levels, the pair is one that the carry has passed
          obtain ⟨e, rfl⟩ := Nat.exists_eq_add_of_lt hℓt
          have hmul : (2 * k' + 1) * 2 ^ (ℓ + e + 1)
              = ((2 * k' + 1) * 2 ^ (e + 1) - 1 + 1) * 2 ^ ℓ := by
            have : 0 < (2 * k' + 1) * 2 ^ (e + 1) := Nat.mul_pos (by omega) (Nat.two_pow_pos _)
            rw [Nat.sub_add_cancel this]
            ring
          have hc' : (2 * k' + 1) * 2 ^ (e + 1) - 1 = 2 * i + 1 :=
            eq_of_ceil (hmul ▸ hodd ▸ Nat.le_of_lt hbelow) (hceil ℓ _ hhigh (hodd.trans hmul))
              (Nat.le_of_lt (Nat.lt_of_not_le hfull)) hlt'
          rw [hc'] at hmul
          exact Or.inr ⟨ℓ, i, hhigh, hodd.trans hmul, htwins⟩

/-- Where closing has to go on, the rounded count is less than twice the leaves. -/
theorem Closing.count_lt {k level : Nat}
    (hc : Closing n f (k + 1) level h mutated) : (2 * (k + 1) + 2) * 2 ^ level < 2 * n := by
  have hlower := hc.lower
  have hdouble : (2 * (k + 1) + 2) * 2 ^ level ≤ 2 * (2 * (k + 1) * 2 ^ level) := by
    rw [← mul_assoc]
    exact mul_le_mul_right _ (by omega)
  omega

omit [Hashing] in
/-- The count is a power of two only if nothing of it is odd. -/
theorem odd_mul_ne_two_pow (k level : Nat) : (2 * (k + 1) + 1) * 2 ^ level ≠ 2 ^ level := by
  intro h
  have hone := Nat.eq_of_mul_eq_mul_right (Nat.two_pow_pos level) (h.trans (Nat.one_mul _).symm)
  omega

omit [Hashing] in
theorem odd_mul_add_two_pow (k level : Nat) :
    (2 * (k + 1) + 1) * 2 ^ level + 2 ^ level = (2 * (k + 1) + 2) * 2 ^ level := by
  ring

/-- **Closing the tree** of up to `2 ^ 31` leaves ends in its root; with more of
them the count gets to `2 ^ 32`. -/
theorem Closing.close {fuel k level : Nat} {mutated m₀ : Bool}
    (hc : Closing n f k level h mutated) (hcounted : Counted n f n inner m₀)
    (hcount : (2 * k + 1) * 2 ^ level < 2 ^ 32) (hfuel : 32 ≤ fuel + level) :
    if n ≤ 2 ^ 31 then
      ∃ m, closeTree inner fuel ((2 * k + 1) * 2 ^ level) level h mutated
          = .ok (treeNode n f (Nat.clog 2 n) 0, m)
        ∧ (m = true ↔ ∃ ℓ i, (2 * i + 1) * 2 ^ ℓ < n ∧ TwinsAt n f ℓ i)
    else closeTree inner fuel ((2 * k + 1) * 2 ^ level) level h mutated = .error innerPanic := by
  induction fuel generalizing k level h mutated with
  | zero =>
    have hlevel := level_lt_of_mul_lt (succ_pos _) hcount
    omega
  | succ fuel ih =>
    have hlevel := level_lt_of_mul_lt (succ_pos _) hcount
    rw [closeTree]
    cases k with
    | zero =>
      -- a power of two below `2 ^ 32` is at most `2 ^ 31`
      have hupper := hc.upper
      have hpow : 2 ^ level ≤ 2 ^ 31 := Nat.pow_le_pow_right Nat.two_pos (by omega)
      obtain ⟨hclog, hroot, hm⟩ := hc.closed
      rw [if_pos (show n ≤ 2 ^ 31 by omega), if_pos (by ring), hroot, hclog]
      exact ⟨mutated, rfl, hm⟩
    | succ k =>
      rw [if_neg (odd_mul_ne_two_pow k level)]
      simp only [odd_mul_add_two_pow]
      have hle : (2 * (k + 1) + 2) * 2 ^ level ≤ 2 ^ 32 := by
        rw [← pow_sub_mul_pow 2 hlevel.le] at hcount ⊢
        exact Nat.mul_le_mul_right _ (Nat.lt_of_mul_lt_mul_right hcount)
      rcases Nat.eq_or_lt_of_le hle with heq | hlt
      · have := hc.count_lt
        rw [if_neg (by omega), heq, mod_self, collapse_zero]
        rfl
      · obtain ⟨t, k', m, hlt', hodd, hrun, hc'⟩ := hc.step hcounted hlt
        simp only [mod_eq_of_lt hlt, hrun, Except.ok_bind]
        rw [hodd] at hlt ⊢
        exact ih hc' hlt (by omega)

/-- Where closing starts: at the lowest set bit of the number of leaves. -/
theorem Counted.closing {k t : Nat}
    (h : Counted n f n inner mutated) (hk : n = (2 * k + 1) * 2 ^ t) :
    Closing n f k t (inner t) mutated := by
  have hpos := Nat.two_pow_pos t
  have hsplit : (2 * k + 1) * 2 ^ t = 2 * k * 2 ^ t + 2 ^ t := by ring
  refine ⟨by omega, by omega, by omega, h.inner_eq t k ?_, ?_⟩
  · rw [hk, Nat.mul_div_cancel _ hpos]
  · rw [h.mutated_iff]
    refine exists_congr fun ℓ => exists_congr fun i => ?_
    have hnext : (2 * i + 2) * 2 ^ ℓ = (2 * i + 1) * 2 ^ ℓ + 2 ^ ℓ := by ring
    have hposℓ := Nat.two_pow_pos ℓ
    constructor
    · rintro ⟨hle, htwins⟩
      exact ⟨by omega, Or.inr hle, htwins⟩
    · rintro ⟨hlt, hdone, htwins⟩
      refine ⟨?_, htwins⟩
      rcases hdone with hlow | hle
      · -- the number of leaves is a multiple of `2 ^ (ℓ + 1)`
        obtain ⟨e, rfl⟩ := Nat.exists_eq_add_of_lt hlow
        have hmul : n = (2 * k + 1) * 2 ^ (e + 1) * 2 ^ ℓ := by rw [hk]; ring
        rw [hmul] at hlt ⊢
        exact Nat.mul_le_mul_right _ (Nat.lt_of_mul_lt_mul_right hlt)
      · exact hle

end Tree

/-! ## The function -/

/-- The leaves as a function of their position. -/
def leafAt (leaves : List Hash) (i : Nat) : Hash := leaves.getD i Hash.allZeros

omit [Hashing] in
theorem getElem?_eq_leafAt {i : Nat} (hi : i < leaves.length) :
    leaves[i]? = some (leafAt leaves i) := by
  rw [leafAt, getD_eq_getElem?_getD, getElem?_eq_getElem hi]
  rfl

/-- All leaves are counted, and the tree is ready to be closed. -/
theorem exists_closing (hne : leaves ≠ []) (hlt : leaves.length < 2 ^ 32) :
    ∃ inner m k t, addLeaves leaves 0 (fun _ => Hash.allZeros) false
        = .ok (leaves.length, inner, m)
      ∧ lowestBit leaves.length 32 0 = t ∧ leaves.length = (2 * k + 1) * 2 ^ t
      ∧ Counted leaves.length (leafAt leaves) leaves.length inner m
      ∧ Closing leaves.length (leafAt leaves) k t (inner t) m := by
  have hpos : 0 < leaves.length := length_pos_iff.mpr hne
  obtain ⟨inner, m, hrun, hcounted⟩ := (counted_zero fun _ => Hash.allZeros).addAll
    (zero_add leaves.length) hlt fun i hi => by rw [zero_add]; exact getElem?_eq_leafAt hi
  obtain ⟨k, hk⟩ := lowestBit_eq
    (show leaves.length = (leaves.length - 1 + 1) * 2 ^ 0 by rw [pow_zero]; omega)
    (show leaves.length - 1 + 1 < 2 ^ 32 by omega)
  exact ⟨inner, m, k, _, hrun, rfl, hk, hcounted, hcounted.closing hk⟩

/-- **The one-pass root** is the merkle root, and the flag says whether the tree has
twins. -/
theorem rootDetectingMutation_eq (hne : leaves ≠ []) (hlen : leaves.length ≤ 2 ^ 31) :
    ∃ m, rootDetectingMutation leaves = .ok (some (merkleRoot leaves), m)
      ∧ (m = true ↔ Mutated hashPair leaves) := by
  obtain ⟨inner, m, k, t, hrun, ht, hk, hcounted, hclosing⟩ := exists_closing hne (by omega)
  have hclose := hclosing.close hcounted (by omega) (le_add_right 32 t)
  rw [if_pos hlen] at hclose
  obtain ⟨m', hclose, hm'⟩ := hclose
  have hf : ∀ i < leaves.length, leaves[i]? = some (leafAt leaves i) :=
    fun i hi => getElem?_eq_leafAt hi
  have hroot : merkleRoot leaves
      = treeNode leaves.length (leafAt leaves) (clog 2 leaves.length) 0 := by
    have hlevel := getElem?_level hashPair hf (height leaves) 0
    rw [level_height_eq_merkleRoot hne, if_pos (by simpa using length_pos_iff.mpr hne)] at hlevel
    exact Option.some.inj hlevel
  refine ⟨m', ?_, hm'.trans (mutated_iff hf).symm⟩
  unfold rootDetectingMutation
  rw [if_neg (by simpa using hne), hroot]
  simp only [hrun, ht, Except.ok_bind]
  rw [← hk] at hclose
  rw [hclose]
  rfl

/-- **More than `2 ^ 31` leaves** make the code panic. -/
theorem rootDetectingMutation_panics (hgt : 2 ^ 31 < leaves.length)
    (hlt : leaves.length < 2 ^ 32) : rootDetectingMutation leaves = .error innerPanic := by
  have hne : leaves ≠ [] := by
    rintro rfl
    exact absurd hgt (by simp)
  obtain ⟨inner, m, k, t, hrun, ht, hk, hcounted, hclosing⟩ := exists_closing hne hlt
  have hclose := hclosing.close hcounted (by omega) (le_add_right 32 t)
  rw [if_neg (Nat.not_le_of_lt hgt)] at hclose
  unfold rootDetectingMutation
  rw [if_neg (by simpa using hne)]
  simp only [hrun, ht, Except.ok_bind]
  rw [← hk] at hclose
  rw [hclose]
  rfl

/-! ## What the root binds -/

/-- **The hash binds two lists**: no two pairs that are hashed on the way to their
roots collide, and none of these pairs hashes to a leaf. -/
structure PairsBind (l m : List Hash) : Prop where
  inj : ∀ p ∈ hashed Hashing.hashPair l ++ hashed Hashing.hashPair m,
    ∀ q ∈ hashed Hashing.hashPair l ++ hashed Hashing.hashPair m,
    Hashing.hashPair p.1 p.2 = Hashing.hashPair q.1 q.2 → p = q
  leaf : ∀ a ∈ l ++ m, ∀ p ∈ hashed Hashing.hashPair l ++ hashed Hashing.hashPair m,
    Hashing.hashPair p.1 p.2 ≠ a

theorem PairsBind.symm {l m : List Hash} (h : PairsBind l m) : PairsBind m l := by
  have hpairs : ∀ p ∈ hashed hashPair m ++ hashed hashPair l,
      p ∈ hashed hashPair l ++ hashed hashPair m :=
    fun p hp => mem_append.mpr (mem_append.mp hp).symm
  exact ⟨fun p hp q hq => h.inj p (hpairs p hp) q (hpairs q hq),
    fun a ha p hp => h.leaf a (mem_append.mpr (mem_append.mp ha).symm) p (hpairs p hp)⟩

/-- Two lists with one root are equal, if the longer one has no twins. -/
theorem PairsBind.eq_of_root_eq {l m : List Hash} (h : PairsBind l m)
    (hlen : l.length ≤ m.length) (hl : l ≠ []) (hroot : merkleRoot l = merkleRoot m)
    (hm : ¬ Mutated hashPair m) : l = m := by
  have hne : m ≠ [] := by
    rintro rfl
    exact hl (length_eq_zero_iff.mp (le_zero.mp hlen))
  refine HashTree.eq_of_root_eq
    (fun p hp q hq => h.inj p (mem_append_left _ hp) q (mem_append_right _ hq)) ?_ hlen hl
    (fun a ha q hq => h.leaf a (mem_append_left _ ha) q (mem_append_right _ hq)) hm
  rw [level_height_eq_merkleRoot hl, level_height_eq_merkleRoot hne, hroot]

/-- **Mutation detection is exact** for lists of up to `bound` leaves: the two root
functions agree, lists that pass are determined by their root, and repeating a tail
without changing the root is noticed. -/
structure MerkleExact (bound : Nat) : Prop where
  root : ∀ leaves : List Hash, leaves ≠ [] → leaves.length ≤ bound →
    ∃ m, rootDetectingMutation leaves = .ok (some (merkleRoot leaves), m)
  binds : ∀ (l m : List Hash) (r : Hash), l.length ≤ bound → m.length ≤ bound → PairsBind l m →
    rootDetectingMutation l = .ok (some r, false) →
    rootDetectingMutation m = .ok (some r, false) → l = m
  flags : ∀ (l : List Hash) (j : Nat), j < l.length → (l ++ l.drop j).length ≤ bound →
    PairsBind l (l ++ l.drop j) → merkleRoot (l ++ l.drop j) = merkleRoot l →
    rootDetectingMutation (l ++ l.drop j) = .ok (some (merkleRoot l), true)

/-- A list that passes, with its root. -/
theorem root_eq_of_not_mutated {l : List Hash} {r : Hash} (hlen : l.length ≤ 2 ^ 31)
    (h : rootDetectingMutation l = .ok (some r, false)) :
    l ≠ [] ∧ merkleRoot l = r ∧ ¬ Mutated hashPair l := by
  have hne : l ≠ [] := by
    rintro rfl
    cases h
  obtain ⟨m, hrun, hm⟩ := rootDetectingMutation_eq hne hlen
  have heq := (Prod.mk.inj (Except.ok.inj (hrun.symm.trans h)))
  refine ⟨hne, Option.some.inj heq.1, fun hmut => ?_⟩
  rw [← hm, heq.2] at hmut
  cases hmut

/-- **It is, for up to `2 ^ 31` leaves.** -/
theorem merkleExact_two_pow_31 : MerkleExact (2 ^ 31) where
  root leaves hne hlen := by
    obtain ⟨m, hrun, -⟩ := rootDetectingMutation_eq hne hlen
    exact ⟨m, hrun⟩
  binds l m r hl hm hbind hrunl hrunm := by
    obtain ⟨hnel, hrootl, hmutl⟩ := root_eq_of_not_mutated hl hrunl
    obtain ⟨hnem, hrootm, hmutm⟩ := root_eq_of_not_mutated hm hrunm
    rcases le_total l.length m.length with hle | hle
    · exact hbind.eq_of_root_eq hle hnel (hrootl.trans hrootm.symm) hmutm
    · exact (hbind.symm.eq_of_root_eq hle hnem (hrootm.trans hrootl.symm) hmutl).symm
  flags l j hj hlen hbind hroot := by
    have hnel : l ≠ [] := length_pos_iff.mp (zero_lt_of_lt hj)
    obtain ⟨m, hrun, hm⟩ := rootDetectingMutation_eq
      (append_ne_nil_of_left_ne_nil hnel (l.drop j)) hlen
    rw [hrun]
    congr
    rw [hm]
    by_contra hmut
    -- the longer list would be equal to the shorter
    have heq := hbind.eq_of_root_eq (by simp) hnel hroot.symm hmut
    have hlen' := congrArg List.length heq
    rw [length_append, length_drop] at hlen'
    omega

end

section Sample

attribute [local instance] sampleHashing

/-- With a leaf more than `2 ^ 31` the root is not computed. -/
theorem not_merkleExact_two_pow_32 : ¬ MerkleExact (2 ^ 32 - 1) := by
  intro h
  have hlen : (List.replicate (2 ^ 31 + 1) (1#256 : Hash)).length = 2 ^ 31 + 1 :=
    length_replicate
  obtain ⟨m, hrun⟩ := h.root (List.replicate (2 ^ 31 + 1) 1#256)
    (length_pos_iff.mp (by omega)) (by omega)
  rw [rootDetectingMutation_panics (by omega) (by omega)] at hrun
  cases hrun

example : rootDetectingMutation [1#256, 2#256, 3#256, 3#256]
    = .ok (some (merkleRoot [1#256, 2#256, 3#256]), true) := by decide

end Sample
