import Mathlib.Data.Nat.Log
import Mathlib.Logic.Function.Iterate
import Mathlib.Tactic.Ring

/-!
# Hash trees over lists

The nodes of a level are hashed in pairs, the last of an odd level with itself,
until one node is left. That rule alone makes different lists share a root: a list
and the same list with its tail repeated. Two equal *siblings* – twins – are the
trace such a repetition leaves, at the level where the repeated part is one node.

So the root binds the list as soon as the longer of two lists has no twins
(`eq_of_root_eq`). What is asked of the hash is not injectivity, which no hash
function has, but that the pairs which are hashed on the way to the two roots do not
collide, and that none of them hashes to a leaf.

The nodes are also given by their position: `node` is the node at an index of a
level, by recursion on the level, without building the levels as lists
(`getElem?_level`). Computations that visit the tree in another order than level by
level are stated in these terms.
-/

open List Nat

namespace HashTree

variable {α : Type*} (pair : α → α → α)

/-- Hash the nodes of a level in pairs; the last of an odd level with itself. -/
def pairUp : List α → List α
  | [] => []
  | [a] => [pair a a]
  | a :: b :: rest => pair a b :: pairUp rest

/-- The levels of a tree, from the leaves up. -/
def level (leaves : List α) (ℓ : Nat) : List α := (pairUp pair)^[ℓ] leaves

/-- The pairs that are hashed at a level. -/
def siblings : List α → List (α × α)
  | [] => []
  | [a] => [(a, a)]
  | a :: b :: rest => (a, b) :: siblings rest

/-- **Twins**: two siblings of a level that are equal. A node that is its own
sibling is not one. -/
def Twins : List α → Prop
  | a :: b :: rest => a = b ∨ Twins rest
  | _ => False

/-- Some level of the tree has twins. -/
def Mutated (leaves : List α) : Prop := ∃ ℓ, Twins (level pair leaves ℓ)

/-- The level of the root. -/
def height (leaves : List α) : Nat := Nat.clog 2 leaves.length

/-- The pairs that are hashed on the way to the root. -/
def hashed (leaves : List α) : List (α × α) :=
  (List.range (height leaves)).flatMap fun ℓ => siblings (level pair leaves ℓ)

variable {pair}

/-! ## Levels -/

theorem level_succ (leaves : List α) (ℓ : Nat) :
    level pair leaves (ℓ + 1) = pairUp pair (level pair leaves ℓ) :=
  Function.iterate_succ_apply' _ ℓ leaves

theorem length_pairUp (nodes : List α) : (pairUp pair nodes).length = (nodes.length + 1) / 2 := by
  induction nodes using pairUp.induct with
  | case1 => simp [pairUp]
  | case2 a => simp [pairUp]
  | case3 a b rest ih =>
    rw [pairUp, length_cons, length_cons, length_cons]
    omega

variable (pair) in
/-- The nodes of a level cover the leaves, `2 ^ ℓ` each. -/
theorem lt_length_level (leaves : List α) (ℓ i : Nat) :
    i < (level pair leaves ℓ).length ↔ i * 2 ^ ℓ < leaves.length := by
  induction ℓ generalizing i with
  | zero => rw [pow_zero, mul_one]; rfl
  | succ ℓ ih =>
    have hi : i < (level pair leaves (ℓ + 1)).length ↔ 2 * i < (level pair leaves ℓ).length := by
      rw [level_succ, length_pairUp]
      omega
    rw [hi, ih, pow_succ, mul_comm 2 i, mul_assoc, mul_comm 2]

variable {leaves : List α}

variable (pair) in
/-- The root is alone at its level. -/
theorem length_level_height (hne : leaves ≠ []) :
    (level pair leaves (height leaves)).length = 1 := by
  have hpos : 0 < leaves.length := length_pos_iff.mpr hne
  have h0 := (lt_length_level pair leaves (height leaves) 0).mpr (by omega)
  have hle : leaves.length ≤ 2 ^ height leaves := le_pow_clog one_lt_two _
  have h1 : ¬ 1 < (level pair leaves (height leaves)).length := by
    rw [lt_length_level]
    omega
  omega

/-! ## The root binds the list -/

theorem mem_hashed {ℓ : Nat} (h : ℓ < height leaves) {p : α × α}
    (hp : p ∈ siblings (level pair leaves ℓ)) : p ∈ hashed pair leaves :=
  mem_flatMap.mpr ⟨ℓ, mem_range.mpr h, hp⟩

/-- **One level up binds a level** to any other that is no shorter and has no
twins. -/
theorem eq_of_pairUp_eq {l m : List α} (hlen : l.length ≤ m.length) (htwins : ¬ Twins m)
    (hinj : ∀ p ∈ siblings l, ∀ q ∈ siblings m, pair p.1 p.2 = pair q.1 q.2 → p = q)
    (h : pairUp pair l = pairUp pair m) : l = m := by
  induction l using pairUp.induct generalizing m with
  | case1 =>
    have hlen' := congrArg List.length h
    rw [length_pairUp, length_pairUp] at hlen'
    exact (length_eq_zero_iff.mp (by rw [length_nil] at hlen'; omega)).symm
  | case2 a =>
    match m with
    | [] => cases h
    | [c] =>
      have hp := hinj (a, a) mem_cons_self (c, c) mem_cons_self (List.cons.inj h).1
      rw [(Prod.mk.inj hp).1]
    | c :: d :: rest =>
      -- the last node of an odd level meets two nodes of the longer one: they are twins
      have hp := hinj (a, a) mem_cons_self (c, d) mem_cons_self (List.cons.inj h).1
      obtain ⟨rfl, rfl⟩ := Prod.mk.inj hp
      exact absurd (Or.inl rfl) htwins
  | case3 a b rest ih =>
    match m with
    | [] => cases h
    | [c] => exact absurd hlen (by simp)
    | c :: d :: rest' =>
      have hp := hinj (a, b) mem_cons_self (c, d) mem_cons_self (List.cons.inj h).1
      obtain ⟨rfl, rfl⟩ := Prod.mk.inj hp
      have hrest := ih (by simpa using hlen) (fun ht => htwins (Or.inr ht))
        (fun p hp q hq => hinj p (mem_cons_of_mem _ hp) q (mem_cons_of_mem _ hq))
        (List.cons.inj h).2
      rw [hrest]

variable (pair) in
/-- The first node of a level that is hashed from another. -/
theorem head?_pairUp {nodes : List α} (hne : nodes ≠ []) :
    ∃ p ∈ siblings nodes, nodes.head? = some p.1
      ∧ (pairUp pair nodes).head? = some (pair p.1 p.2) := by
  match nodes with
  | [] => exact absurd rfl hne
  | [a] => exact ⟨(a, a), mem_cons_self, rfl, rfl⟩
  | a :: b :: rest => exact ⟨(a, b), mem_cons_self, rfl, rfl⟩

section Binding

variable {l m : List α}

theorem level_ne_nil (hne : l ≠ []) (ℓ : Nat) : level pair l ℓ ≠ [] := by
  rw [← length_pos_iff, lt_length_level, zero_mul]
  exact length_pos_iff.mpr hne

theorem height_mono (hlen : l.length ≤ m.length) : height l ≤ height m :=
  clog_mono_right 2 hlen

variable (hinj : ∀ p ∈ hashed pair l, ∀ q ∈ hashed pair m, pair p.1 p.2 = pair q.1 q.2 → p = q)
include hinj

variable (hroot : level pair l (height l) = level pair m (height m))
include hroot

/-- The first nodes of two trees with one root agree on the way down. -/
theorem head?_level_eq (hl : l ≠ []) (hm : m ≠ []) {e : Nat} (he : height m = height l + e)
    {j ℓ : Nat} (hj : ℓ + j = height l) :
    (level pair l ℓ).head? = (level pair m (ℓ + e)).head? := by
  induction j generalizing ℓ with
  | zero =>
    obtain rfl : ℓ = height l := by omega
    rw [hroot, he]
  | succ j ih =>
    have hup := ih (show ℓ + 1 + j = height l by omega)
    rw [level_succ, add_right_comm ℓ 1 e, level_succ] at hup
    obtain ⟨p, hp, hlp, hlu⟩ := head?_pairUp pair (level_ne_nil hl ℓ)
    obtain ⟨q, hq, hmq, hmu⟩ := head?_pairUp pair (level_ne_nil hm (ℓ + e))
    rw [hlu, hmu] at hup
    have hpq := hinj p (mem_hashed (by omega) hp) q (mem_hashed (by omega) hq) (Option.some.inj hup)
    rw [hlp, hmq, hpq]

section

variable (hlen : l.length ≤ m.length) (hl : l ≠ [])
  (hleaf : ∀ a ∈ l, ∀ q ∈ hashed pair m, pair q.1 q.2 ≠ a)
include hlen hl hleaf

/-- Lists with one root have trees of one height, if no pair of the longer one hashes
to a leaf of the other. -/
theorem height_eq_of_root_eq :
    height l = height m := by
  have hm : m ≠ [] := by
    rintro rfl
    exact hl (length_eq_zero_iff.mp (Nat.le_zero.mp hlen))
  obtain ⟨e, he⟩ := Nat.exists_eq_add_of_le (height_mono hlen)
  cases e with
  | zero => exact he.symm
  | succ e =>
    have hhead := head?_level_eq hinj hroot hl hm he (zero_add _)
    obtain ⟨q, hq, -, hmu⟩ := head?_pairUp pair (level_ne_nil hm e)
    rw [zero_add, level_succ, hmu] at hhead
    refine absurd rfl (hleaf _ ?_ q (mem_hashed (by omega) hq))
    exact mem_of_mem_head? hhead

/-- **The root binds the list**: two lists with one root are equal, if the longer
one has no twins. -/
theorem eq_of_root_eq (hm : ¬ Mutated pair m) : l = m := by
  have hheight := height_eq_of_root_eq hinj hroot hlen hl hleaf
  have hdown : ∀ j ℓ, ℓ + j = height l → level pair l ℓ = level pair m ℓ := by
    intro j
    induction j with
    | zero =>
      intro ℓ hj
      obtain rfl : ℓ = height l := by omega
      rw [hroot, hheight]
    | succ j ih =>
      intro ℓ hj
      have hup := ih (ℓ + 1) (by omega)
      rw [level_succ, level_succ] at hup
      refine eq_of_pairUp_eq ?_ (fun ht => hm ⟨ℓ, ht⟩) (fun p hp q hq => hinj p
        (mem_hashed (by omega) hp) q (mem_hashed (by omega) hq)) hup
      -- the longer list has the longer levels
      by_contra hlt
      have h := (lt_length_level pair l ℓ _).mp (Nat.lt_of_not_le hlt)
      exact absurd ((lt_length_level pair m ℓ _).mpr (Nat.lt_of_lt_of_le h hlen)) (Nat.lt_irrefl _)
  exact hdown (height l) 0 (zero_add _)

end

end Binding

/-! ## Nodes by their position -/

variable (pair) in
/-- **The node at an index of a level**, in the tree of the first `n` values of
`f`. -/
def node (n : Nat) (f : Nat → α) : Nat → Nat → α
  | 0, i => f i
  | ℓ + 1, i => pair (node n f ℓ (2 * i))
      (if (2 * i + 1) * 2 ^ ℓ < n then node n f ℓ (2 * i + 1) else node n f ℓ (2 * i))

theorem getElem?_pairUp (nodes : List α) (i : Nat) :
    (pairUp pair nodes)[i]?
      = (nodes[2 * i]?).map fun a => pair a ((nodes[2 * i + 1]?).getD a) := by
  induction nodes using pairUp.induct generalizing i with
  | case1 => rfl
  | case2 a =>
    cases i with
    | zero => rfl
    | succ i => rw [mul_succ]; rfl
  | case3 a b rest ih =>
    cases i with
    | zero => rfl
    | succ i =>
      rw [pairUp, getElem?_cons_succ, ih]
      rfl

variable (pair) in
/-- **The levels hold the nodes.** -/
theorem getElem?_level {f : Nat → α}
    (hf : ∀ i < leaves.length, leaves[i]? = some (f i)) (ℓ i : Nat) :
    (level pair leaves ℓ)[i]?
      = if i * 2 ^ ℓ < leaves.length then some (node pair leaves.length f ℓ i) else none := by
  induction ℓ generalizing i with
  | zero =>
    rw [pow_zero, mul_one]
    split
    · rename_i hi
      exact hf i hi
    · rename_i hi
      exact getElem?_eq_none (Nat.le_of_not_lt hi)
  | succ ℓ ih =>
    have hcover : i * 2 ^ (ℓ + 1) = 2 * i * 2 ^ ℓ := by ring
    rw [level_succ, getElem?_pairUp, ih, ih, hcover]
    by_cases hleft : 2 * i * 2 ^ ℓ < leaves.length
    · rw [if_pos hleft, node]
      split
      · rfl
      · rfl
    · rw [if_neg hleft, if_neg hleft]
      rfl

theorem twins_iff {nodes : List α} :
    Twins nodes ↔ ∃ i a, nodes[2 * i]? = some a ∧ nodes[2 * i + 1]? = some a := by
  induction nodes using pairUp.induct with
  | case1 => simp [Twins]
  | case2 a => simp [Twins]
  | case3 a b rest ih =>
    rw [Twins, ih]
    constructor
    · rintro (rfl | ⟨i, c, h₁, h₂⟩)
      · exact ⟨0, a, rfl, rfl⟩
      · exact ⟨i + 1, c, h₁, h₂⟩
    · rintro ⟨i, c, h₁, h₂⟩
      cases i with
      | zero => exact Or.inl (Option.some.inj (h₁.trans h₂.symm))
      | succ i => exact Or.inr ⟨i, c, h₁, h₂⟩

/-- **Mutation, by positions**: a node with a right sibling, and equal to it. -/
theorem mutated_iff {f : Nat → α} (hf : ∀ i < leaves.length, leaves[i]? = some (f i)) :
    Mutated pair leaves ↔ ∃ ℓ i, (2 * i + 1) * 2 ^ ℓ < leaves.length
      ∧ node pair leaves.length f ℓ (2 * i) = node pair leaves.length f ℓ (2 * i + 1) := by
  refine exists_congr fun ℓ => ?_
  rw [twins_iff]
  refine exists_congr fun i => ?_
  rw [getElem?_level pair hf, getElem?_level pair hf]
  constructor
  · rintro ⟨a, h₁, h₂⟩
    split at h₂
    · rename_i hlt
      have hleft : 2 * i * 2 ^ ℓ < leaves.length :=
        lt_of_le_of_lt (mul_le_mul_right _ (le_succ _)) hlt
      rw [if_pos hleft] at h₁
      exact ⟨hlt, Option.some.inj (h₁.trans h₂.symm)⟩
    · cases h₂
  · rintro ⟨hlt, heq⟩
    have hleft : 2 * i * 2 ^ ℓ < leaves.length :=
      lt_of_le_of_lt (mul_le_mul_right _ (le_succ _)) hlt
    exact ⟨_, if_pos hleft, by rw [if_pos hlt, heq]⟩

end HashTree
