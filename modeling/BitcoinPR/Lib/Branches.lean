import Mathlib.Logic.Function.Iterate
import Mathlib.Logic.Relation

/-!
# Trees given by parent links

A store of nodes, each of which names its parent, is a forest: the ancestors
of a node are what following the links reaches. As long as nodes are only
added – `Extends` – and no stored node names a parent that is not stored –
`Closed` – a node keeps the ancestors it has: whatever is computed by walking
down from a stored node stays the same when the store grows.

In a `Graded` store every node has a height, one more than its parent's. Its
ancestors are then told apart by their heights: the one at a height is reached
by as many steps `up` as it is below.
-/

open Function Option Relation.ReflTransGen

namespace Branches

variable {K V : Type} {parent : V → Option K}

/-- `b` is the parent of `a`. -/
def Link (parent : V → Option K) (m : K → Option V) (a b : K) : Prop :=
  ∃ v, m a = some v ∧ parent v = some b

/-- `b` is `a` or an ancestor of it. -/
def Ancestor (parent : V → Option K) (m : K → Option V) : K → K → Prop :=
  Relation.ReflTransGen (Link parent m)

/-- Every stored node has its parent stored. -/
def Closed (parent : V → Option K) (m : K → Option V) : Prop :=
  ∀ a b, Link parent m a b → (m b).isSome

/-- Nothing stored in `m` is lost or changed in `m'`. -/
def Extends (m m' : K → Option V) : Prop := ∀ k v, m k = some v → m' k = some v

theorem Extends.refl (m : K → Option V) : Extends m m := fun _ _ h => h

theorem Extends.trans {m₁ m₂ m₃ : K → Option V} (h : Extends m₁ m₂) (h' : Extends m₂ m₃) :
    Extends m₁ m₃ :=
  fun k v hv => h' k v (h k v hv)

theorem Extends.isSome {m m' : K → Option V} (h : Extends m m') {k : K}
    (hk : (m k).isSome) : (m' k).isSome := by
  obtain ⟨v, hv⟩ := isSome_iff_exists.mp hk
  rw [h k v hv]
  rfl

/-- A stored node is read the same in an extension. -/
theorem Extends.apply_eq {m m' : K → Option V} (h : Extends m m') {k : K}
    (hk : (m k).isSome) : m' k = m k := by
  obtain ⟨v, hv⟩ := isSome_iff_exists.mp hk
  rw [h k v hv, hv]

namespace Ancestor

variable {m m' : K → Option V} {a b c : K}

theorem refl (a : K) : Ancestor parent m a a := Relation.ReflTransGen.refl

/-- The ancestors of a node are the node and those of its parent. -/
theorem iff_of_eq {v : V} (hv : m a = some v) :
    Ancestor parent m a c ↔ c = a ∨ ∃ b, parent v = some b ∧ Ancestor parent m b c := by
  constructor
  · intro h
    rcases cases_head h with rfl | ⟨b, ⟨w, hw, hb⟩, hrest⟩
    · exact Or.inl rfl
    · obtain rfl : v = w := mem_unique hv hw
      exact Or.inr ⟨b, hb, hrest⟩
  · rintro (rfl | ⟨b, hb, hrest⟩)
    · exact refl c
    · exact head ⟨v, hv, hb⟩ hrest

/-- Ancestors of a stored node are stored. -/
theorem isSome (hc : Closed parent m) (h : Ancestor parent m a b) (ha : (m a).isSome) :
    (m b).isSome := by
  induction h with
  | refl => exact ha
  | tail _ hlink _ => exact hc _ _ hlink

theorem mono (he : Extends m m') (h : Ancestor parent m a b) : Ancestor parent m' a b := by
  induction h with
  | refl => exact refl a
  | tail _ hlink ih =>
    obtain ⟨v, hv, hp⟩ := hlink
    exact ih.tail ⟨v, he _ v hv, hp⟩

/-- **A stored node keeps its ancestors** when the store grows. -/
theorem iff_of_extends (hc : Closed parent m) (he : Extends m m') (ha : (m a).isSome) :
    Ancestor parent m' a b ↔ Ancestor parent m a b := by
  refine ⟨fun h => ?_, mono he⟩
  induction h with
  | refl => exact refl a
  | tail _ hlink ih =>
    obtain ⟨v, hv, hp⟩ := hlink
    rw [he.apply_eq (ih.isSome hc ha)] at hv
    exact ih.tail ⟨v, hv, hp⟩

end Ancestor

/-! ## Heights -/

/-- One step towards the root, which stays where it is. -/
def up (parent : V → Option K) (m : K → Option V) (a : K) : K := ((m a).bind parent).getD a

theorem up_of_parent {m : K → Option V} {a b : K} {v : V} (hv : m a = some v)
    (hb : parent v = some b) : up parent m a = b := by
  rw [up, hv, bind_some, hb, getD_some]

/-- **Heights grow by one from parent to child**, and roots are at height
zero. -/
def Graded (parent : V → Option K) (height : V → Nat) (m : K → Option V) : Prop :=
  ∀ a v, m a = some v → (parent v = none ∧ height v = 0) ∨
    ∃ b w, parent v = some b ∧ m b = some w ∧ height v = height w + 1

/-- `c` is the highest common ancestor of `a` and `b`. -/
structure ForkPoint (parent : V → Option K) (height : V → Nat) (m : K → Option V) (a b c : K) :
    Prop where
  left : Ancestor parent m a c
  right : Ancestor parent m b c
  highest : ∀ d u w, Ancestor parent m a d → Ancestor parent m b d → m d = some u →
    m c = some w → height u ≤ height w

theorem ForkPoint.symm {height : V → Nat} {m : K → Option V} {a b c : K}
    (h : ForkPoint parent height m a b c) : ForkPoint parent height m b a c :=
  ⟨h.right, h.left, fun d u w hb ha => h.highest d u w ha hb⟩

namespace Graded

variable {height : V → Nat} {m : K → Option V} {a b c : K} {u v w : V}

section

variable (h : Graded parent height m)
include h

theorem closed : Closed parent m := by
  rintro a b ⟨v, hv, hb⟩
  rcases h a v hv with ⟨hnone, -⟩ | ⟨b', w, hb', hw, -⟩
  · rw [hnone] at hb
    cases hb
  · rw [mem_unique hb hb', hw]
    rfl

section

variable (hv : m a = some v)
include hv

/-- A step up lowers the height by one. -/
theorem exists_up :
    ∃ w, m (up parent m a) = some w ∧ height w = height v - 1 := by
  rcases h a v hv with ⟨hnone, hzero⟩ | ⟨b, w, hb, hw, hheight⟩
  · refine ⟨v, ?_, by omega⟩
    rw [up, hv, bind_some, hnone, getD_none, hv]
  · exact ⟨w, by rw [up_of_parent hv hb, hw], by omega⟩

theorem exists_iterate_up (n : Nat) :
    ∃ w, m ((up parent m)^[n] a) = some w ∧ height w = height v - n := by
  induction n with
  | zero => exact ⟨v, hv, rfl⟩
  | succ n ih =>
    obtain ⟨w, hw, hheight⟩ := ih
    obtain ⟨w', hw', hheight'⟩ := h.exists_up hw
    rw [iterate_succ_apply']
    exact ⟨w', hw', by omega⟩

theorem ancestor_up : Ancestor parent m a (up parent m a) := by
  rcases h a v hv with ⟨hnone, -⟩ | ⟨b, w, hb, -, -⟩
  · rw [up, hv, bind_some, hnone]
    exact Ancestor.refl a
  · rw [up_of_parent hv hb]
    exact single ⟨v, hv, hb⟩

theorem ancestor_iterate_up (n : Nat) :
    Ancestor parent m a ((up parent m)^[n] a) := by
  induction n with
  | zero => exact Ancestor.refl a
  | succ n ih =>
    obtain ⟨w, hw, -⟩ := h.exists_iterate_up hv n
    rw [iterate_succ_apply']
    exact ih.trans (h.ancestor_up hw)

/-- **An ancestor is as many steps up as it is lower.** -/
theorem ancestor_iff (hw : m b = some w) :
    Ancestor parent m a b
      ↔ height w ≤ height v ∧ (up parent m)^[height v - height w] a = b := by
  constructor
  · intro hab
    induction hab generalizing w with
    | refl =>
      obtain rfl : v = w := mem_unique hv hw
      exact ⟨Nat.le_refl _, by rw [Nat.sub_self]; rfl⟩
    | @tail b c _ hlink ih =>
      obtain ⟨u, hu, hc⟩ := hlink
      obtain ⟨hle, hup⟩ := ih hu
      rcases h b u hu with ⟨hnone, -⟩ | ⟨c', w', hc', hw', hheight⟩
      · rw [hnone] at hc
        cases hc
      · obtain rfl := mem_unique hc hc'
        obtain rfl := mem_unique hw hw'
        refine ⟨by omega, ?_⟩
        rw [show height v - height w = (height v - height u) + 1 by omega,
          iterate_succ_apply', hup, up_of_parent hu hc]
  · rintro ⟨-, rfl⟩
    exact h.ancestor_iterate_up hv _

/-- Below an ancestor, a node and the ancestor have the same ancestors. -/
theorem iterate_up_eq (hw : m b = some w) (hab : Ancestor parent m a b) {k : Nat}
    (hk : k ≤ height w) :
    (up parent m)^[height v - k] a = (up parent m)^[height w - k] b := by
  obtain ⟨hle, hup⟩ := (h.ancestor_iff hv hw).mp hab
  rw [← hup, ← iterate_add_apply]
  congr 1
  omega

end

/-- Of two ancestors of a node the lower is an ancestor of the higher. -/
theorem ancestor_of_le (hu : m a = some u) (hv : m b = some v) (hw : m c = some w)
    (hab : Ancestor parent m a b) (hac : Ancestor parent m a c) (hle : height w ≤ height v) :
    Ancestor parent m b c := by
  refine (h.ancestor_iff hv hw).mpr ⟨hle, ?_⟩
  rw [← h.iterate_up_eq hu hv hab hle]
  exact ((h.ancestor_iff hu hw).mp hac).2

/-- A stored node keeps its way to the root when the store grows. -/
theorem iterate_up_of_extends {m' : K → Option V} (he : Extends m m') (hv : m a = some v)
    (n : Nat) : (up parent m')^[n] a = (up parent m)^[n] a := by
  induction n with
  | zero => rfl
  | succ n ih =>
    obtain ⟨w, hw, -⟩ := h.exists_iterate_up hv n
    rw [iterate_succ_apply', iterate_succ_apply', ih, up, up, he _ _ hw, hw]

/-- **Two branches agree up to their fork point and differ above it.** -/
theorem iterate_up_eq_iff (hu : m a = some u) (hv : m b = some v) (hw : m c = some w)
    (hf : ForkPoint parent height m a b c) {k : Nat} (hk : k ≤ height u) :
    (up parent m)^[height u - k] a = (up parent m)^[height v - k] b ↔ k ≤ height w := by
  constructor
  · intro heq
    obtain ⟨x, hx, hheight⟩ := h.exists_iterate_up hu (height u - k)
    have hle := hf.highest _ x w (h.ancestor_iterate_up hu _)
      (heq ▸ h.ancestor_iterate_up hv _) hx hw
    omega
  · intro hle
    rw [h.iterate_up_eq hu hw hf.left hle, h.iterate_up_eq hv hw hf.right hle]

end

end Graded

/-- The last `k` nodes of the branch that ends in `a`, lowest first. -/
def path (parent : V → Option K) (m : K → Option V) : Nat → K → List K
  | 0, _ => []
  | k + 1, a => path parent m k (up parent m a) ++ [a]

/-! ## A branch indexed by height -/

/-- **The index names the branch that ends in `tip`**, from the root up to
height `n`, which is the height of `tip`. -/
def Indexes (parent : V → Option K) (m : K → Option V) (index : Nat → Option K) (tip : K)
    (n : Nat) : Prop :=
  ∀ h ≤ n, index h = some ((up parent m)^[n - h] tip)

namespace Indexes

variable {m : K → Option V} {index index' : Nat → Option K} {a b : K} {n k : Nat}

section

variable (h : Indexes parent m index a n)
include h

theorem apply_tip : index n = some a := by
  rw [h n (Nat.le_refl n), Nat.sub_self]
  rfl

theorem congr (heq : ∀ i ≤ n, index' i = index i) : Indexes parent m index' a n :=
  fun i hi => (heq i hi).trans (h i hi)

/-- A further node on top. -/
theorem succ {v : V} (hv : m b = some v) (ha : parent v = some a) (htop : index (n + 1) = some b) :
    Indexes parent m index b (n + 1) := by
  intro i hi
  rcases Nat.lt_or_eq_of_le hi with hlt | rfl
  · rw [h i (Nat.le_of_lt_succ hlt), Nat.succ_sub (Nat.le_of_lt_succ hlt),
      iterate_succ_apply, up_of_parent hv ha]
  · rw [htop, Nat.sub_self]
    rfl

/-- What is named at a height is named all the way down. -/
theorem of_apply_eq (hk : k ≤ n) (hb : index k = some b) : Indexes parent m index b k := by
  intro i hi
  rw [h i (Nat.le_trans hi hk)]
  rw [h k hk, Option.some.injEq] at hb
  rw [← hb, ← iterate_add_apply, show k - i + (n - k) = n - i by omega]

theorem of_extends {height : V → Nat} {v : V} {m' : K → Option V} (hg : Graded parent height m)
    (he : Extends m m') (hv : m a = some v) : Indexes parent m' index a n :=
  fun i hi => (h i hi).trans (congrArg some (hg.iterate_up_of_extends he hv _).symm)

end

end Indexes

end Branches
