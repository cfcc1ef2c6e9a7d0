import Mathlib.Data.List.Lex
import Mathlib.Data.List.Pairwise
import Mathlib.Data.List.Dedup
import Mathlib.Order.Lattice

/-!
# Maps kept in the order of their keys

A store that keeps its keys sorted is a list of entries, each key above the one
before it. An entry is put where its key belongs, over one with the same key.
What such a store is for is the *scan*: start at a key and read on for as long as
the keys are wanted. If the wanted keys are not interrupted by others, the scan
gives every wanted entry, in the order of the keys (`scan_eq_filter`).

Keys are often byte strings, compared byte by byte. Strings with a common
beginning are not interrupted by others (`isPrefix_of_between`).
-/

open List

/-- **A map sorted by its keys.** -/
structure OrderedMap (K V : Type) [LinearOrder K] where
  entries : List (K × V)
  sorted : entries.Pairwise fun p q => p.1 < q.1

namespace OrderedMap

variable {K V : Type} [LinearOrder K]

/-- No entries. -/
def empty : OrderedMap K V := ⟨[], List.Pairwise.nil⟩

variable {l : List (K × V)} {q : K × V}

/-- Put an entry where it belongs. -/
def insertEntry (k : K) (v : V) : List (K × V) → List (K × V)
  | [] => [(k, v)]
  | p :: l =>
    if k < p.1 then (k, v) :: p :: l
    else if k = p.1 then (k, v) :: l
    else p :: insertEntry k v l

theorem mem_insertEntry_of_sorted {k : K} {v : V} (hl : l.Pairwise fun p q => p.1 < q.1) :
    q ∈ insertEntry k v l ↔ q = (k, v) ∨ (q.1 ≠ k ∧ q ∈ l) := by
  induction l with
  | nil => simp [insertEntry]
  | cons p l ih =>
    obtain ⟨hp, hl⟩ := pairwise_cons.mp hl
    unfold insertEntry
    by_cases hlt : k < p.1
    · -- every key of the list is above
      have habove : ∀ q ∈ p :: l, q.1 ≠ k := by
        rintro q hq rfl
        rcases mem_cons.mp hq with rfl | hq
        · exact lt_irrefl _ hlt
        · exact lt_asymm hlt (hp q hq)
      rw [if_pos hlt, mem_cons]
      exact or_congr_right ⟨fun hq => ⟨habove q hq, hq⟩, And.right⟩
    · by_cases heq : k = p.1
      · rw [if_neg hlt, if_pos heq, mem_cons, mem_cons]
        refine or_congr_right ⟨fun hq => ⟨?_, Or.inr hq⟩, ?_⟩
        · rintro rfl
          exact (hp q hq).ne heq.symm
        · rintro ⟨hne, rfl | hq⟩
          · exact absurd heq.symm hne
          · exact hq
      · rw [if_neg hlt, if_neg heq, mem_cons, mem_cons, ih hl]
        constructor
        · rintro (rfl | hq | ⟨hne, hq⟩)
          · exact Or.inr ⟨Ne.symm heq, Or.inl rfl⟩
          · exact Or.inl hq
          · exact Or.inr ⟨hne, Or.inr hq⟩
        · rintro (hq | ⟨hne, hq | hq⟩)
          · exact Or.inr (Or.inl hq)
          · exact Or.inl hq
          · exact Or.inr (Or.inr ⟨hne, hq⟩)

theorem sorted_insertEntry (k : K) (v : V) (hl : l.Pairwise fun p q => p.1 < q.1) :
    (insertEntry k v l).Pairwise fun p q => p.1 < q.1 := by
  induction l with
  | nil => exact pairwise_singleton _ _
  | cons p l ih =>
    obtain ⟨hp, hl'⟩ := pairwise_cons.mp hl
    unfold insertEntry
    by_cases hlt : k < p.1
    · rw [if_pos hlt]
      refine pairwise_cons.mpr ⟨fun q hq => ?_, hl⟩
      rcases mem_cons.mp hq with rfl | hq
      · exact hlt
      · exact hlt.trans (hp q hq)
    · by_cases heq : k = p.1
      · rw [if_neg hlt, if_pos heq]
        exact pairwise_cons.mpr ⟨fun q hq => heq ▸ hp q hq, hl'⟩
      · rw [if_neg hlt, if_neg heq]
        refine pairwise_cons.mpr ⟨fun q hq => ?_, ih hl'⟩
        rcases (mem_insertEntry_of_sorted hl').mp hq with rfl | ⟨-, hq⟩
        · exact lt_of_le_of_ne (le_of_not_gt hlt) (Ne.symm heq)
        · exact hp q hq

variable {m : OrderedMap K V}

/-- Put an entry, over one with the same key. -/
def put (m : OrderedMap K V) (k : K) (v : V) : OrderedMap K V :=
  ⟨insertEntry k v m.entries, sorted_insertEntry k v m.sorted⟩

theorem mem_put {k : K} {v : V} :
    q ∈ (m.put k v).entries ↔ q = (k, v) ∨ (q.1 ≠ k ∧ q ∈ m.entries) :=
  mem_insertEntry_of_sorted m.sorted

/-- Put many entries, one after the other. -/
def putAll (m : OrderedMap K V) (l : List (K × V)) : OrderedMap K V :=
  l.foldl (fun m p => m.put p.1 p.2) m

/-- **What is there after many entries were put**, if they agree on every key:
these, and what was there under other keys. -/
theorem mem_putAll (hl : ∀ p ∈ l, ∀ q ∈ l, p.1 = q.1 → p = q) :
    q ∈ (m.putAll l).entries ↔ q ∈ l ∨ (q.1 ∉ l.map Prod.fst ∧ q ∈ m.entries) := by
  induction l generalizing m with
  | nil => simp [putAll]
  | cons p l ih =>
    have hl' : ∀ x ∈ l, ∀ y ∈ l, x.1 = y.1 → x = y := fun x hx y hy =>
      hl x (mem_cons_of_mem p hx) y (mem_cons_of_mem p hy)
    show q ∈ ((m.put p.1 p.2).putAll l).entries ↔ _
    rw [ih hl', mem_put, mem_cons, map_cons, mem_cons, not_or]
    constructor
    · rintro (hq | ⟨hkey, rfl | ⟨hne, hq⟩⟩)
      · exact Or.inl (Or.inr hq)
      · exact Or.inl (Or.inl rfl)
      · exact Or.inr ⟨⟨hne, hkey⟩, hq⟩
    · rintro ((rfl | hq) | ⟨⟨hne, hkey⟩, hq⟩)
      · -- it may be put again, and is then the same
        by_cases hkey : q.1 ∈ l.map Prod.fst
        · obtain ⟨x, hx, hxq⟩ := mem_map.mp hkey
          exact Or.inl (hl x (mem_cons_of_mem q hx) q mem_cons_self hxq ▸ hx)
        · exact Or.inr ⟨hkey, Or.inl rfl⟩
      · exact Or.inl hq
      · exact Or.inr ⟨hkey, Or.inr ⟨hne, hq⟩⟩

/-- What is there was put or was there before. -/
theorem mem_or_mem_of_mem_putAll (h : q ∈ (m.putAll l).entries) : q ∈ l ∨ q ∈ m.entries := by
  induction l generalizing m with
  | nil => exact Or.inr h
  | cons p l ih =>
    rcases ih h with hq | hq
    · exact Or.inl (mem_cons_of_mem p hq)
    · rcases mem_put.mp hq with rfl | ⟨-, hq⟩
      · exact Or.inl mem_cons_self
      · exact Or.inr hq

/-! ## Scans -/

/-- The entries from a key on, as long as their keys are wanted. -/
def scan (m : OrderedMap K V) (lo : K) (wanted : K → Bool) : List (K × V) :=
  (m.entries.dropWhile fun p => p.1 < lo).takeWhile fun p => wanted p.1

/-- Where nothing wanted follows what is not, reading on gives all there is. -/
theorem takeWhile_eq_filter {α : Type} {wanted : α → Bool} {l : List α}
    (h : l.Pairwise fun a b => wanted b = true → wanted a = true) :
    l.takeWhile wanted = l.filter wanted := by
  induction l with
  | nil => rfl
  | cons a l ih =>
    obtain ⟨ha, hl⟩ := pairwise_cons.mp h
    by_cases hw : wanted a = true
    · rw [takeWhile_cons_of_pos hw, filter_cons_of_pos hw, ih hl]
    · rw [takeWhile_cons_of_neg hw, filter_cons_of_neg hw, eq_comm, filter_eq_nil_iff]
      exact fun b hb hwb => hw (ha b hb hwb)

/-- Dropping what is not wanted loses nothing. -/
theorem filter_dropWhile {α : Type} {skip wanted : α → Bool} {l : List α}
    (h : ∀ a ∈ l, skip a = true → ¬ wanted a = true) :
    (l.dropWhile skip).filter wanted = l.filter wanted := by
  induction l with
  | nil => rfl
  | cons a l ih =>
    by_cases hs : skip a = true
    · rw [dropWhile_cons_of_pos hs, filter_cons_of_neg (h a mem_cons_self hs)]
      exact ih fun b hb => h b (mem_cons_of_mem a hb)
    · rw [dropWhile_cons_of_neg hs]

/-- Past the start, no key is below it. -/
theorem le_of_mem_dropWhile {lo : K} (hl : l.Pairwise fun p q => p.1 < q.1)
    (hq : q ∈ l.dropWhile fun p => p.1 < lo) : lo ≤ q.1 := by
  induction l with
  | nil => cases hq
  | cons p l ih =>
    obtain ⟨hp, hl⟩ := pairwise_cons.mp hl
    by_cases hlt : p.1 < lo
    · exact ih hl (by simpa only [dropWhile_cons, hlt, decide_true, if_true] using hq)
    · have hle := le_of_not_gt hlt
      rw [dropWhile_cons] at hq
      simp only [hlt, decide_false, Bool.false_eq_true, if_false] at hq
      rcases mem_cons.mp hq with rfl | hq
      · exact hle
      · exact hle.trans (hp q hq).le

/-- **A scan gives every wanted entry**, if wanted keys are not below its start
and are not interrupted. -/
theorem scan_eq_filter (m : OrderedMap K V) {lo : K} {wanted : K → Bool}
    (hlo : ∀ p ∈ m.entries, wanted p.1 = true → lo ≤ p.1)
    (hconvex : ∀ p ∈ m.entries, ∀ q ∈ m.entries, lo ≤ p.1 → p.1 < q.1 → wanted q.1 = true →
      wanted p.1 = true) :
    m.scan lo wanted = m.entries.filter fun p => wanted p.1 := by
  have hsub := dropWhile_sublist (fun p : K × V => decide (p.1 < lo)) (l := m.entries)
  have hpairs : (m.entries.dropWhile fun p => p.1 < lo).Pairwise
      fun p q => wanted q.1 = true → wanted p.1 = true := by
    refine (m.sorted.sublist hsub).imp_of_mem fun hp hq hlt => ?_
    exact hconvex _ (hsub.subset hp) _ (hsub.subset hq) (le_of_mem_dropWhile m.sorted hp) hlt
  unfold scan
  rw [takeWhile_eq_filter hpairs]
  refine filter_dropWhile fun p hp hskip hw => ?_
  exact not_lt_of_ge (hlo p hp hw) (of_decide_eq_true hskip)

end OrderedMap

/-! ## Byte strings as keys -/

namespace ByteOrder

/-- Bytes are compared as numbers. -/
scoped instance instLinearOrderByte : LinearOrder UInt8 where
  le_refl := UInt8.le_refl
  le_trans _ _ _ := UInt8.le_trans
  le_antisymm _ _ := UInt8.le_antisymm
  le_total := UInt8.le_total
  lt_iff_le_not_ge a b := by
    rw [UInt8.lt_iff_toNat_lt, UInt8.le_iff_toNat_le, UInt8.le_iff_toNat_le]
    omega
  toDecidableLE := inferInstance
  toDecidableEq := inferInstance
  toDecidableLT := inferInstance

end ByteOrder

namespace OrderedMap

variable {α : Type} [LinearOrder α]

/-- A string is not above one it begins. -/
theorem not_lt_of_isPrefix {p k : List α} (h : p <+: k) : ¬ k < p := by
  obtain ⟨t, rfl⟩ := h
  induction p with
  | nil => exact not_lt_nil t
  | cons a p ih =>
    intro hlt
    obtain hlt | ⟨-, hlt⟩ := cons_lt_cons_iff.mp hlt
    · exact lt_irrefl a hlt
    · exact ih hlt

/-- **Strings with a common beginning are not interrupted**: what lies between
the beginning and a string with it has it too, unless it is shorter. -/
theorem isPrefix_of_between {p a b : List α} (hlen : p.length ≤ a.length) (hpa : ¬ a < p)
    (hab : ¬ b < a) (hb : p <+: b) : p <+: a := by
  induction p generalizing a b with
  | nil => exact nil_prefix
  | cons x p ih =>
    obtain ⟨t, rfl⟩ := hb
    cases a with
    | nil => cases hlen
    | cons y a =>
      rw [cons_lt_cons_iff, not_or, not_and] at hpa
      rw [cons_append, cons_lt_cons_iff, not_or, not_and] at hab
      -- the first bytes can only be equal
      obtain rfl : x = y := le_antisymm (not_lt.mp hpa.1) (not_lt.mp hab.1)
      exact cons_prefix_cons.mpr ⟨rfl, ih (Nat.le_of_succ_le_succ hlen) (hpa.2 rfl)
        (hab.2 rfl) (prefix_append p t)⟩

end OrderedMap
