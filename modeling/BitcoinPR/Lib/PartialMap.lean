import Mathlib.Data.List.AList
import Mathlib.Logic.Function.Basic

/-!
# Partial maps written in bulk

A store that takes its writes in batches is specified against the plain
partial map `K → Option V`: a batch binds a list of keys and then unbinds
another list. Both passes are left folds, so the last binding of a key
wins and the order inside the unbinding pass does not matter. The lemmas
say what a lookup sees afterwards, key by key, which is all that the
proofs about a concrete store ask for. Where the store is a finite map, its
insertions and deletions are these two passes.
-/

open List Function Prod

namespace PartialMap

variable {K V : Type} [DecidableEq K]

/-- Bind every entry of `l`, from left to right. -/
def putAll (m : K → Option V) (l : List (K × V)) : K → Option V :=
  l.foldl (fun m p => update m p.1 (some p.2)) m

/-- Unbind every key of `ks`. -/
def eraseAll (m : K → Option V) (ks : List K) : K → Option V :=
  ks.foldl (fun m k => update m k none) m

variable (m : K → Option V)

@[simp] theorem putAll_nil : putAll m [] = m := rfl

@[simp] theorem putAll_cons (p : K × V) (l : List (K × V)) :
    putAll m (p :: l) = putAll (update m p.1 (some p.2)) l := rfl

@[simp] theorem eraseAll_cons (k : K) (ks : List K) :
    eraseAll m (k :: ks) = eraseAll (update m k none) ks := rfl

/-- What is found where one key is bound or unbound. -/
theorem update_eq_some {m : K → Option V} {k k' : K} {v : Option V} {a : V} :
    update m k v k' = some a ↔ k' = k ∧ v = some a ∨ k' ≠ k ∧ m k' = some a := by
  by_cases h : k' = k <;> simp [h]

theorem putAll_append (l₁ l₂ : List (K × V)) :
    putAll m (l₁ ++ l₂) = putAll (putAll m l₁) l₂ :=
  foldl_append

variable {l : List (K × V)} {W ι : Type}

/-- A key the list does not bind keeps its value. -/
theorem putAll_of_notMem {k : K} (h : k ∉ l.map fst) : putAll m l k = m k := by
  induction l generalizing m with
  | nil => rfl
  | cons p l ih =>
    rw [map_cons, mem_cons, not_or] at h
    rw [putAll_cons, ih _ h.2, update_of_ne h.1]

/-- A key the list binds reads one of the values bound to it. -/
theorem exists_putAll_of_mem {k : K} (h : k ∈ l.map fst) :
    ∃ v, (k, v) ∈ l ∧ putAll m l k = some v := by
  induction l generalizing m with
  | nil => cases h
  | cons p l ih =>
    by_cases hl : k ∈ l.map fst
    · obtain ⟨v, hv, hput⟩ := ih (update m p.1 (some p.2)) hl
      exact ⟨v, mem_cons_of_mem p hv, hput⟩
    · have hk : k = p.1 := by simpa [hl] using h
      subst hk
      refine ⟨p.2, mem_cons_self, ?_⟩
      rw [putAll_cons, putAll_of_notMem _ hl, update_self]

/-- What is found after a list was bound is one of its entries, or was there
before. -/
theorem putAll_eq_some {m : K → Option V} {k : K} {v : V} (h : putAll m l k = some v) :
    (k, v) ∈ l ∨ k ∉ l.map fst ∧ m k = some v := by
  by_cases hk : k ∈ l.map fst
  · obtain ⟨w, hw, hput⟩ := exists_putAll_of_mem m hk
    exact Or.inl (Option.mem_unique hput h ▸ hw)
  · exact Or.inr ⟨hk, putAll_of_notMem m hk ▸ h⟩

/-- What a list alone binds is one of its entries. -/
theorem mem_of_putAll_none {k : K} {v : V}
    (h : putAll (fun _ => none) l k = some v) : (k, v) ∈ l :=
  (putAll_eq_some h).resolve_right fun hnone => by cases hnone.2

theorem isSome_putAll {k : K} :
    (putAll m l k).isSome ↔ k ∈ l.map fst ∨ (m k).isSome := by
  by_cases h : k ∈ l.map fst
  · obtain ⟨v, -, hv⟩ := exists_putAll_of_mem m h
    exact iff_of_true (by rw [hv]; rfl) (Or.inl h)
  · rw [putAll_of_notMem m h]
    exact (or_iff_right h).symm

/-- Values bound in another form. -/
theorem putAll_map_of_mem (f : V → W) (m : K → Option V) (c : K → Option W) {k : K}
    (h : k ∈ l.map fst) :
    putAll c (l.map fun p => (p.1, f p.2)) k = (putAll m l k).map f := by
  induction l generalizing m c with
  | nil => cases h
  | cons p l ih =>
    by_cases hl : k ∈ l.map fst
    · exact ih _ _ hl
    · have hk : k = p.1 := by simpa [hl] using h
      subst hk
      have hl' : p.1 ∉ (l.map fun p => (p.1, f p.2)).map fst := by
        rw [List.map_map]
        exact hl
      rw [map_cons, putAll_cons, putAll_cons, putAll_of_notMem _ hl, putAll_of_notMem _ hl',
        update_self, update_self]
      rfl

/-- What a bound key reads does not depend on the map written over. -/
theorem putAll_eq_of_mem (m' : K → Option V) {k : K} (h : k ∈ l.map fst) :
    putAll m l k = putAll m' l k := by
  simpa using putAll_map_of_mem id m' m h

/-- Bulk binding read pointwise: what the list binds, else the old value. -/
theorem putAll_apply (l : List (K × V)) (k : K) :
    putAll m l k = (putAll (fun _ => none) l k).or (m k) := by
  by_cases h : k ∈ l.map fst
  · obtain ⟨v, -, hv⟩ := exists_putAll_of_mem (fun _ => none) h
    rw [putAll_eq_of_mem m (fun _ => none) h, hv, Option.some_or]
  · rw [putAll_of_notMem _ h, putAll_of_notMem _ h, Option.none_or]

/-- Bulk unbinding read pointwise. -/
theorem eraseAll_apply (ks : List K) (k : K) :
    eraseAll m ks k = if k ∈ ks then none else m k := by
  induction ks generalizing m with
  | nil => exact (if_neg not_mem_nil).symm
  | cons a ks ih =>
    rw [eraseAll_cons, ih]
    by_cases hks : k ∈ ks
    · simp [hks]
    · by_cases ha : k = a
      · subst ha
        simp
      · simp [hks, ha]

/-- What is found after a bulk binding and a bulk unbinding. -/
theorem eraseAll_putAll_eq_some {m : K → Option V} {ks : List K} {k : K} {v : V}
    (h : eraseAll (putAll m l) ks k = some v) : (k, v) ∈ l ∨ m k = some v := by
  rw [eraseAll_apply] at h
  split at h
  · cases h
  · exact (putAll_eq_some h).imp_right And.right

theorem putAll_map_of_notMem (f : V → W) (c : K → Option W) {k : K} (h : k ∉ l.map Prod.fst) :
    putAll c (l.map fun p => (p.1, f p.2)) k = c k := by
  refine putAll_of_notMem c ?_
  rw [List.map_map]
  exact h

/-- One value bound to many keys. -/
theorem putAll_map_const (f : ι → K) (v : V) (m : K → Option V) (l : List ι) (k : K) :
    putAll m (l.map fun i => (f i, v)) k = if k ∈ l.map f then some v else m k := by
  have hkeys : (l.map fun i => (f i, v)).map fst = l.map f := map_map
  split
  · rename_i h
    obtain ⟨w, hw, hput⟩ := exists_putAll_of_mem m (hkeys ▸ h)
    obtain ⟨i, -, hi⟩ := mem_map.mp hw
    rw [hput, ← (mk.inj hi).2]
  · rename_i h
    exact putAll_of_notMem m (hkeys ▸ h)

/-- Insertions into a finite map, one after the other, are a bulk binding. -/
theorem lookup_foldl_insert (f : ι → K) (g : ι → V) (m : AList fun _ : K => V) (l : List ι) :
    (fun k => (l.foldl (fun m i => m.insert (f i) (g i)) m).lookup k)
      = putAll (fun k => m.lookup k) (l.map fun i => (f i, g i)) := by
  induction l generalizing m with
  | nil => rfl
  | cons i l ih =>
    rw [foldl_cons, ih, map_cons, putAll_cons]
    congr 1
    funext k
    by_cases hk : k = f i
    · rw [hk, update_self, AList.lookup_insert]
    · rw [update_of_ne hk, AList.lookup_insert_ne hk]

/-- Deletions from a finite map, one after the other. -/
theorem lookup_foldl_erase (f : ι → K) (m : AList fun _ : K => V) (l : List ι) (k : K) :
    (l.foldl (fun m i => m.erase (f i)) m).lookup k
      = if k ∈ l.map f then none else m.lookup k := by
  induction l generalizing m with
  | nil => rfl
  | cons i l ih =>
    rw [foldl_cons, ih]
    by_cases hk : k = f i
    · rw [hk, AList.lookup_erase, ite_self, map_cons, if_pos mem_cons_self]
    · rw [AList.lookup_erase_ne hk]
      simp only [map_cons, mem_cons, hk, false_or]

end PartialMap
