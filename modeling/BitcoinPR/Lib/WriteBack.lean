import BitcoinPR.Lib.PartialMap

/-!
# A write-back store in three layers

A store keeps its pending writes in a **buffer** – a binding or a
tombstone per key –, a packed copy of some values in a **cache**, and the
rest on **disk**. A lookup asks the three in that order. What the store
*means* is the disk overlaid by the buffer (`Layers.contents`); the cache
is there to be fast and must never be seen.

`Layers.Coherent` is the invariant that makes the cache invisible
(`Coherent.read_eq`): a key with a pending write is not cached, and a
cached value is the packed form of the value on disk. It says nothing of
the values themselves: whether a value survives its packed form matters
only to the lookup of that value. The ways such a
store moves – recaching, writing a batch, flushing, writing past the buffer
– are given as relations between layers that fix only what a lookup can see, so that a
concrete store is free in the order it iterates, in what it evicts and in
how much it promotes.

The packing is a parameter: values that `Fits` survive the round trip
through their packed form.
-/

open PartialMap Option

/-- **A packed representation**: the values that fit come back unchanged
from their packed form. -/
structure Packing (V C : Type) where
  /-- The packed form of a value. -/
  pack : V → C
  /-- The value a packed form is read back as. -/
  unpack : C → V
  /-- The values the packed form can represent. -/
  Fits : V → Prop
  /-- Packing loses nothing of a value that fits. -/
  unpack_pack : ∀ v, Fits v → unpack (pack v) = v

/-- **The three layers**, each read as a partial map. -/
structure Layers (K V C : Type) where
  /-- Pending writes: `some none` is a tombstone. -/
  buffer : K → Option (Option V)
  /-- Packed copies of values on disk. -/
  cache : K → Option C
  /-- The durable values. -/
  disk : K → Option V

namespace Layers

variable {K V C : Type}

/-- A lookup asks the buffer, then the cache, then the disk. -/
def read (P : Packing V C) (L : Layers K V C) (k : K) : Option V :=
  match L.buffer k with
  | some v => v
  | none =>
    match L.cache k with
    | some c => some (P.unpack c)
    | none => L.disk k

/-- **What the store means**: the disk overlaid by the buffer. -/
def contents (L : Layers K V C) (k : K) : Option V :=
  (L.buffer k).getD (L.disk k)

variable {P : Packing V C} {L : Layers K V C}

/-- **Coherence**: a key with a pending write is not cached, and a cached
value is the packed value on disk. -/
structure Coherent (P : Packing V C) (L : Layers K V C) : Prop where
  disjoint : ∀ k, L.buffer k ≠ none → L.cache k = none
  backed : ∀ k c, L.cache k = some c → ∃ v, L.disk k = some v ∧ P.pack v = c

theorem Coherent.buffer_eq_none
    (h : L.Coherent P) {k : K} {c : C} (hc : L.cache k = some c) : L.buffer k = none := by
  by_contra hb
  rw [h.disjoint k hb] at hc
  cases hc

/-- **The cache is invisible**: in a coherent store the lookup of a value
that fits returns what the store means. -/
theorem Coherent.read_eq (h : L.Coherent P) {k : K}
    (hfits : ∀ v, L.contents k = some v → P.Fits v) : L.read P k = L.contents k := by
  cases hc : L.cache k with
  | none =>
    unfold read contents
    rw [hc]
    cases L.buffer k <;> rfl
  | some c =>
    have hb := h.buffer_eq_none hc
    obtain ⟨v, hd, hv⟩ := h.backed k c hc
    have hcont : L.contents k = some v := by rw [contents, hb, getD_none, hd]
    rw [read, hb, hc, hcont, ← hv]
    exact congrArg some (P.unpack_pack v (hfits v hcont))

/-- Whether a key is bound is seen rightly even when its value does not
fit. -/
theorem Coherent.isSome_read (h : L.Coherent P) (k : K) :
    (L.read P k).isSome = (L.contents k).isSome := by
  cases hc : L.cache k with
  | none =>
    unfold read contents
    rw [hc]
    cases L.buffer k <;> rfl
  | some c =>
    have hb := h.buffer_eq_none hc
    obtain ⟨v, hd, -⟩ := h.backed k c hc
    rw [read, hc, contents, hb, hd]
    rfl

/-- A key the store does not hold is not cached. -/
theorem Coherent.cache_eq_none
    (h : L.Coherent P) {k : K} (hk : L.contents k = none) : L.cache k = none := by
  cases hc : L.cache k with
  | none => rfl
  | some c =>
    obtain ⟨v, hd, -⟩ := h.backed k c hc
    rw [contents, h.buffer_eq_none hc, hd] at hk
    cases hk

/-! ## Recaching -/

/-- **Recaching** touches the cache alone: a key keeps its cached value,
loses it, or is filled from disk when nothing is pending for it. -/
structure Recache (P : Packing V C) (L L' : Layers K V C) : Prop where
  buffer : L'.buffer = L.buffer
  disk : L'.disk = L.disk
  cache : ∀ k, L'.cache k = L.cache k ∨ L'.cache k = none ∨
    (L.buffer k = none ∧ ∃ v, L.disk k = some v ∧ L'.cache k = some (P.pack v))

theorem Recache.refl (P : Packing V C) (L : Layers K V C) : Recache P L L :=
  ⟨rfl, rfl, fun _ => Or.inl rfl⟩

variable {L L' : Layers K V C}

theorem Recache.trans {L₁ L₂ L₃ : Layers K V C}
    (h : Recache P L₁ L₂) (h' : Recache P L₂ L₃) : Recache P L₁ L₃ := by
  refine ⟨h'.buffer.trans h.buffer, h'.disk.trans h.disk, fun k => ?_⟩
  rcases h'.cache k with hk | hk | hk
  · rw [hk]
    exact h.cache k
  · exact Or.inr (Or.inl hk)
  · rw [h.buffer, h.disk] at hk
    exact Or.inr (Or.inr hk)

theorem Recache.contents_eq (h : Recache P L L') : L'.contents = L.contents := by
  funext k
  rw [contents, contents, h.buffer, h.disk]

theorem Coherent.recache (h : L.Coherent P) (hr : Recache P L L') : L'.Coherent P where
  disjoint := by
    intro k hk
    rw [hr.buffer] at hk
    rcases hr.cache k with hc | hc | ⟨hb, -⟩
    · rw [hc]
      exact h.disjoint k hk
    · exact hc
    · exact absurd hb hk
  backed := by
    intro k c hc
    rw [hr.disk]
    rcases hr.cache k with hk | hk | ⟨-, v, hd, hk⟩
    · exact h.backed k c (hk ▸ hc)
    · rw [hk] at hc
      cases hc
    · rw [hk] at hc
      exact ⟨v, hd, Option.some.inj hc⟩

/-! ## Writing a batch -/

section Write

variable [DecidableEq K]

/-- The buffer after a batch: bindings first, tombstones over them. -/
def bufferWrite (b : K → Option (Option V)) (puts : List (K × V)) (dels : List K) :
    K → Option (Option V) :=
  PartialMap.putAll
    (PartialMap.putAll b (puts.map fun p => (p.1, some p.2)))
    (dels.map fun k => (k, none))

variable {dels : List K}

/-- **Writing a batch** binds `puts`, unbinds `dels` in the buffer and
drops the unbound keys from the cache. A key that is bound and stays
bound keeps whatever the cache holds for it. -/
structure Write (L : Layers K V C) (puts : List (K × V)) (dels : List K)
    (L' : Layers K V C) : Prop where
  buffer : L'.buffer = bufferWrite L.buffer puts dels
  disk : L'.disk = L.disk
  cache : ∀ k, L'.cache k = if k ∈ dels then none else L.cache k

theorem bufferWrite_of_mem_dels (b : K → Option (Option V)) (puts : List (K × V))
    {k : K} (hk : k ∈ dels) :
    bufferWrite b puts dels k = some none := by
  rw [bufferWrite, putAll_map_const (fun k => k), List.map_id', if_pos hk]

theorem bufferWrite_of_notMem_dels (b : K → Option (Option V)) (puts : List (K × V))
    {k : K} (hk : k ∉ dels) :
    bufferWrite b puts dels k
      = putAll b (puts.map fun p => (p.1, some p.2)) k := by
  rw [bufferWrite, putAll_map_const (fun k => k), List.map_id', if_neg hk]

variable {puts : List (K × V)}

/-- A pending binding after a batch is one of the batch or was pending. -/
theorem exists_of_bufferWrite {b : K → Option (Option V)}
    {k : K} {v : V} (h : bufferWrite b puts dels k = some (some v)) :
    (k, v) ∈ puts ∨ b k = some (some v) := by
  by_cases hd : k ∈ dels
  · rw [bufferWrite_of_mem_dels _ _ hd] at h
    cases h
  · rw [bufferWrite_of_notMem_dels _ _ hd] at h
    by_cases hp : k ∈ puts.map Prod.fst
    · obtain ⟨w, hw, hput⟩ := exists_putAll_of_mem (fun _ => none) hp
      rw [putAll_map_of_mem some (fun _ => none) b hp, hput] at h
      exact Or.inl (Option.some.inj (Option.some.inj h) ▸ hw)
    · rw [putAll_map_of_notMem some b hp] at h
      exact Or.inr h

/-- **A batch is a batch on the meaning**: bindings, then unbindings. -/
theorem Write.contents_eq {L L' : Layers K V C} (h : Write L puts dels L') :
    L'.contents = eraseAll (putAll L.contents puts) dels := by
  funext k
  rw [contents, h.buffer, h.disk, eraseAll_apply]
  by_cases hd : k ∈ dels
  · rw [bufferWrite_of_mem_dels _ _ hd, if_pos hd, getD_some]
  · rw [bufferWrite_of_notMem_dels _ _ hd, if_neg hd]
    by_cases hp : k ∈ puts.map Prod.fst
    · obtain ⟨v, -, hput⟩ := exists_putAll_of_mem L.contents hp
      rw [putAll_map_of_mem some L.contents _ hp, hput]
      rfl
    · rw [putAll_map_of_notMem some _ hp, putAll_of_notMem _ hp]
      rfl

/-- A batch keeps the store coherent as long as no key that stays bound
is cached: the cached value would outlive the flush of its successor. -/
theorem Coherent.write {P : Packing V C} {L L' : Layers K V C} (h : L.Coherent P)
    (hw : Write L puts dels L')
    (hfresh : ∀ k ∈ puts.map Prod.fst, k ∉ dels → L.cache k = none) :
    L'.Coherent P where
  disjoint := by
    intro k hk
    rw [hw.cache]
    by_cases hd : k ∈ dels
    · rw [if_pos hd]
    · rw [if_neg hd]
      by_cases hp : k ∈ puts.map Prod.fst
      · exact hfresh k hp hd
      · refine h.disjoint k ?_
        rwa [hw.buffer, bufferWrite_of_notMem_dels _ _ hd, putAll_map_of_notMem some _ hp] at hk
  backed := by
    intro k c hc
    rw [hw.cache] at hc
    rw [hw.disk]
    by_cases hd : k ∈ dels
    · rw [if_pos hd] at hc
      cases hc
    · exact h.backed k c (by rwa [if_neg hd] at hc)

end Write

/-! ## Flushing -/

/-- **Flushing** moves the meaning to disk and empties the buffer. A key
keeps its cached value or is promoted: which of the flushed keys are
promoted is left open. -/
structure Flush (P : Packing V C) (L L' : Layers K V C) : Prop where
  buffer : ∀ k, L'.buffer k = none
  disk : L'.disk = L.contents
  cache : ∀ k, L'.cache k = L.cache k ∨
    ∃ v, L.buffer k = some (some v) ∧ L'.cache k = some (P.pack v)

theorem Flush.contents_eq (h : Flush P L L') : L'.contents = L.contents := by
  funext k
  rw [contents, h.buffer, getD_none, h.disk]

theorem Coherent.flush (h : L.Coherent P) (hf : Flush P L L') : L'.Coherent P where
  disjoint := fun k hk => absurd (hf.buffer k) hk
  backed := by
    intro k c hc
    rw [hf.disk]
    rcases hf.cache k with hk | ⟨v, hb, hk⟩
    · rw [hk] at hc
      -- a key that kept its cached value had nothing pending
      rw [contents, h.buffer_eq_none hc]
      exact h.backed k c hc
    · refine ⟨v, ?_, Option.mem_unique hk hc⟩
      rw [contents, hb, getD_some]

/-! ## Writing through -/

section WriteThrough

variable [DecidableEq K]

/-- **Writing through** goes past the buffer: keys are deleted from the disk
and the cache, then values are put on both. -/
structure WriteThrough (P : Packing V C) (L : Layers K V C) (dels : List K)
    (puts : List (K × V)) (L' : Layers K V C) : Prop where
  buffer : L'.buffer = L.buffer
  disk : L'.disk = PartialMap.putAll (PartialMap.eraseAll L.disk dels) puts
  cache : L'.cache = PartialMap.putAll (PartialMap.eraseAll L.cache dels)
    (puts.map fun p => (p.1, P.pack p.2))

section

variable {P : Packing V C} {L L' : Layers K V C} {dels : List K} {puts : List (K × V)}
  (hb : ∀ k, L.buffer k = none)
include hb

/-- With nothing pending, writing through is the same writes on the
meaning. -/
theorem WriteThrough.contents_eq (h : WriteThrough P L dels puts L') :
    L'.contents = putAll (eraseAll L.contents dels) puts := by
  have hcont : L.contents = L.disk := by
    funext k
    rw [contents, hb, getD_none]
  funext k
  rw [contents, h.buffer, hb, getD_none, h.disk, hcont]

theorem Coherent.writeThrough (h : L.Coherent P) (hw : WriteThrough P L dels puts L') :
    L'.Coherent P where
  disjoint := fun k hk => absurd (by rw [hw.buffer, hb]) hk
  backed := by
    intro k c hc
    rw [hw.disk]
    rw [hw.cache] at hc
    by_cases hk : k ∈ puts.map Prod.fst
    · rw [putAll_map_of_mem P.pack (eraseAll L.disk dels) _ hk] at hc
      exact map_eq_some_iff.mp hc
    · rw [putAll_map_of_notMem P.pack _ hk, eraseAll_apply] at hc
      rw [putAll_of_notMem _ hk, eraseAll_apply]
      by_cases hd : k ∈ dels
      · rw [if_pos hd] at hc
        cases hc
      · rw [if_neg hd] at hc ⊢
        exact h.backed k c hc

end

end WriteThrough

end Layers
