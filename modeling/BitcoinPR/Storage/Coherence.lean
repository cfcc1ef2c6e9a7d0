import BitcoinPR.Storage.UtxoSet

/-!
# The UTXO set against a plain map

The store is an instance of the write-back layers: the buffer, the cache
and the parsed disk are the three layers of `UtxoSet.layers`, and every
operation is one of the moves of the general theory – lookups, prefetches
and evictions recache, a batch writes, a flush flushes. Reading the store
as its contents (`UtxoSet.view`), the whole run of a store is then a run
of batches on a plain map.

The one move the general theory makes conditional is the write: a batch
leaves the cached copy of an outpoint it overwrites in place, and when the
cache is full the next flush does not replace it either. A run keeps the
cache invisible as long as no batch overwrites an outpoint that is cached
at that moment.
-/

open PartialMap List UtxoDb AList UtxoEntry CompactCoin

namespace UtxoSet

/-- The store as write-back layers. -/
def layers (s : UtxoSet) : Layers OutPoint UtxoEntry CompactCoin where
  buffer o := s.writeBuffer.entries.lookup o
  cache o := s.cache.lookup o
  disk := s.db.coin

/-- What the store holds: the disk overlaid by the write buffer. -/
def view (s : UtxoSet) : OutPoint → Option UtxoEntry := s.layers.contents

/-- **Soundness of a store**: what is on disk parses, what is pending can be
written, and the layers are coherent. -/
structure Sound (s : UtxoSet) : Prop where
  disk : s.db.WellFormed
  pending : ∀ o e, s.writeBuffer.entries.lookup o = some (some e) → e.Serializable
  coherent : s.layers.Coherent coinPacking

/-- Every coin the store holds survives the cache. -/
def Compact (s : UtxoSet) : Prop := ∀ o e, s.view o = some e → e.height < 2 ^ 31

@[simp] theorem layers_buffer (s : UtxoSet) (o : OutPoint) :
    s.layers.buffer o = s.writeBuffer.entries.lookup o := rfl

@[simp] theorem layers_cache (s : UtxoSet) (o : OutPoint) :
    s.layers.cache o = s.cache.lookup o := rfl

@[simp] theorem layers_disk (s : UtxoSet) : s.layers.disk = s.db.coin := rfl

end UtxoSet

/-! ## What is on disk -/

namespace UtxoDb

variable {db : UtxoDb}

/-- A well-formed disk reads back the coin it stores. -/
theorem WellFormed.coin_eq (h : db.WellFormed) {o : OutPoint} {data : Bytes}
    (hd : db.utxo o = some data) :
    ∃ e : UtxoEntry, e.Serializable ∧ data = e.serialize
      ∧ deserialize data = .ok e ∧ db.coin o = some e := by
  obtain ⟨e, he, rfl⟩ := h o data hd
  have hdes := deserialize_serialize he
  refine ⟨e, he, rfl, hdes, ?_⟩
  rw [coin, hd, Option.bind_some, hdes]
  rfl

theorem WellFormed.coin_isSome (h : db.WellFormed) (o : OutPoint) :
    (db.coin o).isSome = (db.utxo o).isSome := by
  cases hd : db.utxo o with
  | none => rw [coin, hd]; rfl
  | some data =>
    obtain ⟨e, -, -, -, he⟩ := h.coin_eq hd
    rw [he]
    rfl

theorem coin_of_utxo {o : OutPoint} {e : UtxoEntry} (he : e.Serializable)
    (hd : db.utxo o = some e.serialize) : db.coin o = some e := by
  rw [coin, hd, Option.bind_some, deserialize_serialize he]
  rfl

theorem Storable.wellFormed (h : db.Storable) : db.WellFormed := by
  intro o data hd
  obtain ⟨e, he, hdata⟩ := h o data hd
  exact ⟨e, he.serializable, hdata⟩

end UtxoDb

namespace UtxoSet

/-! ## Lookups, prefetches, evictions -/

/-- **Recached**: only the cache differs, in a way that lookups do not
see. -/
structure Recached (s s' : UtxoSet) : Prop where
  db : s'.db = s.db
  writeBuffer : s'.writeBuffer = s.writeBuffer
  cacheCapacity : s'.cacheCapacity = s.cacheCapacity
  writeBufferBudget : s'.writeBufferBudget = s.writeBufferBudget
  layers : Layers.Recache coinPacking s.layers s'.layers

theorem Recached.refl (s : UtxoSet) : Recached s s :=
  ⟨rfl, rfl, rfl, rfl, Layers.Recache.refl _ _⟩

theorem Recached.trans {s₁ s₂ s₃ : UtxoSet} (h : Recached s₁ s₂) (h' : Recached s₂ s₃) :
    Recached s₁ s₃ :=
  ⟨h'.db.trans h.db, h'.writeBuffer.trans h.writeBuffer, h'.cacheCapacity.trans h.cacheCapacity,
    h'.writeBufferBudget.trans h.writeBufferBudget, h.layers.trans h'.layers⟩

theorem Recached.view_eq {s s' : UtxoSet} (h : Recached s s') : s'.view = s.view :=
  h.layers.contents_eq

theorem Sound.recached {s s' : UtxoSet} (h : s.Sound) (hr : Recached s s') : s'.Sound :=
  ⟨hr.db ▸ h.disk, hr.writeBuffer ▸ h.pending, h.coherent.recache hr.layers⟩

theorem Compact.recached {s s' : UtxoSet} (h : s.Compact) (hr : Recached s s') :
    s'.Compact := by
  unfold Compact
  rw [hr.view_eq]
  exact h

variable {s : UtxoSet} {o : OutPoint}

/-- Caching a coin as it is on disk. -/
theorem recached_insert {e : UtxoEntry}
    (hb : s.writeBuffer.entries.lookup o = none) (hd : s.db.coin o = some e) :
    Recached s { s with cache := s.cache.insert o (new e) } := by
  refine ⟨rfl, rfl, rfl, rfl, rfl, rfl, fun k => ?_⟩
  by_cases hk : k = o
  · subst hk
    exact Or.inr (Or.inr ⟨hb, e, hd, lookup_insert s.cache⟩)
  · exact Or.inl (lookup_insert_ne hk)

/-- Dropping a cached coin. -/
theorem recached_erase (s : UtxoSet) (o : OutPoint) :
    Recached s { s with cache := s.cache.erase o } := by
  refine ⟨rfl, rfl, rfl, rfl, rfl, rfl, fun k => ?_⟩
  by_cases hk : k = o
  · subst hk
    exact Or.inr (Or.inl (lookup_erase k s.cache))
  · exact Or.inl (lookup_erase_ne hk)

theorem recached_get (o : OutPoint) : Recached s (s.get o).2 := by
  unfold get
  cases hb : s.writeBuffer.entries.lookup o with
  | some v => exact Recached.refl s
  | none =>
    cases hc : s.cache.lookup o with
    | some c => exact Recached.refl s
    | none =>
      cases hd : s.db.utxo o with
      | none => exact Recached.refl s
      | some data =>
        cases hp : deserialize data with
        | error e =>
          simp only [hp]
          exact Recached.refl s
        | ok e =>
          simp only [hp]
          refine recached_insert hb ?_
          rw [coin, hd, Option.bind_some, hp]
          rfl

/-- A lookup reads the layers. -/
theorem Sound.get_eq_read (h : s.Sound) (o : OutPoint) :
    (s.get o).1 = .ok (s.layers.read coinPacking o) := by
  unfold get Layers.read
  rw [layers_buffer, layers_cache, layers_disk]
  cases hb : s.writeBuffer.entries.lookup o with
  | some v => rfl
  | none =>
    cases hc : s.cache.lookup o with
    | some c => rfl
    | none =>
      cases hd : s.db.utxo o with
      | none =>
        simp only [coin, hd]
        rfl
      | some data =>
        obtain ⟨e, -, -, hp, hcoin⟩ := h.disk.coin_eq hd
        simp only [hp, hcoin]

/-- **A lookup returns what the store holds.** -/
theorem Sound.get_eq (h : s.Sound)
    (hc : ∀ e, s.view o = some e → e.height < 2 ^ 31) : (s.get o).1 = .ok (s.view o) := by
  rw [h.get_eq_read, h.coherent.read_eq hc]
  rfl

/-- **Containment is what the store holds.** -/
theorem Sound.contains_eq (h : s.Sound) (o : OutPoint) :
    s.contains o = (s.view o).isSome := by
  rw [view, ← h.coherent.isSome_read o]
  unfold contains Layers.read
  rw [layers_buffer, layers_cache]
  cases hb : s.writeBuffer.entries.lookup o with
  | some v => rfl
  | none =>
    cases hc : s.cache.lookup o with
    | some c => rfl
    | none => exact (h.disk.coin_isSome o).symm

theorem fillCache_cons_of_none (hd : s.db.coin o = none)
    (os : List OutPoint) : s.fillCache (o :: os) = s.fillCache os := by
  simp only [fillCache, foldl_cons, hd]

theorem fillCache_cons_of_some {e : UtxoEntry} (hd : s.db.coin o = some e) (os : List OutPoint) :
    s.fillCache (o :: os)
      = fillCache { s with cache := s.cache.insert o (new e) } os := by
  simp only [fillCache, foldl_cons, hd]

theorem recached_fillCache {os : List OutPoint}
    (hb : ∀ o ∈ os, s.writeBuffer.entries.lookup o = none) :
    Recached s (s.fillCache os) := by
  induction os generalizing s with
  | nil => exact Recached.refl s
  | cons o os ih =>
    have hos : ∀ o ∈ os, s.writeBuffer.entries.lookup o = none := fun o' ho' =>
      hb o' (mem_cons_of_mem o ho')
    cases hd : s.db.coin o with
    | none =>
      rw [fillCache_cons_of_none hd]
      exact ih hos
    | some e =>
      rw [fillCache_cons_of_some hd]
      refine (recached_insert (hb o mem_cons_self) hd).trans ?_
      exact ih (s := { s with cache := s.cache.insert o (new e) }) hos

theorem recached_prefetch (s : UtxoSet) (os : List OutPoint) :
    Recached s (s.prefetch os) := by
  refine recached_fillCache fun o ho => ?_
  rw [mem_filter, Bool.and_eq_true, Option.isNone_iff_eq_none] at ho
  exact ho.2.1

/-- A prefetch caches only what it is asked for. -/
theorem lookup_prefetch_of_notMem (s : UtxoSet) {os : List OutPoint}
    (ho : o ∉ os) : (s.prefetch os).cache.lookup o = s.cache.lookup o := by
  have hfill : ∀ (l : List OutPoint) (t : UtxoSet), o ∉ l →
      (t.fillCache l).cache.lookup o = t.cache.lookup o := by
    intro l
    induction l with
    | nil => exact fun t _ => rfl
    | cons o' l ih =>
      intro t hl
      rw [mem_cons, not_or] at hl
      cases hd : t.db.coin o' with
      | none => rw [fillCache_cons_of_none hd, ih _ hl.2]
      | some e =>
        rw [fillCache_cons_of_some hd, ih _ hl.2]
        exact lookup_insert_ne hl.1
  exact hfill _ _ fun h => ho (mem_filter.mp h).1

theorem recached_foldl_erase (s : UtxoSet) (os : List OutPoint) :
    Recached s { s with cache := os.foldl (fun c o => c.erase o) s.cache } := by
  induction os generalizing s with
  | nil => exact Recached.refl s
  | cons o os ih =>
    exact (recached_erase s o).trans (ih { s with cache := s.cache.erase o })

theorem recached_maybeEvictCache (s : UtxoSet) (ρ : MapOrder) :
    Recached s (s.maybeEvictCache ρ) := by
  unfold maybeEvictCache
  split
  · exact Recached.refl s
  · exact recached_foldl_erase s _

end UtxoSet

/-! ## Batches -/

namespace WriteBuffer

/-- A batch on the write buffer is the batch on its lookups. -/
theorem lookup_applyBatch (wb : WriteBuffer) (b : UtxoBatch) :
    (fun k => (wb.applyBatch b).entries.lookup k)
      = Layers.bufferWrite (fun k => wb.entries.lookup k) b.inserts b.removals := by
  have hinserts : (b.inserts.foldl insert wb).entries
      = b.inserts.foldl (fun m p => m.insert p.1 (some p.2)) wb.entries :=
    (foldl_hom entries fun _ _ => rfl).symm
  have hentries : (wb.applyBatch b).entries = b.removals.foldl (fun m o => m.insert o none)
      (b.inserts.foldl insert wb).entries := (foldl_hom entries fun _ _ => rfl).symm
  rw [hentries, lookup_foldl_insert (fun o => o), hinserts, lookup_foldl_insert]
  rfl

/-- What neither an insert nor a tombstone changes, a batch does not change. -/
theorem applyBatch_keeps {β : Type*} {f : WriteBuffer → β}
    (hinsert : ∀ wb p, f (wb.insert p) = f wb) (hremove : ∀ wb o, f (wb.remove o) = f wb)
    (hcount : ∀ wb n, f { wb with blocksSinceFlush := n } = f wb)
    (wb : WriteBuffer) (b : UtxoBatch) : f (wb.applyBatch b) = f wb := by
  have hinserts : f (b.inserts.foldl insert wb) = f wb :=
    foldlRecOn (motive := fun wb' => f wb' = f wb) b.inserts insert rfl
      fun wb' h p _ => (hinsert wb' p).trans h
  have hremovals : f (b.removals.foldl remove (b.inserts.foldl insert wb)) = f wb :=
    foldlRecOn (motive := fun wb' => f wb' = f wb) b.removals remove hinserts
      fun wb' h o _ => (hremove wb' o).trans h
  exact (hcount _ _).trans hremovals

variable {ρ : IterOrder OutPoint} {wb : WriteBuffer}

/-- An entry is iterated exactly when it is pending. -/
theorem mem_iter {o : OutPoint}
    {v : Option UtxoEntry} : (o, v) ∈ wb.iter ρ ↔ wb.entries.lookup o = some v := by
  constructor
  · intro h
    obtain ⟨k, -, hk⟩ := mem_filterMap.mp h
    obtain ⟨w, hw, hkw⟩ := Option.map_eq_some_iff.mp hk
    obtain ⟨rfl, rfl⟩ := Prod.mk.inj hkw
    exact hw
  · intro h
    refine mem_filterMap.mpr ⟨o, ?_, by rw [h]; rfl⟩
    rw [IterOrder.mem_order]
    exact mem_keys.mp (lookup_isSome.mp (by rw [h]; rfl))

theorem mem_pendingInserts {o : OutPoint}
    {e : UtxoEntry} : (o, e) ∈ wb.pendingInserts ρ ↔ wb.entries.lookup o = some (some e) := by
  rw [pendingInserts, mem_filterMap, ← mem_iter (ρ := ρ)]
  constructor
  · rintro ⟨⟨k, v⟩, hkv, hv⟩
    obtain ⟨w, hw, hkw⟩ := Option.map_eq_some_iff.mp hv
    obtain ⟨rfl, rfl⟩ := Prod.mk.inj hkw
    simp only at hw
    rwa [hw] at hkv
  · intro h
    exact ⟨(o, some e), h, rfl⟩

theorem mem_pendingDeletions {o : OutPoint} :
    o ∈ wb.pendingDeletions ρ ↔ wb.entries.lookup o = some none := by
  rw [pendingDeletions, mem_filterMap, ← mem_iter (ρ := ρ)]
  constructor
  · rintro ⟨⟨k, v⟩, hkv, hv⟩
    cases v with
    | none =>
      obtain rfl := Option.some.inj hv
      exact hkv
    | some e => cases hv
  · intro h
    exact ⟨(o, none), h, rfl⟩

end WriteBuffer

namespace UtxoSet

/-- Buffering a batch is a write of the layers. -/
theorem write_bufferBatch (s : UtxoSet) (b : UtxoBatch) :
    Layers.Write s.layers b.inserts b.removals (s.bufferBatch b).layers where
  buffer := s.writeBuffer.lookup_applyBatch b
  disk := rfl
  cache := fun k => by
    have herase := PartialMap.lookup_foldl_erase id s.cache b.removals k
    rwa [map_id] at herase

/-- What a batch needs of the store it is applied to: its coins can be
written, and the outpoints it leaves bound are not cached. -/
structure Applicable (s : UtxoSet) (b : UtxoBatch) : Prop where
  serializable : ∀ p ∈ b.inserts, p.2.Serializable
  uncached : ∀ o ∈ b.inserts.map Prod.fst, o ∉ b.removals → s.cache.lookup o = none

/-- What is pending after a batch can be written. -/
theorem pending_bufferBatch {s : UtxoSet} {b : UtxoBatch}
    (h : ∀ o e, s.writeBuffer.entries.lookup o = some (some e) → e.Serializable)
    (hb : ∀ p ∈ b.inserts, p.2.Serializable) (o : OutPoint) (e : UtxoEntry)
    (he : (s.bufferBatch b).writeBuffer.entries.lookup o = some (some e)) :
    e.Serializable := by
  rcases Layers.exists_of_bufferWrite
    ((congrFun (s.writeBuffer.lookup_applyBatch b) o).symm.trans he) with hin | hold
  · exact hb (o, e) hin
  · exact h o e hold

theorem Sound.bufferBatch {s : UtxoSet} {b : UtxoBatch} (h : s.Sound)
    (hb : s.Applicable b) : (s.bufferBatch b).Sound where
  disk := h.disk
  pending := pending_bufferBatch h.pending hb.serializable
  coherent := h.coherent.write (s.write_bufferBatch b) hb.uncached

end UtxoSet

/-! ## Flushes -/

namespace UtxoDb

theorem write_append (db : UtxoDb) (b₁ b₂ : List DbOp) :
    db.write (b₁ ++ b₂) = (db.write b₁).write b₂ :=
  foldl_append

theorem foldl_write (db : UtxoDb) (bs : List (List DbOp)) :
    bs.foldl write db = db.write bs.flatten :=
  foldl_flatten.symm

theorem write_putUtxo (db : UtxoDb) (l : List (OutPoint × Bytes)) :
    db.write (l.map fun p => .putUtxo p.1 p.2)
      = { db with utxo := putAll db.utxo l } := by
  induction l generalizing db with
  | nil => rfl
  | cons p l ih => exact ih (db.apply (.putUtxo p.1 p.2))

theorem write_putUndo (db : UtxoDb) (l : List (Hash × Bytes)) :
    db.write (l.map fun p => .putUndo p.1 p.2)
      = { db with undo := putAll db.undo l } := by
  induction l generalizing db with
  | nil => rfl
  | cons p l ih => exact ih (db.apply (.putUndo p.1 p.2))

theorem write_deleteUtxo (db : UtxoDb) (os : List OutPoint) :
    db.write (os.map .deleteUtxo)
      = { db with utxo := eraseAll db.utxo os } := by
  induction os generalizing db with
  | nil => rfl
  | cons o os ih => exact ih (db.apply (.deleteUtxo o))

end UtxoDb

namespace UtxoSet

/-- The database operations of a flush, chunk boundaries forgotten. -/
theorem flatten_flushWrites (s : UtxoSet) (ρ : MapOrder) :
    (s.flushWrites ρ).flatten
      = ((s.writeBuffer.pendingInserts ρ.buffer).map fun p =>
          (p.1, p.2.serialize)).map (fun p => DbOp.putUtxo p.1 p.2)
        ++ s.writeBuffer.undoBuffer.map (fun p => DbOp.putUndo p.1 p.2)
        ++ s.flushTail ρ := by
  have hflat := Chunks.flatten_pushAll chunkTargetBytes Chunks.empty
    ((s.writeBuffer.pendingInserts ρ.buffer).map (fun p =>
        (DbOp.putUtxo p.1 p.2.serialize, 36 + p.2.serialize.length))
      ++ s.writeBuffer.undoBuffer.map (fun p => (DbOp.putUndo p.1 p.2, 32 + p.2.length)))
  rw [flushWrites, flatten_append, flatten_singleton, ← append_assoc]
  congr 1
  refine hflat.trans ?_
  rw [map_append, map_map, map_map, map_map]
  rfl

/-- **What a flush leaves on disk.** -/
theorem foldl_flushWrites (s : UtxoSet) (ρ : MapOrder) :
    (s.flushWrites ρ).foldl UtxoDb.write s.db =
      { utxo := eraseAll
          (putAll s.db.utxo
            ((s.writeBuffer.pendingInserts ρ.buffer).map fun p => (p.1, p.2.serialize)))
          (s.writeBuffer.pendingDeletions ρ.buffer)
        undo := putAll s.db.undo s.writeBuffer.undoBuffer
        flushHeight := (s.writeBuffer.pendingFlushHeight.map (leBytes 4)).or s.db.flushHeight
        flushHash := (s.writeBuffer.pendingFlushHash.map fun h => leBytes 32 h.toNat).or
          s.db.flushHash } := by
  rw [foldl_write, flatten_flushWrites, flushTail]
  simp only [write_append]
  rw [write_putUtxo, write_putUndo, write_deleteUtxo]
  cases s.writeBuffer.pendingFlushHeight <;> cases s.writeBuffer.pendingFlushHash <;> rfl

/-- A flushed coin, key by key. -/
theorem foldl_flushWrites_utxo (s : UtxoSet) (ρ : MapOrder) (o : OutPoint) :
    ((s.flushWrites ρ).foldl UtxoDb.write s.db).utxo o =
      match s.writeBuffer.entries.lookup o with
      | some v => v.map serialize
      | none => s.db.utxo o := by
  rw [foldl_flushWrites]
  simp only [eraseAll_apply, WriteBuffer.mem_pendingDeletions]
  have hmem : ∀ d, (o, d) ∈ (s.writeBuffer.pendingInserts ρ.buffer).map
      (fun p => (p.1, p.2.serialize)) →
      ∃ e, s.writeBuffer.entries.lookup o = some (some e) ∧ d = e.serialize := by
    intro d hd
    obtain ⟨⟨k, e⟩, hke, hkd⟩ := mem_map.mp hd
    obtain ⟨rfl, rfl⟩ := Prod.mk.inj hkd
    exact ⟨e, WriteBuffer.mem_pendingInserts.mp hke, rfl⟩
  by_cases hkey : o ∈ ((s.writeBuffer.pendingInserts ρ.buffer).map
      fun p => (p.1, p.2.serialize)).map Prod.fst
  · obtain ⟨d, hd, hput⟩ := exists_putAll_of_mem s.db.utxo hkey
    obtain ⟨e, he, rfl⟩ := hmem d hd
    rw [hput, he]
    rfl
  · rw [putAll_of_notMem _ hkey]
    cases hb : s.writeBuffer.entries.lookup o with
    | none => rfl
    | some v =>
      cases v with
      | none => rfl
      | some e =>
        -- a pending insert is one of the flushed puts
        refine absurd ?_ hkey
        rw [map_map]
        exact mem_map.mpr ⟨(o, e), WriteBuffer.mem_pendingInserts.mpr hb, rfl⟩

/-- A promoted coin is one of the flushed inserts. -/
theorem lookup_promote (cap : Nat) (cache : AList fun _ : OutPoint => CompactCoin)
    (l : List (OutPoint × Option UtxoEntry)) (o : OutPoint) :
    (promote cap cache l).lookup o = cache.lookup o ∨
      ∃ e, (o, some e) ∈ l ∧ (promote cap cache l).lookup o = some (new e) := by
  induction l generalizing cache with
  | nil => exact Or.inl rfl
  | cons p l ih =>
    obtain ⟨k, v⟩ := p
    unfold promote
    split
    · exact Or.inl rfl
    · cases v with
      | none =>
        rcases ih cache with h | ⟨e, he, h⟩
        · exact Or.inl h
        · exact Or.inr ⟨e, mem_cons_of_mem _ he, h⟩
      | some w =>
        rcases ih (cache.insert k (new w)) with h | ⟨e, he, h⟩
        · by_cases hk : o = k
          · subst hk
            rw [lookup_insert] at h
            exact Or.inr ⟨w, mem_cons_self, h⟩
          · rw [lookup_insert_ne hk] at h
            exact Or.inl h
        · exact Or.inr ⟨e, mem_cons_of_mem _ he, h⟩

theorem lookup_of_isEmpty {wb : WriteBuffer} {p q : Bool}
    (h : (wb.entries.entries.isEmpty && p && q) = true) (o : OutPoint) :
    wb.entries.lookup o = none := by
  rw [Bool.and_eq_true, Bool.and_eq_true, List.isEmpty_iff] at h
  rw [show wb.entries = ∅ from ext h.1.1, lookup_empty]

section

variable (s : UtxoSet) (ρ : MapOrder) (o : OutPoint)
include s ρ o

theorem flushToDisk_buffer : (s.flushToDisk ρ).writeBuffer.entries.lookup o = none := by
  unfold flushToDisk
  split
  · exact lookup_of_isEmpty ‹_› o
  · exact lookup_empty o

/-- What a flush leaves on disk, in either of its branches. -/
theorem flushToDisk_utxo :
    (s.flushToDisk ρ).db.utxo o =
      match s.writeBuffer.entries.lookup o with
      | some v => v.map serialize
      | none => s.db.utxo o := by
  unfold flushToDisk
  split
  · rw [lookup_of_isEmpty ‹_› o]
  · exact foldl_flushWrites_utxo s ρ o

theorem flushToDisk_cache :
    (s.flushToDisk ρ).cache.lookup o = s.cache.lookup o ∨
      ∃ e, s.writeBuffer.entries.lookup o = some (some e)
        ∧ (s.flushToDisk ρ).cache.lookup o = some (new e) := by
  unfold flushToDisk
  split
  · exact Or.inl rfl
  · rcases lookup_promote s.cacheCapacity s.cache (s.writeBuffer.iter ρ.buffer) o with
      h | ⟨e, he, h⟩
    · exact Or.inl h
    · exact Or.inr ⟨e, WriteBuffer.mem_iter.mp he, h⟩

end

/-- **What a flush leaves on disk** depends neither on what is cached nor on the
order in which the hash map is iterated and cut into chunks. -/
theorem flushToDisk_db_eq (s : UtxoSet) (cache : AList fun _ : OutPoint => CompactCoin)
    (ρ ρ' : MapOrder) : ({ s with cache := cache }.flushToDisk ρ').db = (s.flushToDisk ρ).db := by
  have hdisk : (s.flushWrites ρ').foldl UtxoDb.write s.db
      = (s.flushWrites ρ).foldl UtxoDb.write s.db := by
    have hutxo := funext fun o =>
      (s.foldl_flushWrites_utxo ρ' o).trans (s.foldl_flushWrites_utxo ρ o).symm
    rw [foldl_flushWrites, foldl_flushWrites] at hutxo ⊢
    rw [UtxoDb.mk.injEq]
    exact ⟨hutxo, rfl, rfl, rfl⟩
  unfold flushToDisk
  split
  · rfl
  · exact hdisk

variable {s : UtxoSet} {b : UtxoBatch}

/-- **Flushing the store flushes its layers**, as long as what it writes is
serializable. -/
theorem flush_flushToDisk (ρ : MapOrder)
    (hfits : ∀ o e, s.writeBuffer.entries.lookup o = some (some e) → e.Serializable) :
    Layers.Flush coinPacking s.layers (s.flushToDisk ρ).layers where
  buffer := s.flushToDisk_buffer ρ
  disk := by
    funext o
    show (s.flushToDisk ρ).db.coin o = (s.writeBuffer.entries.lookup o).getD (s.db.coin o)
    have hutxo := s.flushToDisk_utxo ρ o
    cases hb : s.writeBuffer.entries.lookup o with
    | none =>
      rw [hb] at hutxo
      rw [coin, hutxo]
      rfl
    | some v =>
      rw [hb] at hutxo
      cases v with
      | none =>
        rw [coin, hutxo]
        rfl
      | some e => exact coin_of_utxo (hfits o e hb) hutxo
  cache := s.flushToDisk_cache ρ

theorem Sound.flushToDisk (h : s.Sound) (ρ : MapOrder) :
    (s.flushToDisk ρ).Sound where
  disk := by
    intro o data hd
    rw [flushToDisk_utxo] at hd
    cases hb : s.writeBuffer.entries.lookup o with
    | none =>
      rw [hb] at hd
      exact h.disk o data hd
    | some v =>
      rw [hb] at hd
      obtain ⟨e, rfl, he⟩ := Option.map_eq_some_iff.mp hd
      exact ⟨e, h.pending o e hb, he.symm⟩
  pending := fun o e he => by
    rw [s.flushToDisk_buffer ρ o] at he
    cases he
  coherent := h.coherent.flush (flush_flushToDisk ρ h.pending)

theorem Sound.view_flushToDisk (h : s.Sound) (ρ : MapOrder) :
    (s.flushToDisk ρ).view = s.view :=
  (flush_flushToDisk ρ h.pending).contents_eq

theorem Sound.applyBatch (h : s.Sound) (hb : s.Applicable b) (ρ : MapOrder) :
    (s.applyBatch ρ b).1.Sound := by
  have h₂ := (h.bufferBatch hb).recached (recached_maybeEvictCache (s.bufferBatch b) ρ)
  unfold UtxoSet.applyBatch
  simp only
  split
  · exact h₂.flushToDisk ρ
  · exact h₂

/-- **A batch on the store is the batch on the plain map**, whatever is
cached. -/
theorem Sound.view_applyBatch (h : s.Sound) (hb : ∀ p ∈ b.inserts, p.2.Serializable)
    (ρ : MapOrder) :
    (s.applyBatch ρ b).1.view = eraseAll (putAll s.view b.inserts) b.removals := by
  have hr := recached_maybeEvictCache (s.bufferBatch b) ρ
  refine Eq.trans ?_ (s.write_bufferBatch b).contents_eq
  refine Eq.trans ?_ hr.view_eq
  unfold UtxoSet.applyBatch
  simp only
  split
  · refine (flush_flushToDisk ρ ?_).contents_eq
    rw [hr.writeBuffer]
    exact pending_bufferBatch h.pending hb
  · rfl

/-- Every coin a sound store holds is serializable. -/
theorem Sound.serializable (h : s.Sound) {o : OutPoint} {e : UtxoEntry}
    (he : s.view o = some e) : e.Serializable := by
  rw [view, Layers.contents, layers_buffer, layers_disk] at he
  cases hb : s.writeBuffer.entries.lookup o with
  | some v =>
    rw [hb] at he
    exact h.pending o e (hb.trans (congrArg some he))
  | none =>
    rw [hb] at he
    cases hd : s.db.utxo o with
    | none =>
      rw [coin, hd] at he
      cases he
    | some data =>
      obtain ⟨e', he', -, -, hcoin⟩ := h.disk.coin_eq hd
      obtain rfl := Option.mem_unique hcoin he
      exact he'

end UtxoSet

/-! ## Whole runs -/

/-- One call on the store. -/
inductive StoreCall where
  | applyBatch (ρ : MapOrder) (b : UtxoBatch)
  | flushToDisk (ρ : MapOrder)
  | get (o : OutPoint)
  | contains (o : OutPoint)
  | prefetch (os : List OutPoint)
  | maybeEvictCache (ρ : MapOrder)

namespace StoreCall

/-- The store after a call. -/
def run (s : UtxoSet) : StoreCall → UtxoSet
  | applyBatch ρ b => (s.applyBatch ρ b).1
  | flushToDisk ρ => s.flushToDisk ρ
  | get o => (s.get o).2
  | contains _ => s
  | prefetch os => s.prefetch os
  | maybeEvictCache ρ => s.maybeEvictCache ρ

/-- The call on a plain map: batches insert, then remove; nothing else is
seen. -/
def plain (m : OutPoint → Option UtxoEntry) : StoreCall → OutPoint → Option UtxoEntry
  | applyBatch _ b => PartialMap.eraseAll (PartialMap.putAll m b.inserts) b.removals
  | _ => m

/-- The coins a call inserts are storable. -/
def Storable : StoreCall → Prop
  | applyBatch _ b => ∀ p ∈ b.inserts, p.2.Storable
  | _ => True

instance : DecidablePred Storable
  | applyBatch _ b => inferInstanceAs (Decidable (∀ p ∈ b.inserts, p.2.Storable))
  | flushToDisk _ => isTrue trivial
  | get _ => isTrue trivial
  | contains _ => isTrue trivial
  | prefetch _ => isTrue trivial
  | maybeEvictCache _ => isTrue trivial

/-- The coins of a batch are storable, and the store does not cache what the
batch leaves bound. -/
def Admissible (s : UtxoSet) (c : StoreCall) : Prop :=
  c.Storable ∧ ∀ ρ b, c = applyBatch ρ b →
    ∀ o ∈ b.inserts.map Prod.fst, o ∉ b.removals → s.cache.lookup o = none

/-- Every call of a run is admissible where it is made. -/
def RunAdmissible (s : UtxoSet) : List StoreCall → Prop
  | [] => True
  | c :: cs => c.Admissible s ∧ RunAdmissible (c.run s) cs

end StoreCall

namespace UtxoSet

variable {s : UtxoSet} {b : UtxoBatch} {c : StoreCall}

/-- A plain batch of storable coins keeps the heights of a map small. -/
theorem height_lt_of_batch {m : OutPoint → Option UtxoEntry}
    (hm : ∀ o e, m o = some e → e.height < 2 ^ 31) (hb : ∀ p ∈ b.inserts, p.2.Storable)
    {o : OutPoint} {e : UtxoEntry}
    (he : eraseAll (putAll m b.inserts) b.removals o = some e) :
    e.height < 2 ^ 31 := by
  rcases eraseAll_putAll_eq_some he with hin | hold
  · exact (hb _ hin).1
  · exact hm o e hold

/-- **One call**: soundness is kept, and the contents move as the plain map
does. -/
theorem Sound.run (h : s.Sound) (hc : c.Admissible s) :
    (c.run s).Sound ∧ (c.run s).view = c.plain s.view := by
  cases c with
  | applyBatch ρ b =>
    have hb : s.Applicable b := ⟨fun p hp => (hc.1 p hp).serializable, hc.2 ρ b rfl⟩
    exact ⟨h.applyBatch hb ρ, h.view_applyBatch hb.serializable ρ⟩
  | flushToDisk ρ => exact ⟨h.flushToDisk ρ, h.view_flushToDisk ρ⟩
  | get o => exact ⟨h.recached (recached_get o), (recached_get o).view_eq⟩
  | contains o => exact ⟨h, rfl⟩
  | prefetch os =>
    exact ⟨h.recached (recached_prefetch s os), (recached_prefetch s os).view_eq⟩
  | maybeEvictCache ρ =>
    exact ⟨h.recached (recached_maybeEvictCache s ρ), (recached_maybeEvictCache s ρ).view_eq⟩

theorem Compact.run (h : s.Sound) (hs : s.Compact) (hc : c.Admissible s) :
    (c.run s).Compact := by
  unfold Compact
  rw [(h.run hc).2]
  cases c with
  | applyBatch ρ b => exact fun o e he => height_lt_of_batch hs hc.1 he
  | _ => exact hs

theorem Sound.foldl_run (h : s.Sound) (hs : s.Compact) {cs : List StoreCall}
    (hcs : StoreCall.RunAdmissible s cs) :
    (cs.foldl StoreCall.run s).Sound ∧ (cs.foldl StoreCall.run s).Compact
      ∧ (cs.foldl StoreCall.run s).view = cs.foldl StoreCall.plain s.view := by
  induction cs generalizing s with
  | nil => exact ⟨h, hs, rfl⟩
  | cons c cs ih =>
    rw [foldl_cons, foldl_cons, ← (h.run hcs.1).2]
    exact ih (h.run hcs.1).1 (Compact.run h hs hcs.1) hcs.2

/-- A freshly opened store is sound. -/
theorem sound_openDb {db : UtxoDb} (h : db.WellFormed) (cap budget : Nat) :
    (openDb db cap budget).Sound :=
  ⟨h, fun _ _ hb => (by cases hb), fun _ _ => rfl, fun _ _ hc => (by cases hc)⟩

theorem compact_openDb {db : UtxoDb} (h : db.Storable) (cap budget : Nat) :
    (openDb db cap budget).Compact := by
  intro o e he
  change db.coin o = some e at he
  rw [coin] at he
  cases hd : db.utxo o with
  | none =>
    rw [hd] at he
    cases he
  | some data =>
    obtain ⟨e', he', rfl⟩ := h o data hd
    rw [hd, Option.bind_some, deserialize_serialize he'.serializable] at he
    obtain rfl := Option.some.inj he
    exact he'.1

/-- The store of a run of calls, from a freshly opened database, answers
every lookup as the plain map does that got the same batches. -/
def AnswersAsPlainMap (db : UtxoDb) (cap budget : Nat) (cs : List StoreCall) : Prop :=
  ∀ o, ((cs.foldl StoreCall.run (openDb db cap budget)).get o).1
      = .ok (cs.foldl StoreCall.plain db.coin o)
    ∧ (cs.foldl StoreCall.run (openDb db cap budget)).contains o
      = (cs.foldl StoreCall.plain db.coin o).isSome

/-- **The store refines a plain map** in every run in which no batch leaves
a cached outpoint bound: whatever the capacity, the budget, the iteration
orders and the mix of calls, lookups and containment answer as the plain
map does. -/
theorem answersAsPlainMap_of_runAdmissible {db : UtxoDb} (hdb : db.Storable)
    (cap budget : Nat) (cs : List StoreCall)
    (hcs : StoreCall.RunAdmissible (openDb db cap budget) cs) :
    AnswersAsPlainMap db cap budget cs := by
  intro o
  obtain ⟨hsound, hcompact, hview⟩ := (sound_openDb hdb.wellFormed cap budget).foldl_run
    (compact_openDb hdb cap budget) hcs
  rw [hsound.get_eq (hcompact o), hsound.contains_eq, hview]
  exact ⟨rfl, rfl⟩

/-- The unconditional statement: the same for every run of storable
batches. -/
def RefinesPlainMap : Prop :=
  ∀ db : UtxoDb, db.Storable → ∀ (cap budget : Nat) (cs : List StoreCall),
    (∀ c ∈ cs, c.Storable) → AnswersAsPlainMap db cap budget cs

section Overwrite

/-- Both maps iterated as they are listed. -/
def listedOrder : MapOrder := ⟨IterOrder.id, IterOrder.id⟩

/-- An outpoint, the coin it is bound to first and the coin it is bound to
next. -/
def staleOutPoint : OutPoint := ⟨Hash.allZeros, 0⟩

def staleCoin : UtxoEntry := ⟨1, [], 1, false⟩

def freshCoin : UtxoEntry := ⟨2, [], 2, false⟩

/-- Bind an outpoint, flush – which caches it –, bind it again, flush. -/
def overwriteCalls : List StoreCall :=
  [.applyBatch listedOrder ⟨[(staleOutPoint, staleCoin)], [], []⟩,
    .flushToDisk listedOrder,
    .applyBatch listedOrder ⟨[(staleOutPoint, freshCoin)], [], []⟩,
    .flushToDisk listedOrder]

/-- **An overwritten coin can come back**: with a cache of one entry the
second flush finds the cache full, promotes nothing, and the lookup
returns the first coin. -/
theorem not_refinesPlainMap : ¬ RefinesPlainMap := by
  intro h
  have hdb : empty.Storable := fun _ _ hd => by cases hd
  have hst : ∀ c ∈ overwriteCalls, c.Storable := by decide
  have hget := (h empty hdb 1 1000 overwriteCalls hst staleOutPoint).1
  exact absurd hget (by decide)

/-- The theorem at a run that binds, overwrites in the buffer, flushes,
reads through the cache and removes. -/
theorem answersAsPlainMap_buffered :
    AnswersAsPlainMap UtxoDb.empty 1 1000
      [.applyBatch listedOrder ⟨[(staleOutPoint, staleCoin)], [], []⟩,
        .applyBatch listedOrder ⟨[(staleOutPoint, freshCoin)], [], []⟩,
        .flushToDisk listedOrder, .get staleOutPoint,
        .applyBatch listedOrder ⟨[], [staleOutPoint], []⟩] :=
  answersAsPlainMap_of_runAdmissible (fun _ _ hd => by cases hd) 1 1000 _
    ⟨⟨by decide, fun _ _ h => by cases h; decide⟩,
      ⟨by decide, fun _ _ h => by cases h; decide⟩, ⟨trivial, fun _ _ h => (by cases h)⟩,
      ⟨trivial, fun _ _ h => (by cases h)⟩,
      ⟨by decide, fun _ _ h => by cases h; decide⟩, trivial⟩

end Overwrite

end UtxoSet
