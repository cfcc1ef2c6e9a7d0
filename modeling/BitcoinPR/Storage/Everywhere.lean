import BitcoinPR.Storage.Undo

/-!
# What holds of every coin in the store

A coin is in the store in many places: pending in the buffer, packed in the
cache, as bytes on disk, and as bytes in undo records, buffered and on disk.
`UtxoSet.Everywhere G` says that each of them, wherever it lies, has a property
`G` of the outpoint and the coin. No coherence between the places is asked for:
a coin left behind in the cache has the property like any other.

The operations of the store move coins about and create none, so that they all
keep `Everywhere`, as long as the coins of a batch and of its undo record have
the property. It has to hold of serializable coins only, and to survive the
packing for the cache.
-/

open List

variable {G : OutPoint → UtxoEntry → Prop}

/-- The bytes of an undo record all of whose coins have the property. -/
def RecordIn (G : OutPoint → UtxoEntry → Prop) (data : Bytes) : Prop :=
  ∃ spent created prev, data = serializeUndo spent created prev
    ∧ spent.length < 2 ^ 32 ∧ created.length < 2 ^ 32 ∧ ∀ u ∈ spent, G u.outpoint u.entry

/-- Every coin on disk has the property, and so have those of undo records. -/
structure UtxoDb.Everywhere (G : OutPoint → UtxoEntry → Prop) (db : UtxoDb) : Prop where
  coins : ∀ o data, db.utxo o = some data → ∃ e : UtxoEntry, data = e.serialize ∧ G o e
  records : ∀ hash data, db.undo hash = some data → RecordIn G data

/-- **Every coin in the store has the property.** -/
structure UtxoSet.Everywhere (G : OutPoint → UtxoEntry → Prop) (s : UtxoSet) : Prop where
  disk : s.db.Everywhere G
  pending : ∀ o e, s.writeBuffer.entries.lookup o = some (some e) → G o e
  cached : ∀ o c, s.cache.lookup o = some c → G o c.toEntry
  records : ∀ p ∈ s.writeBuffer.undoBuffer, RecordIn G p.2

/-! ## Writing to disk -/

/-- What an operation writes has the property. -/
def DbOp.WritesIn (G : OutPoint → UtxoEntry → Prop) : DbOp → Prop
  | .putUtxo o data => ∃ e : UtxoEntry, data = e.serialize ∧ G o e
  | .putUndo _ data => RecordIn G data
  | _ => True

namespace UtxoDb

theorem everywhere_empty : UtxoDb.empty.Everywhere G :=
  ⟨fun _ _ h => (by cases h), fun _ _ h => (by cases h)⟩

theorem Everywhere.apply {db : UtxoDb} (h : db.Everywhere G) {op : DbOp} (hop : op.WritesIn G) :
    (db.apply op).Everywhere G := by
  cases op with
  | putUtxo k data =>
    refine ⟨fun o bytes ho => ?_, h.records⟩
    rcases PartialMap.update_eq_some.mp ho with ⟨rfl, hdata⟩ | ⟨-, hold⟩
    · exact Option.some.inj hdata ▸ hop
    · exact h.coins o bytes hold
  | deleteUtxo k =>
    refine ⟨fun o bytes ho => ?_, h.records⟩
    rcases PartialMap.update_eq_some.mp ho with ⟨-, hnone⟩ | ⟨-, hold⟩
    · cases hnone
    · exact h.coins o bytes hold
  | putUndo hash data =>
    refine ⟨h.coins, fun hash' bytes ho => ?_⟩
    rcases PartialMap.update_eq_some.mp ho with ⟨rfl, hdata⟩ | ⟨-, hold⟩
    · exact Option.some.inj hdata ▸ hop
    · exact h.records hash' bytes hold
  | putFlushHeight data => exact ⟨h.coins, h.records⟩
  | putFlushHash data => exact ⟨h.coins, h.records⟩

theorem Everywhere.write {db : UtxoDb} (h : db.Everywhere G) {batch : List DbOp}
    (hb : ∀ op ∈ batch, op.WritesIn G) : (db.write batch).Everywhere G := by
  induction batch generalizing db with
  | nil => exact h
  | cons op batch ih =>
    exact ih (h.apply (hb op mem_cons_self)) fun op' hop' =>
      hb op' (mem_cons_of_mem op hop')

end UtxoDb

namespace UtxoSet

theorem everywhere_openDb {db : UtxoDb} (h : db.Everywhere G) (cap budget : Nat) :
    (openDb db cap budget).Everywhere G :=
  ⟨h, fun _ _ hl => (by cases hl), fun _ _ hl => (by cases hl), fun _ hp => (by cases hp)⟩

namespace Everywhere

variable {s : UtxoSet}

section

variable (h : s.Everywhere G)
include h

/-- What a flush writes has the property, in whatever batches. -/
theorem writesIn_of_mem_flushWrites (ρ : MapOrder) {batch : List DbOp}
    (hb : batch ∈ s.flushWrites ρ) : ∀ op ∈ batch, op.WritesIn G := by
  intro op hop
  have hmem : op ∈ (s.flushWrites ρ).flatten := mem_flatten.mpr ⟨batch, hb, hop⟩
  rw [flatten_flushWrites, mem_append, mem_append] at hmem
  rcases hmem with (hmem | hmem) | hmem
  · obtain ⟨p, hp, rfl⟩ := mem_map.mp hmem
    obtain ⟨q, hq, rfl⟩ := mem_map.mp hp
    exact ⟨q.2, rfl, h.pending q.1 q.2 (WriteBuffer.mem_pendingInserts.mp hq)⟩
  · obtain ⟨p, hp, rfl⟩ := mem_map.mp hmem
    exact h.records p hp
  · unfold flushTail at hmem
    simp only [mem_append, mem_map, Option.mem_toList, Option.map_eq_some_iff] at hmem
    rcases hmem with (⟨o, -, rfl⟩ | ⟨height, -, rfl⟩) | ⟨hash, -, rfl⟩ <;> trivial

/-- **After a crash**: the store opened over what some batches of a flush have
left on disk. -/
theorem reopen (ρ : MapOrder) (written cap budget : Nat) :
    (openDb (((s.flushWrites ρ).take written).foldl UtxoDb.write s.db) cap budget).Everywhere
      G := by
  refine everywhere_openDb ?_ cap budget
  have hbatches : ∀ batch ∈ (s.flushWrites ρ).take written, ∀ op ∈ batch, op.WritesIn G :=
    fun batch hb => h.writesIn_of_mem_flushWrites ρ (mem_of_mem_take hb)
  have hdisk := h.disk
  generalize (s.flushWrites ρ).take written = batches at hbatches
  generalize s.db = db at hdisk
  induction batches generalizing db with
  | nil => exact hdisk
  | cons batch batches ih =>
    exact ih (fun b hb => hbatches b (mem_cons_of_mem batch hb)) (db.write batch)
      (hdisk.write (hbatches batch mem_cons_self))

/-! ## Batches and records -/

theorem bufferBatch {b : UtxoBatch} (hb : ∀ p ∈ b.inserts, G p.1 p.2) :
    (s.bufferBatch b).Everywhere G := by
  refine ⟨h.disk, fun o e ho => ?_, fun o c hc => ?_, ?_⟩
  · have hlookup := congrFun (s.writeBuffer.lookup_applyBatch b) o
    rcases Layers.exists_of_bufferWrite (hlookup.symm.trans ho) with hin | hold
    · exact hb _ hin
    · exact h.pending o e hold
  · replace hc : (b.removals.foldl (fun c o => c.erase (id o)) s.cache).lookup o = some c := hc
    rw [PartialMap.lookup_foldl_erase, List.map_id] at hc
    split at hc
    · cases hc
    · exact h.cached o c hc
  · rw [undoBuffer_bufferBatch]
    exact h.records

theorem storeUndo (hash : Hash) {spent : List SpentUtxo} {created : List OutPoint} (prev : Hash)
    (hs : spent.length < 2 ^ 32) (hc : created.length < 2 ^ 32)
    (hspent : ∀ u ∈ spent, G u.outpoint u.entry) :
    (s.storeUndo hash spent created prev).Everywhere G := by
  refine ⟨h.disk, h.pending, h.cached, fun p hp => ?_⟩
  rcases mem_append.mp hp with hp | hp
  · exact h.records p hp
  · obtain rfl := mem_singleton.mp hp
    exact ⟨spent, created, prev, rfl, hs, hc, hspent⟩

theorem setPendingFlushHeight (height : Nat) (hash : Hash) :
    (s.setPendingFlushHeight height hash).Everywhere G :=
  ⟨h.disk, h.pending, h.cached, h.records⟩

theorem deleteUndo (hash : Hash) : (s.deleteUndo hash).Everywhere G := by
  refine ⟨⟨h.disk.coins, fun hash' data hd => ?_⟩, h.pending, h.cached, fun p hp =>
    h.records p (mem_filter.mp hp).1⟩
  rcases PartialMap.update_eq_some.mp hd with ⟨-, hnone⟩ | ⟨-, hold⟩
  · cases hnone
  · exact h.disk.records hash' data hold

variable (hser : ∀ o e, G o e → e.Serializable)
include hser

/-- The coins an undo record puts back have the property. -/
theorem loadUndo {hash : Hash} {undo : UndoData} (hload : s.loadUndo hash = .ok (some undo)) :
    ∀ p ∈ undo.coins, G p.1 p.2 := by
  have hin : ∀ data, s.undoBytes hash = some data → RecordIn G data := by
    intro data hd
    unfold undoBytes at hd
    split at hd
    · rename_i p hp
      exact Option.some.inj hd ▸ h.records p (mem_of_find?_eq_some hp)
    · exact h.disk.records hash data hd
  unfold UtxoSet.loadUndo at hload
  split at hload
  · rename_i data hd
    obtain ⟨spent, created, prev, rfl, hs, hc, hG⟩ := hin data hd
    rw [deserializeUndo_serializeUndo prev (fun u hu => hser _ _ (hG u hu)) hs hc] at hload
    obtain rfl := Option.some.inj (Except.ok.inj hload)
    intro p hp
    obtain ⟨u, hu, rfl⟩ := mem_map.mp hp
    exact hG u hu
  · cases hload

/-- What is on disk reads back with the property. -/
theorem coin {o : OutPoint} {e : UtxoEntry} (he : s.db.coin o = some e) : G o e := by
  obtain ⟨data, hd, he⟩ := Option.bind_eq_some_iff.mp he
  obtain ⟨e', rfl, hG⟩ := h.disk.coins o data hd
  rw [UtxoEntry.deserialize_serialize (hser _ _ hG)] at he
  exact Option.some.inj he ▸ hG

/-- **A lookup finds coins with the property only.** -/
theorem get {o : OutPoint} {e : UtxoEntry} (he : (s.get o).1 = .ok (some e)) : G o e := by
  unfold UtxoSet.get at he
  split at he
  · rename_i v hv
    exact h.pending o e (hv.trans (congrArg some (Except.ok.inj he)))
  · split at he
    · rename_i c hc
      exact Option.some.inj (Except.ok.inj he) ▸ h.cached o c hc
    · split at he
      · cases he
      · rename_i data hd
        obtain ⟨e', rfl, hG⟩ := h.disk.coins o data hd
        rw [UtxoEntry.deserialize_serialize (hser _ _ hG)] at he
        exact Option.some.inj (Except.ok.inj he) ▸ hG

variable (hpack : ∀ o e, G o e → G o (CompactCoin.new e).toEntry)
include hpack

/-- Filling the cache from disk, and evicting from it. -/
theorem recached {s' : UtxoSet} (hr : Recached s s') : s'.Everywhere G := by
  refine ⟨hr.db ▸ h.disk, hr.writeBuffer ▸ h.pending, fun o c hc => ?_, hr.writeBuffer ▸ h.records⟩
  have hcache := hr.layers.cache o
  rw [layers_cache, layers_cache] at hcache
  rcases hcache with heq | hnone | ⟨-, e, he, hnew⟩
  · exact h.cached o c (heq ▸ hc)
  · cases hnone.symm.trans hc
  · obtain rfl := Option.mem_unique hnew hc
    exact hpack _ _ (h.coin hser he)

omit hser in
theorem flushToDisk (ρ : MapOrder) : (s.flushToDisk ρ).Everywhere G := by
  unfold UtxoSet.flushToDisk
  split
  · exact ⟨h.disk, h.pending, h.cached, h.records⟩
  · have hdisk := (h.reopen ρ (s.flushWrites ρ).length 0 0).disk
    rw [take_length] at hdisk
    refine ⟨hdisk, fun o e ho => (by cases ho), fun o c hc => ?_, fun p hp => (by cases hp)⟩
    rcases lookup_promote s.cacheCapacity s.cache (s.writeBuffer.iter ρ.buffer) o with
      heq | ⟨e, he, hnew⟩
    · exact h.cached o c (heq ▸ hc)
    · obtain rfl := Option.mem_unique hnew hc
      exact hpack _ _ (h.pending o e (WriteBuffer.mem_iter.mp he))

theorem applyBatch (ρ : MapOrder) {b : UtxoBatch} (hb : ∀ p ∈ b.inserts, G p.1 p.2) :
    (s.applyBatch ρ b).1.Everywhere G := by
  have hevict := (h.bufferBatch hb).recached hser hpack
    (recached_maybeEvictCache (s.bufferBatch b) ρ)
  unfold UtxoSet.applyBatch
  simp only
  split
  · exact hevict.flushToDisk hpack ρ
  · exact hevict

end

end Everywhere

end UtxoSet
