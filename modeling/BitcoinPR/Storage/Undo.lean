import BitcoinPR.Storage.Coherence

/-!
# Undo records

Connecting a block buffers an undo record: the coins it spent, the outpoints
it created and the hash of its parent. The record is bytes in the write
buffer until the next flush and bytes in a column family afterwards; a load
looks in that order, and in the buffer takes the *first* record stored under
the hash.

`deserializeUndo_serializeUndo` is the round trip. `rollbackBlock` undoes a
block from its record alone, writing past the buffer, straight to the disk
and the cache: the created outpoints are deleted first and the spent coins
written over them.
-/

open PartialMap List Function

/-- The 36-byte key of an outpoint: the hash, then the index. -/
def outpointKey (o : OutPoint) : Bytes := leBytes 32 o.txid.toNat ++ leBytes 4 o.vout.toNat

/-- The outpoint a 36-byte key spells. -/
def outpointOfKey (key : Bytes) : OutPoint :=
  ⟨BitVec.ofNat 256 (ofLeBytes (key.take 32)), UInt32.ofNat (ofLeBytes (key.drop 32))⟩

@[simp] theorem length_outpointKey (o : OutPoint) : (outpointKey o).length = 36 := by
  simp only [outpointKey, length_append, length_leBytes]

/-- The 32 bytes of a hash, and back. -/
theorem ofNat_ofLeBytes_hash (h : Hash) :
    BitVec.ofNat 256 (ofLeBytes (leBytes 32 h.toNat)) = h := by
  rw [ofLeBytes_leBytes (Nat.lt_of_lt_of_eq h.isLt (by norm_num))]
  exact BitVec.ofNat_toNat 256 h

@[simp] theorem outpointOfKey_outpointKey (o : OutPoint) :
    outpointOfKey (outpointKey o) = o := by
  have hvout : ofLeBytes (leBytes 4 o.vout.toNat) = o.vout.toNat :=
    ofLeBytes_leBytes (Nat.lt_of_lt_of_eq o.vout.toNat_lt (by norm_num))
  unfold outpointOfKey outpointKey
  rw [take_left' (length_leBytes 32 _), drop_left' (length_leBytes 32 _),
    ofNat_ofLeBytes_hash, hvout, UInt32.ofNat_toNat]

/-- What a block needs to be undone. -/
structure UndoData where
  spentUtxos : List SpentUtxo
  createdOutpoints : List OutPoint
  prevBlockHash : Option Hash
deriving DecidableEq, Repr

/-- The coins an undo record puts back. -/
def UndoData.coins (undo : UndoData) : List (OutPoint × UtxoEntry) :=
  undo.spentUtxos.map fun u => (u.outpoint, u.entry)

/-! ## The codec -/

/-- One spent coin: its key, the length of its byte form, its byte form. -/
def SpentUtxo.serialize (s : SpentUtxo) : Bytes :=
  outpointKey s.outpoint ++ leBytes 4 s.entry.serialize.length ++ s.entry.serialize

/-- Spent coins, created outpoints, parent hash. -/
def serializeUndo (spent : List SpentUtxo) (created : List OutPoint) (prev : Hash) : Bytes :=
  leBytes 4 spent.length ++ spent.flatMap SpentUtxo.serialize
    ++ leBytes 4 created.length ++ created.flatMap outpointKey ++ leBytes 32 prev.toNat

/-- Read `n` spent coins; what is left of the bytes comes back with them. -/
def parseSpent : Nat → Bytes → Except StorageError (List SpentUtxo × Bytes)
  | 0, data => .ok ([], data)
  | n + 1, data =>
    if data.length < 36 then .error (.serialization "undo data truncated")
    else
      let outpoint := outpointOfKey (data.take 36)
      let data := data.drop 36
      if data.length < 4 then .error (.serialization "undo data truncated")
      else
        let entryLen := ofLeBytes (data.take 4)
        let data := data.drop 4
        if data.length < entryLen then .error (.serialization "undo entry truncated")
        else do
          let entry ← UtxoEntry.deserialize (data.take entryLen)
          let (spent, rest) ← parseSpent n (data.drop entryLen)
          return (⟨outpoint, entry⟩ :: spent, rest)

/-- Read `n` created outpoints. -/
def parseCreated : Nat → Bytes → Except StorageError (List OutPoint × Bytes)
  | 0, data => .ok ([], data)
  | n + 1, data =>
    if data.length < 36 then
      .error (.serialization "undo data: created outpoints truncated")
    else do
      let (created, rest) ← parseCreated n (data.drop 36)
      return (outpointOfKey (data.take 36) :: created, rest)

/-- Read an undo record. The created outpoints and the parent hash are
missing from old records. -/
def deserializeUndo (data : Bytes) : Except StorageError UndoData :=
  if data.length < 4 then .error (.serialization "undo data too short")
  else do
    let (spent, data) ← parseSpent (ofLeBytes (data.take 4)) (data.drop 4)
    if data.length < 4 then return ⟨spent, [], none⟩
    else
      let (created, data) ← parseCreated (ofLeBytes (data.take 4)) (data.drop 4)
      let prev := if data.length < 32 then none
        else some (BitVec.ofNat 256 (ofLeBytes (data.take 32)))
      return ⟨spent, created, prev⟩

theorem parseSpent_flatMap (spent : List SpentUtxo) (rest : Bytes)
    (h : ∀ s ∈ spent, s.entry.Serializable) :
    parseSpent spent.length (spent.flatMap SpentUtxo.serialize ++ rest)
      = .ok (spent, rest) := by
  induction spent with
  | nil => rfl
  | cons s spent ih =>
    have hs := h s mem_cons_self
    have hlen := UtxoEntry.length_serialize s.entry
    -- the record of `s` in front, cut into its three parts
    have happ : (s :: spent).flatMap SpentUtxo.serialize ++ rest
        = outpointKey s.outpoint ++ (leBytes 4 s.entry.serialize.length
          ++ (s.entry.serialize ++ (spent.flatMap SpentUtxo.serialize ++ rest))) := by
      simp only [flatMap_cons, SpentUtxo.serialize, append_assoc]
    have hentry : ofLeBytes (leBytes 4 s.entry.serialize.length) = s.entry.serialize.length :=
      ofLeBytes_leBytes (by have := hs.2; omega)
    rw [happ, length_cons, parseSpent, if_neg (by rw [length_append, length_outpointKey]; omega)]
    simp only [take_left' (length_outpointKey s.outpoint),
      drop_left' (length_outpointKey s.outpoint), outpointOfKey_outpointKey]
    rw [if_neg (by rw [length_append, length_leBytes]; omega)]
    simp only [take_left' (length_leBytes 4 _), drop_left' (length_leBytes 4 _), hentry]
    rw [if_neg (by rw [length_append]; omega)]
    simp only [take_left, drop_left, UtxoEntry.deserialize_serialize hs,
      ih (fun t ht => h t (mem_cons_of_mem s ht))]
    rfl

theorem parseCreated_flatMap (created : List OutPoint) (rest : Bytes) :
    parseCreated created.length (created.flatMap outpointKey ++ rest) = .ok (created, rest) := by
  induction created with
  | nil => rfl
  | cons o created ih =>
    have happ : (o :: created).flatMap outpointKey ++ rest
        = outpointKey o ++ (created.flatMap outpointKey ++ rest) := by
      rw [flatMap_cons, append_assoc]
    rw [happ, length_cons, parseCreated,
      drop_left' (length_outpointKey o), ih, take_left' (length_outpointKey o),
      outpointOfKey_outpointKey]
    rfl

/-- **Undo records round-trip**, as long as the two counts fit in 32 bits and
the coins are serializable. -/
theorem deserializeUndo_serializeUndo {spent : List SpentUtxo} {created : List OutPoint}
    (prev : Hash) (hspent : ∀ s ∈ spent, s.entry.Serializable)
    (hs : spent.length < 2 ^ 32) (hc : created.length < 2 ^ 32) :
    deserializeUndo (serializeUndo spent created prev) = .ok ⟨spent, created, some prev⟩ := by
  have happ : serializeUndo spent created prev
      = leBytes 4 spent.length ++ (spent.flatMap SpentUtxo.serialize ++ (leBytes 4 created.length
          ++ (created.flatMap outpointKey ++ (leBytes 32 prev.toNat)))) := by
    simp only [serializeUndo, append_assoc]
  have hns : ofLeBytes (leBytes 4 spent.length) = spent.length := ofLeBytes_leBytes (by omega)
  have hnc : ofLeBytes (leBytes 4 created.length) = created.length :=
    ofLeBytes_leBytes (by omega)
  rw [happ, deserializeUndo, if_neg (by rw [length_append, length_leBytes]; omega),
    take_left' (length_leBytes 4 _), drop_left' (length_leBytes 4 _), hns,
    parseSpent_flatMap spent _ hspent]
  dsimp only [bind, Except.bind]
  rw [if_neg (by rw [length_append, length_leBytes]; omega),
    take_left' (length_leBytes 4 _), drop_left' (length_leBytes 4 _), hnc,
    parseCreated_flatMap]
  dsimp only [pure, Except.pure]
  rw [if_neg (by rw [length_leBytes]; omega), take_of_length_le
    (Nat.le_of_eq (length_leBytes 32 _)), ofNat_ofLeBytes_hash]

/-! ## Undo records in the store -/

namespace UtxoSet

/-- Buffer the undo record of a block. -/
def storeUndo (s : UtxoSet) (hash : Hash) (spent : List SpentUtxo) (created : List OutPoint)
    (prev : Hash) : UtxoSet :=
  let buf := serializeUndo spent created prev
  { s with
    writeBuffer := { s.writeBuffer with
      bytes := s.writeBuffer.bytes + (undoBaseCost + buf.length)
      undoBuffer := s.writeBuffer.undoBuffer ++ [(hash, buf)] } }

/-- The bytes of the undo record of a block: the first buffered under its
hash, else the one on disk. -/
def undoBytes (s : UtxoSet) (hash : Hash) : Option Bytes :=
  match s.writeBuffer.undoBuffer.find? fun p => p.1 == hash with
  | some p => some p.2
  | none => s.db.undo hash

/-- Load the undo record of a block. -/
def loadUndo (s : UtxoSet) (hash : Hash) : Except StorageError (Option UndoData) :=
  match s.undoBytes hash with
  | some data => (deserializeUndo data).map some
  | none => .ok none

/-- Delete every undo record of a block, buffered or on disk. -/
def deleteUndo (s : UtxoSet) (hash : Hash) : UtxoSet :=
  { s with
    db := { s.db with undo := update s.db.undo hash none }
    writeBuffer := { s.writeBuffer with
      undoBuffer := s.writeBuffer.undoBuffer.filter fun p => p.1 != hash } }

/-- Name the tip the next flush is to record. -/
def setPendingFlushHeight (s : UtxoSet) (height : Nat) (hash : Hash) : UtxoSet :=
  { s with
    writeBuffer := { s.writeBuffer with
      pendingFlushHeight := some height
      pendingFlushHash := some hash } }

/-- Delete the created outpoints and put the spent coins back, on disk and in
the cache. -/
def writeRollback (s : UtxoSet) (undo : UndoData) : UtxoSet :=
  { s with
    db := s.db.write (undo.createdOutpoints.map .deleteUtxo
      ++ undo.spentUtxos.map fun u => .putUtxo u.outpoint u.entry.serialize)
    cache := undo.spentUtxos.foldl (fun c u => c.insert u.outpoint (CompactCoin.new u.entry))
      (undo.createdOutpoints.foldl (fun c o => c.erase o) s.cache) }

/-- Undo a block from its record alone; the hash of the parent comes back. -/
def rollbackBlock (s : UtxoSet) (hash : Hash) : Except StorageError (Hash × UtxoSet) := do
  match ← s.loadUndo hash with
  | none =>
    let bytes := (leBytes 4 hash.toNat).map fun b => String.ofList (Nat.toDigits 16 b.toNat)
    throw (.serialization
      ("no undo data for block [" ++ String.intercalate ", " bytes ++ "]"))
  | some undo =>
    match undo.prevBlockHash with
    | none =>
      throw (.serialization ("undo data missing prev_block_hash "
        ++ "(old format — cannot rollback without block store)"))
    | some prev =>
      let s := if undo.createdOutpoints.isEmpty && undo.spentUtxos.isEmpty then s
        else s.writeRollback undo
      return (prev, s.deleteUndo hash)

/-! ## Operations the coins do not see -/

variable {s s' : UtxoSet}

/-- **Two stores with the same coins**, layer by layer. -/
structure SameCoins (s s' : UtxoSet) : Prop where
  utxo : s'.db.utxo = s.db.utxo
  entries : s'.writeBuffer.entries = s.writeBuffer.entries
  cache : s'.cache = s.cache

theorem SameCoins.layers_eq (h : SameCoins s s') : s'.layers = s.layers := by
  unfold layers UtxoDb.coin
  rw [h.utxo, h.entries, h.cache]

theorem SameCoins.view_eq (h : SameCoins s s') : s'.view = s.view := by
  rw [view, view, h.layers_eq]

theorem Sound.sameCoins (h : s.Sound) (hs : SameCoins s s') : s'.Sound where
  disk := by
    unfold UtxoDb.WellFormed
    rw [hs.utxo]
    exact h.disk
  pending := by
    rw [hs.entries]
    exact h.pending
  coherent := by
    rw [hs.layers_eq]
    exact h.coherent

theorem sameCoins_storeUndo (s : UtxoSet) (hash : Hash) (spent : List SpentUtxo)
    (created : List OutPoint) (prev : Hash) :
    SameCoins s (s.storeUndo hash spent created prev) := ⟨rfl, rfl, rfl⟩

theorem sameCoins_setPendingFlushHeight (s : UtxoSet) (height : Nat) (hash : Hash) :
    SameCoins s (s.setPendingFlushHeight height hash) := ⟨rfl, rfl, rfl⟩

theorem sameCoins_deleteUndo (s : UtxoSet) (hash : Hash) :
    SameCoins s (s.deleteUndo hash) := ⟨rfl, rfl, rfl⟩

/-! ## Records through batches and flushes -/

variable {record : Option Bytes} {s : UtxoSet} {hash : Hash}

/-- **The undo record of a block is `record`**, now and after any flush: so is
every record buffered under the hash, and the one on disk if none is buffered.
With `none` the block has no record. -/
structure Recorded (s : UtxoSet) (hash : Hash) (record : Option Bytes) : Prop where
  buffered : ∀ p ∈ s.writeBuffer.undoBuffer, p.1 = hash → some p.2 = record
  present : hash ∈ s.writeBuffer.undoBuffer.map Prod.fst ∨ s.db.undo hash = record

theorem Recorded.undoBytes_eq (h : s.Recorded hash record) : s.undoBytes hash = record := by
  unfold undoBytes
  cases hf : s.writeBuffer.undoBuffer.find? fun p => p.1 == hash with
  | some p =>
    have hp : p.1 = hash := by simpa using find?_some hf
    exact h.buffered p (mem_of_find?_eq_some hf) hp
  | none =>
    refine h.present.resolve_left fun hmem => ?_
    obtain ⟨p, hp, rfl⟩ := mem_map.mp hmem
    exact absurd (find?_eq_none.mp hf p hp) (by simp)

/-- What is recorded depends on the undo records alone. -/
theorem Recorded.of_eq
    (h : s.Recorded hash record) (hb : s'.writeBuffer.undoBuffer = s.writeBuffer.undoBuffer)
    (hd : s'.db.undo = s.db.undo) : s'.Recorded hash record :=
  ⟨hb ▸ h.buffered, by rw [hb, hd]; exact h.present⟩

theorem recorded_storeUndo (spent : List SpentUtxo) (created : List OutPoint) (prev : Hash)
    (hfresh : hash ∉ s.writeBuffer.undoBuffer.map Prod.fst) :
    (s.storeUndo hash spent created prev).Recorded hash
      (some (serializeUndo spent created prev)) where
  buffered := by
    intro p hp hph
    rcases mem_append.mp hp with hp | hp
    · exact absurd (mem_map.mpr ⟨p, hp, hph⟩) hfresh
    · rw [mem_singleton.mp hp]
  present := by
    refine Or.inl (mem_map.mpr ⟨(hash, serializeUndo spent created prev), ?_, rfl⟩)
    exact mem_append_right _ mem_cons_self

theorem Recorded.storeUndo_of_ne {hash hash' : Hash}
    (h : s.Recorded hash record) (hne : hash' ≠ hash) (spent : List SpentUtxo)
    (created : List OutPoint) (prev : Hash) :
    (s.storeUndo hash' spent created prev).Recorded hash record where
  buffered := by
    intro p hp hph
    rcases mem_append.mp hp with hp | hp
    · exact h.buffered p hp hph
    · rw [mem_singleton.mp hp] at hph
      exact absurd hph hne
  present := by
    refine h.present.imp_left fun hmem => ?_
    show hash ∈ (s.writeBuffer.undoBuffer ++ [(hash', _)]).map Prod.fst
    rw [map_append]
    exact mem_append_left _ hmem

theorem Recorded.deleteUndo_of_ne {hash hash' : Hash}
    (h : s.Recorded hash record) (hne : hash' ≠ hash) :
    (s.deleteUndo hash').Recorded hash record where
  buffered := fun p hp => h.buffered p (mem_filter.mp hp).1
  present := by
    refine h.present.imp (fun hmem => ?_) fun hd => ?_
    · obtain ⟨p, hp, rfl⟩ := mem_map.mp hmem
      refine mem_map.mpr ⟨p, mem_filter.mpr ⟨hp, ?_⟩, rfl⟩
      simpa using hne.symm
    · show update s.db.undo hash' none hash = record
      rw [update_of_ne hne.symm, hd]

/-- A deleted record is gone. -/
theorem recorded_deleteUndo (s : UtxoSet) (hash : Hash) :
    (s.deleteUndo hash).Recorded hash none where
  buffered := by
    intro p hp hph
    have hne := (mem_filter.mp hp).2
    simp [hph] at hne
  present := by
    right
    exact update_self hash none s.db.undo

theorem flushToDisk_undoBuffer (s : UtxoSet) (ρ : MapOrder) :
    (s.flushToDisk ρ).writeBuffer.undoBuffer = [] := by
  unfold flushToDisk
  split
  · rename_i hempty
    rw [Bool.and_eq_true, Bool.and_eq_true] at hempty
    exact isEmpty_iff.mp hempty.1.2
  · rfl

theorem flushToDisk_undo (s : UtxoSet) (ρ : MapOrder) :
    (s.flushToDisk ρ).db.undo = putAll s.db.undo s.writeBuffer.undoBuffer := by
  unfold flushToDisk
  split
  · rename_i hempty
    rw [Bool.and_eq_true, Bool.and_eq_true] at hempty
    rw [isEmpty_iff.mp hempty.1.2]
    rfl
  · rw [foldl_flushWrites]

/-- A flush leaves the record stored last. -/
theorem recorded_flushToDisk
    (h : putAll s.db.undo s.writeBuffer.undoBuffer hash = record)
    (ρ : MapOrder) : (s.flushToDisk ρ).Recorded hash record where
  buffered := by
    rw [flushToDisk_undoBuffer]
    exact fun p hp => (by cases hp)
  present := Or.inr (by rw [flushToDisk_undo, h])

theorem Recorded.putAll_eq (h : s.Recorded hash record) :
    putAll s.db.undo s.writeBuffer.undoBuffer hash = record := by
  by_cases hmem : hash ∈ s.writeBuffer.undoBuffer.map Prod.fst
  · obtain ⟨v, hv, hput⟩ := exists_putAll_of_mem s.db.undo hmem
    exact hput.trans (h.buffered (hash, v) hv rfl)
  · rw [putAll_of_notMem _ hmem]
    exact h.present.resolve_left hmem

theorem Recorded.flushToDisk
    (h : s.Recorded hash record) (ρ : MapOrder) : (s.flushToDisk ρ).Recorded hash record :=
  recorded_flushToDisk h.putAll_eq ρ

/-- A batch leaves the undo records in the write buffer alone. -/
theorem undoBuffer_bufferBatch (s : UtxoSet) (b : UtxoBatch) :
    (s.bufferBatch b).writeBuffer.undoBuffer = s.writeBuffer.undoBuffer := by
  refine WriteBuffer.applyBatch_keeps (fun wb p => ?_) (fun wb o => ?_) (fun _ _ => rfl)
    s.writeBuffer b
  · unfold WriteBuffer.insert
    rcases wb.entries.lookup p.1 with _ | _ | old <;> rfl
  · unfold WriteBuffer.remove
    rcases wb.entries.lookup o with _ | _ | old <;> rfl

theorem Recorded.applyBatch (h : s.Recorded hash record) (ρ : MapOrder) (b : UtxoBatch) :
    (s.applyBatch ρ b).1.Recorded hash record := by
  have hr := recached_maybeEvictCache (s.bufferBatch b) ρ
  have hb : ((s.bufferBatch b).maybeEvictCache ρ).Recorded hash record :=
    h.of_eq (by rw [hr.writeBuffer, undoBuffer_bufferBatch]) (by rw [hr.db]; rfl)
  unfold UtxoSet.applyBatch
  simp only
  split
  · exact hb.flushToDisk ρ
  · exact hb

/-- The record that a flush would leave, through a batch. -/
theorem putAll_undo_applyBatch (s : UtxoSet) (ρ : MapOrder) (b : UtxoBatch) :
    putAll (s.applyBatch ρ b).1.db.undo (s.applyBatch ρ b).1.writeBuffer.undoBuffer
      = putAll s.db.undo s.writeBuffer.undoBuffer := by
  have hr := recached_maybeEvictCache (s.bufferBatch b) ρ
  have hb : ((s.bufferBatch b).maybeEvictCache ρ).writeBuffer.undoBuffer
      = s.writeBuffer.undoBuffer := by rw [hr.writeBuffer, undoBuffer_bufferBatch]
  have hd : ((s.bufferBatch b).maybeEvictCache ρ).db = s.db := hr.db
  unfold UtxoSet.applyBatch
  simp only
  split
  · rw [flushToDisk_undoBuffer, flushToDisk_undo, hb, hd, putAll_nil]
  · rw [hb, hd]

end UtxoSet

/-! ## Rolling back from the record alone -/

namespace UtxoDb

theorem coin_putAll (db : UtxoDb) {l : List (OutPoint × UtxoEntry)}
    (h : ∀ p ∈ l, p.2.Serializable) :
    coin { db with utxo := putAll db.utxo (l.map fun p => (p.1, p.2.serialize)) }
      = putAll db.coin l := by
  induction l generalizing db with
  | nil => rfl
  | cons p l ih =>
    rw [map_cons, putAll_cons, putAll_cons]
    have hcoin : coin { db with utxo := update db.utxo p.1 (some p.2.serialize) }
        = update db.coin p.1 (some p.2) := by
      funext o
      by_cases ho : o = p.1
      · rw [ho, update_self]
        exact coin_of_utxo (h p mem_cons_self) (update_self p.1 _ db.utxo)
      · simp only [coin, update_of_ne ho]
    rw [← hcoin]
    exact ih { db with utxo := update db.utxo p.1 (some p.2.serialize) }
      fun q hq => h q (mem_cons_of_mem p hq)

theorem coin_eraseAll (db : UtxoDb) (os : List OutPoint) :
    coin { db with utxo := eraseAll db.utxo os }
      = eraseAll db.coin os := by
  funext o
  simp only [coin, eraseAll_apply]
  split <;> rfl

end UtxoDb

namespace UtxoSet

/-- What a rollback leaves on disk. -/
theorem writeRollback_db (s : UtxoSet) (undo : UndoData) :
    (s.writeRollback undo).db = { s.db with
      utxo := putAll (eraseAll s.db.utxo undo.createdOutpoints)
        (undo.coins.map fun p => (p.1, p.2.serialize)) } := by
  have hputs : (undo.spentUtxos.map fun u => DbOp.putUtxo u.outpoint u.entry.serialize)
      = (undo.coins.map fun p => (p.1, p.2.serialize)).map fun p => .putUtxo p.1 p.2 := by
    rw [UndoData.coins, map_map, map_map]
    rfl
  show s.db.write (undo.createdOutpoints.map .deleteUtxo ++ _) = _
  rw [hputs, UtxoDb.write_append, UtxoDb.write_deleteUtxo, UtxoDb.write_putUtxo]

/-- A rollback writes through, past the buffer. -/
theorem writeThrough_writeRollback (s : UtxoSet) {undo : UndoData}
    (h : ∀ p ∈ undo.coins, p.2.Serializable) :
    Layers.WriteThrough coinPacking s.layers undo.createdOutpoints undo.coins
      (s.writeRollback undo).layers where
  buffer := rfl
  disk := by
    rw [layers_disk, writeRollback_db,
      UtxoDb.coin_putAll { s.db with utxo := eraseAll s.db.utxo _ } h,
      UtxoDb.coin_eraseAll]
    rfl
  cache := by
    have herase : (fun o => (undo.createdOutpoints.foldl (fun c o => c.erase o) s.cache).lookup o)
        = eraseAll (fun o => s.cache.lookup o) undo.createdOutpoints := by
      funext o
      rw [PartialMap.lookup_foldl_erase (fun o => o), map_id', eraseAll_apply]
    refine (lookup_foldl_insert SpentUtxo.outpoint (fun u => CompactCoin.new u.entry) _
      undo.spentUtxos).trans ?_
    rw [herase, UndoData.coins, map_map]
    rfl

/-- With nothing pending, a rollback is its deletions and then its puts on
what the store holds, and the store stays sound. -/
theorem Sound.writeRollback {s : UtxoSet} (hs : s.Sound)
    (hb : ∀ o, s.writeBuffer.entries.lookup o = none) (undo : UndoData)
    (h : ∀ p ∈ undo.coins, p.2.Serializable) :
    (s.writeRollback undo).Sound ∧ (s.writeRollback undo).view
      = putAll (eraseAll s.view undo.createdOutpoints) undo.coins := by
  have hw := s.writeThrough_writeRollback h
  refine ⟨⟨?_, fun o e he => ?_, hs.coherent.writeThrough hb hw⟩, hw.contents_eq hb⟩
  · intro o data hd
    rw [writeRollback_db] at hd
    rcases putAll_eq_some hd with hin | ⟨-, hd⟩
    · obtain ⟨p, hp, hk⟩ := mem_map.mp hin
      exact ⟨p.2, h p hp, (Prod.mk.inj hk).2.symm⟩
    · rw [eraseAll_apply] at hd
      split at hd
      · cases hd
      · exact hs.disk o data hd
  · rw [show (s.writeRollback undo).writeBuffer = s.writeBuffer from rfl, hb] at he
    cases he

variable {created : List OutPoint} {spent : List SpentUtxo}

/-- A block is rolled back if its record loads and names the parent. -/
theorem rollbackBlock_of_loadUndo {s : UtxoSet} {hash prev : Hash}
    (hload : s.loadUndo hash = .ok (some ⟨spent, created, some prev⟩)) :
    s.rollbackBlock hash
      = .ok (prev, (if created.isEmpty && spent.isEmpty then s
          else s.writeRollback ⟨spent, created, some prev⟩).deleteUndo hash) := by
  unfold rollbackBlock
  rw [hload]
  rfl

/-- A rollback leaves the undo records of other blocks alone. -/
theorem Recorded.rollbackBlock_of_ne {s s' : UtxoSet} {hash hash' prev : Hash}
    {record : Option Bytes} (h : s.Recorded hash record) (hne : hash' ≠ hash)
    (hload : s.loadUndo hash' = .ok (some ⟨spent, created, some prev⟩))
    (hroll : s.rollbackBlock hash' = .ok (prev, s')) : s'.Recorded hash record := by
  rw [rollbackBlock_of_loadUndo hload] at hroll
  obtain rfl := (Prod.mk.inj (Except.ok.inj hroll)).2
  refine Recorded.deleteUndo_of_ne ?_ hne
  split
  · exact h
  · exact h.of_eq rfl (by rw [writeRollback_db])

/-- **A recorded block is rolled back** to its parent: created outpoints
deleted, spent coins put over them. -/
theorem Sound.rollbackBlock {s : UtxoSet} (hs : s.Sound)
    (hb : ∀ o, s.writeBuffer.entries.lookup o = none) {hash prev : Hash}
    (hload : s.loadUndo hash = .ok (some ⟨spent, created, some prev⟩))
    (h : ∀ p ∈ spent.map fun u => (u.outpoint, u.entry), p.2.Serializable) :
    ∃ s', s.rollbackBlock hash = .ok (prev, s') ∧ s'.Sound
      ∧ s'.view = putAll (eraseAll s.view created)
          (spent.map fun u => (u.outpoint, u.entry)) := by
  rw [rollbackBlock_of_loadUndo hload]
  by_cases hempty : (created.isEmpty && spent.isEmpty) = true
  · rw [Bool.and_eq_true, List.isEmpty_iff, List.isEmpty_iff] at hempty
    obtain ⟨rfl, rfl⟩ := hempty
    exact ⟨_, rfl, hs.sameCoins (s.sameCoins_deleteUndo hash),
      (s.sameCoins_deleteUndo hash).view_eq⟩
  · rw [if_neg hempty]
    have hsame := (s.writeRollback ⟨spent, created, some prev⟩).sameCoins_deleteUndo hash
    obtain ⟨hsound, hview⟩ := hs.writeRollback hb ⟨spent, created, some prev⟩ h
    exact ⟨_, rfl, hsound.sameCoins hsame, hsame.view_eq.trans hview⟩

/-! ## Outpoints that are gone -/

variable {o : OutPoint}

/-- **Gone**: nothing is cached for the outpoint, and it is deleted on disk or
about to be. No coherence of the other outpoints is asked for. -/
structure Gone (s : UtxoSet) (o : OutPoint) : Prop where
  cache : s.cache.lookup o = none
  rest : s.writeBuffer.entries.lookup o = some none ∨
    (s.writeBuffer.entries.lookup o = none ∧ s.db.utxo o = none)

theorem Gone.get_eq {s : UtxoSet} (h : s.Gone o) : (s.get o).1 = .ok none := by
  unfold get
  rcases h.rest with hb | ⟨hb, hd⟩
  · rw [hb]
  · rw [hb, h.cache, hd]

theorem Gone.sameCoins {s s' : UtxoSet} (h : s.Gone o) (hs : SameCoins s s') :
    s'.Gone o :=
  ⟨by rw [hs.cache]; exact h.cache, by rw [hs.entries, hs.utxo]; exact h.rest⟩

theorem Gone.flushToDisk {s : UtxoSet} (h : s.Gone o) (ρ : MapOrder) :
    (s.flushToDisk ρ).Gone o where
  cache := by
    rcases s.flushToDisk_cache ρ o with hc | ⟨e, he, -⟩
    · rw [hc, h.cache]
    · rcases h.rest with hb | ⟨hb, -⟩ <;> rw [hb] at he <;> cases he
  rest := by
    refine Or.inr ⟨s.flushToDisk_buffer ρ o, ?_⟩
    rw [flushToDisk_utxo]
    rcases h.rest with hb | ⟨hb, hd⟩
    · rw [hb]
      rfl
    · rw [hb]
      exact hd

/-- What a batch removes is gone. -/
theorem gone_applyBatch (s : UtxoSet) (ρ : MapOrder) {b : UtxoBatch}
    (ho : o ∈ b.removals) : (s.applyBatch ρ b).1.Gone o := by
  have hw := s.write_bufferBatch b
  have hcache : (s.bufferBatch b).cache.lookup o = none := by
    have hc := hw.cache o
    rwa [if_pos ho] at hc
  have hr := recached_maybeEvictCache (s.bufferBatch b) ρ
  have hbuf : ((s.bufferBatch b).maybeEvictCache ρ).writeBuffer.entries.lookup o = some none := by
    rw [hr.writeBuffer]
    exact (congrFun hw.buffer o).trans (Layers.bufferWrite_of_mem_dels _ _ ho)
  have hgone : ((s.bufferBatch b).maybeEvictCache ρ).Gone o := by
    refine ⟨?_, Or.inl hbuf⟩
    rcases hr.layers.cache o with hc | hc | ⟨hb, -⟩
    · exact hc.trans hcache
    · exact hc
    · rw [layers_buffer, ← hr.writeBuffer, hbuf] at hb
      cases hb
  unfold UtxoSet.applyBatch
  simp only
  split
  · exact hgone.flushToDisk ρ
  · exact hgone

end UtxoSet
