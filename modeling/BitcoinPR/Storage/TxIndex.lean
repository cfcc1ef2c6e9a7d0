import BitcoinPR.Storage.Undo

/-!
# The transaction index

By transaction id, the block that contains a transaction, its position in the
block and, in entries written since it is recorded, the place of its bytes in
the serialised block. Entries come in two lengths and are read back in either
(`deserialize_serialize`). Next to them stands the height of the block that was
indexed last.

Indexing a block writes one entry for each of its transactions, over whatever
entry there was; deindexing it deletes by transaction id alone, whichever block
the entry is for. `IndexFollows` says what an index is for: it has entries for
just the transactions of a list of blocks, and each locates its transaction.
Indexing a block adds it to the list (`IndexFollows.index`), and deindexing
takes it off if no other block has one of its transactions
(`IndexFollows.deindex`).
-/

open List

/-- Entry of the transaction index. -/
structure TxIndexEntry where
  blockHash : Hash
  /-- Position of the transaction within the block (0 = coinbase). -/
  txPos : UInt32
  /-- Offset and length of the transaction in the raw block. -/
  txLoc : Option (UInt32 × UInt32)
deriving DecidableEq, Repr

namespace TxIndexEntry

/-- 36 bytes, or 44 with the place of the transaction. -/
def serialize (e : TxIndexEntry) : Bytes :=
  leBytes 32 e.blockHash.toNat ++ (leBytes 4 e.txPos.toNat ++
    match e.txLoc with
    | some (offset, len) => leBytes 4 offset.toNat ++ leBytes 4 len.toNat
    | none => [])

/-- Four bytes as a number. -/
def word (data : Bytes) (i : Nat) : UInt32 := UInt32.ofNat (ofLeBytes ((data.drop i).take 4))

def deserialize (data : Bytes) : Except StorageError TxIndexEntry :=
  if data.length < 36 then .error (.serialization "tx index entry too short")
  else .ok {
    blockHash := BitVec.ofNat 256 (ofLeBytes (data.take 32))
    txPos := word data 32
    txLoc := if 44 ≤ data.length then some (word data 36, word data 40) else none }

/-- Four bytes read behind so many others. -/
theorem word_append {a b : Bytes} {i : Nat} (ha : a.length = i) (n : UInt32) :
    word (a ++ (leBytes 4 n.toNat ++ b)) i = n := by
  have hn : ofLeBytes (leBytes 4 n.toNat) = n.toNat :=
    ofLeBytes_leBytes (Nat.lt_of_lt_of_eq n.toNat_lt (by norm_num))
  rw [word, drop_left' ha, take_left' (length_leBytes 4 _), hn, UInt32.ofNat_toNat]

/-- **Round trip**: an entry of either length is read back. -/
theorem deserialize_serialize (e : TxIndexEntry) : deserialize e.serialize = .ok e := by
  obtain ⟨blockHash, txPos, txLoc⟩ := e
  have hhash : ∀ rest : Bytes, BitVec.ofNat 256
      (ofLeBytes ((leBytes 32 blockHash.toNat ++ rest).take 32)) = blockHash := fun rest => by
    rw [take_left' (length_leBytes 32 _), ofNat_ofLeBytes_hash]
  have hpos : ∀ rest : Bytes,
      word (leBytes 32 blockHash.toNat ++ (leBytes 4 txPos.toNat ++ rest)) 32 = txPos :=
    fun rest => word_append (length_leBytes 32 _) txPos
  cases txLoc with
  | none =>
    have hlen : (serialize ⟨blockHash, txPos, none⟩).length = 36 := by
      simp [serialize]
    unfold deserialize
    rw [if_neg (by omega), if_neg (by omega)]
    simp only [serialize, hhash, hpos]
  | some loc =>
    obtain ⟨offset, len⟩ := loc
    have hlen : (serialize ⟨blockHash, txPos, some (offset, len)⟩).length = 44 := by
      simp [serialize]
    -- the four parts, bracketed so that each is behind all before it
    have hoffset : word (serialize ⟨blockHash, txPos, some (offset, len)⟩) 36 = offset := by
      simp only [serialize]
      exact word_append (by simp) offset
    have hlen' : word (serialize ⟨blockHash, txPos, some (offset, len)⟩) 40 = len := by
      simp only [serialize]
      exact word_append (by simp) len
    unfold deserialize
    rw [if_neg (by omega), if_pos (by omega), hoffset, hlen']
    simp only [serialize, hhash, hpos]

end TxIndexEntry

/-- The places of transactions that follow each other, from an offset on. -/
def txLocationsFrom : Nat → List Tx → List (UInt32 × UInt32)
  | _, [] => []
  | offset, tx :: txs =>
    (UInt32.ofNat offset, UInt32.ofNat tx.totalSize) :: txLocationsFrom (offset + tx.totalSize) txs

/-- Where each transaction is in the raw block: behind header and count, one
after the other. -/
def computeTxLocations (block : Block) : List (UInt32 × UInt32) :=
  txLocationsFrom (80 + varintSize block.txdata.length) block.txdata

/-- The database: entries by transaction id, and the height last indexed. -/
structure TxIndex where
  entries : Hash → Option Bytes
  indexedHeight : Option Bytes

namespace TxIndex

/-- An index just created. -/
def empty : TxIndex := ⟨fun _ => none, none⟩

/-- Look up a transaction by its id. -/
def get (idx : TxIndex) (txid : Hash) : Except StorageError (Option TxIndexEntry) :=
  match idx.entries txid with
  | some data => (TxIndexEntry.deserialize data).map some
  | none => .ok none

/-- The entries of a block. -/
def blockEntries (hash : Hash) (locs : List (UInt32 × UInt32)) (txids : List Hash) :
    List (Hash × Bytes) :=
  txids.zipIdx.map fun p => (p.1, (TxIndexEntry.mk hash (UInt32.ofNat p.2) locs[p.2]?).serialize)

/-- Index all transactions in a block and record its height. -/
def indexBlockAtHeight (idx : TxIndex) (hash : Hash) (txids : List Hash) (height : Nat)
    (locs : List (UInt32 × UInt32)) : TxIndex where
  entries := PartialMap.putAll idx.entries (blockEntries hash locs txids)
  indexedHeight := some (leBytes 4 height)

/-- Remove the entries of all transactions in a block. -/
def deindexBlock (idx : TxIndex) (txids : List Hash) : TxIndex :=
  { idx with entries := PartialMap.eraseAll idx.entries txids }

/-- The highest block height that has been indexed. -/
def getIndexedHeight (idx : TxIndex) : Option Nat :=
  idx.indexedHeight.bind fun data =>
    if 4 ≤ data.length then some (ofLeBytes (data.take 4)) else none

/-! ## Lookups -/

theorem get_of_entry {idx : TxIndex} {txid : Hash} {e : TxIndexEntry}
    (h : idx.entries txid = some e.serialize) : idx.get txid = .ok (some e) := by
  unfold get
  rw [h]
  simp only [TxIndexEntry.deserialize_serialize]
  rfl

section

variable (idx : TxIndex) (hash : Hash) {txids : List Hash} (height : Nat)
  (locs : List (UInt32 × UInt32)) {txid : Hash}

/-- A transaction of the block just indexed is found in it, at its position. -/
theorem get_indexBlockAtHeight_of_mem (hlen : txids.length ≤ 2 ^ 32) (h : txid ∈ txids) :
    ∃ e, (idx.indexBlockAtHeight hash txids height locs).get txid = .ok (some e)
      ∧ e.blockHash = hash ∧ txids[e.txPos.toNat]? = some txid := by
  have hmem : txid ∈ (blockEntries hash locs txids).map Prod.fst := by
    unfold blockEntries
    rw [map_map]
    show txid ∈ txids.zipIdx.map Prod.fst
    rw [zipIdx_map_fst]
    exact h
  obtain ⟨data, hdata, hput⟩ := PartialMap.exists_putAll_of_mem idx.entries hmem
  obtain ⟨⟨id, pos⟩, hp, heq⟩ := mem_map.mp hdata
  obtain ⟨rfl, rfl⟩ := Prod.mk.inj heq
  obtain ⟨hpos, hid⟩ := mem_zipIdx' hp
  refine ⟨_, get_of_entry hput, rfl, ?_⟩
  -- positions fit in 32 bits
  rw [UInt32.toNat_ofNat', Nat.mod_eq_of_lt (Nat.lt_of_lt_of_le hpos hlen), hid]
  exact getElem?_eq_getElem hpos

theorem get_indexBlockAtHeight_of_notMem (h : txid ∉ txids) :
    (idx.indexBlockAtHeight hash txids height locs).get txid = idx.get txid := by
  have hkeep : PartialMap.putAll idx.entries (blockEntries hash locs txids) txid
      = idx.entries txid := by
    refine PartialMap.putAll_of_notMem _ ?_
    unfold blockEntries
    rw [map_map]
    show txid ∉ txids.zipIdx.map Prod.fst
    rw [zipIdx_map_fst]
    exact h
  unfold get indexBlockAtHeight
  simp only [hkeep]

end

theorem get_deindexBlock (idx : TxIndex) (txids : List Hash) (txid : Hash) :
    (idx.deindexBlock txids).get txid = if txid ∈ txids then .ok none else idx.get txid := by
  unfold get deindexBlock
  simp only [PartialMap.eraseAll_apply]
  by_cases h : txid ∈ txids
  · simp only [if_pos h]
  · simp only [if_neg h]

end TxIndex

/-! ## What an index is for -/

variable [Hashing]

/-- The ids of the transactions of a block. -/
def Block.txids (b : Block) : List Hash := b.txdata.map Tx.computeTxid

/-- An entry locates a transaction in a block. -/
def TxIndexEntry.Locates (e : TxIndexEntry) (txid : Hash) (b : Block) : Prop :=
  e.blockHash = b.blockHash ∧ b.txids[e.txPos.toNat]? = some txid

/-- **The index is about these blocks**: a lookup gives an entry just for the
transactions of the blocks, and the entry locates the transaction in one. -/
def IndexFollows (idx : TxIndex) (blocks : List Block) (txid : Hash) : Prop :=
  ∃ found, idx.get txid = .ok found ∧ (found.isSome ↔ ∃ b ∈ blocks, txid ∈ b.txids)
    ∧ ∀ e, found = some e → ∃ b ∈ blocks, e.Locates txid b

/-- Index a block as it is connected. -/
def TxIndex.indexBlock (idx : TxIndex) (b : Block) (height : Nat) : TxIndex :=
  idx.indexBlockAtHeight b.blockHash b.txids height (computeTxLocations b)

namespace IndexFollows

variable {idx : TxIndex} {blocks blocks' : List Block} {txid : Hash} {b : Block}

theorem empty (txid : Hash) : IndexFollows TxIndex.empty [] txid := by
  refine ⟨none, rfl, ⟨fun h => (by cases h), ?_⟩, fun e he => (by cases he)⟩
  rintro ⟨b, hb, -⟩
  cases hb

section

variable (h : IndexFollows idx blocks txid)
include h

/-- Only which blocks there are matters. -/
theorem congr (hmem : ∀ x, x ∈ blocks' ↔ x ∈ blocks) : IndexFollows idx blocks' txid := by
  simp only [IndexFollows, hmem]
  exact h

/-- **Indexing a block** adds it, if it is not one of the blocks already. -/
theorem index (height : Nat) (hlen : b.txdata.length ≤ 2 ^ 32) :
    IndexFollows (idx.indexBlock b height) (b :: blocks) txid := by
  by_cases hmem : txid ∈ b.txids
  · have hlen' : b.txids.length ≤ 2 ^ 32 := by
      rw [Block.txids, length_map]
      exact hlen
    obtain ⟨e, hget, hhash, hpos⟩ := idx.get_indexBlockAtHeight_of_mem b.blockHash height
      (computeTxLocations b) hlen' hmem
    refine ⟨some e, hget, ⟨fun _ => ⟨b, mem_cons_self, hmem⟩, fun _ => rfl⟩, ?_⟩
    rintro e' ⟨⟩
    exact ⟨b, mem_cons_self, hhash, hpos⟩
  · obtain ⟨found, hget, hiff, hloc⟩ := h
    refine ⟨found, ?_, hiff.trans ⟨?_, ?_⟩, fun e he => ?_⟩
    · exact (idx.get_indexBlockAtHeight_of_notMem b.blockHash height _ hmem).trans hget
    · rintro ⟨x, hx, hin⟩
      exact ⟨x, mem_cons_of_mem b hx, hin⟩
    · rintro ⟨x, hx, hin⟩
      rcases mem_cons.mp hx with rfl | hx
      · exact absurd hin hmem
      · exact ⟨x, hx, hin⟩
    · obtain ⟨x, hx, hl⟩ := hloc e he
      exact ⟨x, mem_cons_of_mem b hx, hl⟩

/-- Indexing one of the blocks again. -/
theorem again (height : Nat) (hlen : b.txdata.length ≤ 2 ^ 32) (hb : b ∈ blocks) :
    IndexFollows (idx.indexBlock b height) blocks txid := by
  refine (h.index height hlen).congr fun x => ⟨mem_cons_of_mem b, fun hx => ?_⟩
  rcases mem_cons.mp hx with rfl | hx
  · exact hb
  · exact hx

/-- Blocks without the transaction do not matter to it. -/
theorem append (hb : txid ∉ b.txids) : IndexFollows idx (blocks ++ [b]) txid := by
  obtain ⟨found, hget, hiff, hloc⟩ := h
  refine ⟨found, hget, hiff.trans ⟨?_, ?_⟩, fun e he => ?_⟩
  · rintro ⟨x, hx, hin⟩
    exact ⟨x, mem_append_left _ hx, hin⟩
  · rintro ⟨x, hx, hin⟩
    rcases mem_append.mp hx with hx | hx
    · exact ⟨x, hx, hin⟩
    · exact absurd (mem_singleton.mp hx ▸ hin) hb
  · obtain ⟨x, hx, hl⟩ := hloc e he
    exact ⟨x, mem_append_left _ hx, hl⟩

end

/-- **Deindexing a block** takes it off, if no other block has one of its
transactions. -/
theorem deindex (h : IndexFollows idx (b :: blocks) txid)
    (halone : txid ∈ b.txids → ∀ x ∈ blocks, txid ∉ x.txids) :
    IndexFollows (idx.deindexBlock b.txids) blocks txid := by
  by_cases hmem : txid ∈ b.txids
  · refine ⟨none, ?_, ⟨fun hs => (by cases hs), ?_⟩, fun e he => (by cases he)⟩
    · rw [TxIndex.get_deindexBlock, if_pos hmem]
    · rintro ⟨x, hx, hin⟩
      exact absurd hin (halone hmem x hx)
  · obtain ⟨found, hget, hiff, hloc⟩ := h
    refine ⟨found, ?_, hiff.trans ⟨?_, ?_⟩, fun e he => ?_⟩
    · rw [TxIndex.get_deindexBlock, if_neg hmem]
      exact hget
    · rintro ⟨x, hx, hin⟩
      rcases mem_cons.mp hx with rfl | hx
      · exact absurd hin hmem
      · exact ⟨x, hx, hin⟩
    · rintro ⟨x, hx, hin⟩
      exact ⟨x, mem_cons_of_mem b hx, hin⟩
    · obtain ⟨x, hx, hl⟩ := hloc e he
      rcases mem_cons.mp hx with rfl | hx
      · exact absurd (mem_of_getElem? hl.2) hmem
      · exact ⟨x, hx, hl⟩

end IndexFollows
