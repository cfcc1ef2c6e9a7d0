import BitcoinPR.Core.Path

/-!
# Rolling back many blocks

`UtxoSet.rollbackTo` undoes one block after the other from the undo records on
disk. Every block is written through as it is undone, while the height and the
hash that say which block the disk is at are written once, at the end. When a
record further down cannot be read the blocks above it are gone and the
metadata still names the old tip; when all records are there, the metadata is
moved, and each block was undone in the order that resurrects what it both
created and spent.

What the disk holds afterwards is computed by the undo log of the path, and
`describes_rollbackTo_iff` says exactly when it is what the metadata says.
-/

open List Prod UndoLog

/-! ## The code -/

namespace UtxoSet

/-- The height the disk is at. -/
def getFlushHeight (s : UtxoSet) : Except StorageError (Option Nat) :=
  match s.db.flushHeight with
  | none => .ok none
  | some data =>
    if data.length = 4 then .ok (some (ofLeBytes data))
    else .error (.serialization "flush_height has unexpected length")

/-- The hash of the block the disk is at. -/
def getFlushHash (s : UtxoSet) : Except StorageError (Option Hash) :=
  match s.db.flushHash with
  | none => .ok none
  | some data =>
    if data.length = 32 then .ok (some (BitVec.ofNat 256 (ofLeBytes data)))
    else .error (.serialization "flush_hash has unexpected length")

/-- Roll back a number of blocks, down from `hash`. A failure leaves what was
rolled back before it. -/
def rollbackSteps : Nat → UtxoSet → Hash → Except StorageError Hash × UtxoSet
  | 0, s, hash => (.ok hash, s)
  | n + 1, s, hash =>
    match s.rollbackBlock hash with
    | .error e => (.error e, s)
    | .ok (prev, s) => rollbackSteps n s prev

/-- Persist the height and hash the disk is at, and name them as pending. -/
def recordFlushTip (s : UtxoSet) (height : Nat) (hash : Hash) : UtxoSet :=
  { s with
    db := s.db.write [.putFlushHeight (leBytes 4 height), .putFlushHash (leBytes 32 hash.toNat)]
    writeBuffer := { s.writeBuffer with
      pendingFlushHeight := some height
      pendingFlushHash := some hash } }

/-- When all blocks are rolled back, the metadata follows. -/
def finishRollback (targetHeight : Nat) :
    Except StorageError Hash × UtxoSet → Except StorageError Unit × UtxoSet
  | (.error e, s) => (.error e, s)
  | (.ok hash, s) => (.ok (), s.recordFlushTip targetHeight hash)

/-- **Roll back to a height**, from wherever the disk is after a flush. -/
def rollbackTo (s : UtxoSet) (ρ : MapOrder) (targetHeight : Nat) :
    Except StorageError Unit × UtxoSet :=
  let s := s.flushToDisk ρ
  match s.getFlushHeight with
  | .error e => (.error e, s)
  | .ok none => (.error (.serialization "cannot rollback: no flush height stored"), s)
  | .ok (some height) =>
    match s.getFlushHash with
    | .error e => (.error e, s)
    | .ok none => (.error (.serialization "cannot rollback: no flush hash stored"), s)
    | .ok (some hash) =>
      if height ≤ targetHeight then (.ok (), s)
      else finishRollback targetHeight (rollbackSteps (height - targetHeight) s hash)

/-- A block can be rolled back: its undo record parses and names its parent. -/
def readable (s : UtxoSet) (hash : Hash) : Bool :=
  match s.loadUndo hash with
  | .ok (some undo) => undo.prevBlockHash.isSome
  | _ => false

end UtxoSet

/-! ## What the disk says -/

/-- **The disk is at a block**: it holds these coins, and its metadata the
height and the hash. -/
structure UtxoDb.FlushedAt (db : UtxoDb) (coins : OutPoint → Option UtxoEntry) (height : Nat)
    (hash : Hash) : Prop where
  coins : db.coin = coins
  flushHeight : db.flushHeight = some (leBytes 4 height)
  flushHash : db.flushHash = some (leBytes 32 hash.toNat)

section Path

variable [Hashing]

/-- **The disk describes itself**: it is at one of the blocks of the path. -/
def UtxoDb.Describes (db : UtxoDb) (genesis : Hash) (levels : List (Block × UtxoBatch)) : Prop :=
  ∃ above below, levels = above ++ below ∧
    db.FlushedAt (replayPath (below.map fst)) below.length
      (tipHash genesis (below.map fst))

/-- **A path on disk**: the disk is at its top, and those of its undo records
that can be read are the ones the blocks were committed with. -/
structure UtxoSet.StoredChain (s : UtxoSet) (genesis : Hash) (levels : List (Block × UtxoBatch)) :
    Prop where
  chained : Chained genesis levels
  length_lt : levels.length < 2 ^ 32
  flushed : s.db.FlushedAt (replayPath (levels.map fst)) levels.length
    (tipHash genesis (levels.map fst))
  records : ∀ l ∈ levels, s.readable l.1.blockHash = true →
    s.db.undo l.1.blockHash = some (UtxoBatch.undoRecord l.1 l.2)

/-- The levels above a height that are rolled back before one that cannot
be. -/
def rolledBack (s : UtxoSet) (above : List (Block × UtxoBatch)) : List (Block × UtxoBatch) :=
  above.takeWhile fun l => s.readable l.1.blockHash

/-- **Rolling back the levels above others leaves the disk describing itself**:
if all records are there, the lowest block that touches an outpoint and creates
it spends it exactly if it was unspent before; and if one is missing, the blocks
rolled back before it created what they touch and spent it again. -/
def SafeToUndo (s : UtxoSet) (above below : List (Block × UtxoBatch)) : Prop :=
  if rolledBack s above = above then
    Restores (replayPath (below.map fst)) (undoLevels above)
  else Cancels (undoLevels (rolledBack s above))

/-- The path is cut at the target. -/
def RollbackSafe (s : UtxoSet) (levels : List (Block × UtxoBatch)) (targetHeight : Nat) : Prop :=
  SafeToUndo s (levels.take (levels.length - targetHeight))
    (levels.drop (levels.length - targetHeight))

namespace UtxoDb.FlushedAt

variable {s : UtxoSet} {coins : OutPoint → Option UtxoEntry} {height : Nat} {hash : Hash}

omit [Hashing] in
theorem getFlushHeight_eq (h : s.db.FlushedAt coins height hash) (hlt : height < 2 ^ 32) :
    s.getFlushHeight = .ok (some height) := by
  rw [UtxoSet.getFlushHeight, h.flushHeight]
  show (if (leBytes 4 height).length = 4 then _ else _) = _
  rw [if_pos (length_leBytes 4 height), ofLeBytes_leBytes (Nat.lt_of_lt_of_eq hlt (by norm_num))]

omit [Hashing] in
theorem getFlushHash_eq (h : s.db.FlushedAt coins height hash) :
    s.getFlushHash = .ok (some hash) := by
  rw [UtxoSet.getFlushHash, h.flushHash]
  show (if (leBytes 32 hash.toNat).length = 32 then _ else _) = _
  rw [if_pos (length_leBytes 32 hash.toNat), ofNat_ofLeBytes_hash]

/-- Whether a disk at a height describes itself is whether it holds the coins of
the path up to that height. -/
theorem describes_iff {db : UtxoDb} {genesis : Hash} {above below : List (Block × UtxoBatch)}
    (h : db.FlushedAt coins below.length (tipHash genesis (below.map fst)))
    (hlt : (above ++ below).length < 2 ^ 32) :
    db.Describes genesis (above ++ below) ↔ coins = replayPath (below.map fst) := by
  constructor
  · rintro ⟨above', below', heq, h'⟩
    have hlen : below'.length = below.length := by
      have hbytes := Option.mem_unique h'.flushHeight h.flushHeight
      have hle : below'.length ≤ (above ++ below).length := by
        rw [heq, length_append]
        exact Nat.le_add_left _ _
      have hle' : below.length ≤ (above ++ below).length := by
        rw [length_append]
        exact Nat.le_add_left _ _
      rw [← ofLeBytes_leBytes (w := 4) (n := below'.length) (by omega), hbytes,
        ofLeBytes_leBytes (by omega)]
    obtain rfl := (append_inj' heq hlen.symm).2
    rw [← h.coins, h'.coins]
  · rintro rfl
    exact ⟨above, below, rfl, h⟩

end UtxoDb.FlushedAt

/-! ## One block -/

namespace UtxoSet

/-- **Some blocks rolled back**: on the coins their levels are undone, other
records stay, and the metadata is not written. -/
structure RolledBack (levels : List (Block × UtxoBatch)) (s s' : UtxoSet) : Prop where
  coins : s'.db.coin = undoAll (undoLevels levels) s.db.coin
  undo : ∀ hash, hash ∉ levels.map (fun l => l.1.blockHash) → s'.db.undo hash = s.db.undo hash
  flushHeight : s'.db.flushHeight = s.db.flushHeight
  flushHash : s'.db.flushHash = s.db.flushHash
  undoBuffer : s'.writeBuffer.undoBuffer = []

variable {s s' s'' : UtxoSet} {l : Block × UtxoBatch} {levels : List (Block × UtxoBatch)}

theorem RolledBack.nil (hb : s.writeBuffer.undoBuffer = []) : RolledBack [] s s :=
  ⟨rfl, fun _ _ => rfl, rfl, rfl, hb⟩

theorem RolledBack.cons (h : RolledBack [l] s s') (h' : RolledBack levels s' s'') :
    RolledBack (l :: levels) s s'' := by
  refine ⟨?_, fun hash hne => ?_, h'.flushHeight.trans h.flushHeight,
    h'.flushHash.trans h.flushHash, h'.undoBuffer⟩
  · rw [h'.coins, h.coins]
    rfl
  · rw [map_cons, mem_cons, not_or] at hne
    rw [h'.undo hash hne.2, h.undo hash fun hmem => hne.1 (mem_singleton.mp hmem)]

theorem rolledBack_congr {above : List (Block × UtxoBatch)}
    (h : ∀ l ∈ above, s'.readable l.1.blockHash = s.readable l.1.blockHash) :
    rolledBack s' above = rolledBack s above := by
  induction above with
  | nil => rfl
  | cons l above ih =>
    have hrest := ih fun l' hl' => h l' (mem_cons_of_mem _ hl')
    simp only [rolledBack] at hrest
    simp only [rolledBack, takeWhile_cons, h l mem_cons_self, hrest]

omit [Hashing] in
theorem exists_error_of_not_readable {hash : Hash} (h : s.readable hash = false) :
    ∃ e, s.rollbackBlock hash = .error e := by
  unfold rollbackBlock
  unfold readable at h
  rcases hl : s.loadUndo hash with e | _ | ⟨spent, created, prev⟩ <;> rw [hl] at h
  · exact ⟨e, rfl⟩
  · exact ⟨_, rfl⟩
  · cases prev with
    | none => exact ⟨_, rfl⟩
    | some prev => cases h

/-- **A committed block is rolled back** to its parent. -/
theorem exists_rolledBack {base : OutPoint → Option UtxoEntry} {height : Nat}
    (hb : s.writeBuffer.undoBuffer = []) (hcomm : l.2.Committed base l.1 height)
    (hrec : s.db.undo l.1.blockHash = some (UtxoBatch.undoRecord l.1 l.2)) :
    ∃ s', s.rollbackBlock l.1.blockHash = .ok (l.1.header.prevBlockhash, s')
      ∧ RolledBack [l] s s' := by
  have hload := hcomm.loadUndo_eq (u := s)
    ⟨by rw [hb]; exact fun _ hp => (by cases hp), Or.inr hrec⟩
  have hfilter : s.writeBuffer.undoBuffer.filter (fun p => p.1 != l.1.blockHash) = [] := by
    rw [hb]
    rfl
  have hundo : ∀ (m : Hash → Option Bytes) (hash : Hash), hash ∉ [l].map (fun l => l.1.blockHash) →
      Function.update m l.1.blockHash none hash = m hash := fun m hash hne =>
    Function.update_of_ne (fun heq => hne (mem_singleton.mpr heq)) _ _
  rw [rollbackBlock_of_loadUndo hload]
  by_cases hempty : ((l.2.inserts.map fst).isEmpty && l.2.spentUtxos.isEmpty) = true
  · rw [if_pos hempty]
    rw [Bool.and_eq_true, List.isEmpty_iff, List.isEmpty_iff] at hempty
    refine ⟨_, rfl, ?_, hundo s.db.undo, rfl, rfl, hfilter⟩
    show s.db.coin = PartialMap.putAll (PartialMap.eraseAll s.db.coin (l.2.inserts.map fst))
      (l.2.spentUtxos.map fun u => (u.outpoint, u.entry))
    rw [hempty.1, hempty.2]
    rfl
  · rw [if_neg hempty]
    have hdb := s.writeRollback_db
      ⟨l.2.spentUtxos, l.2.inserts.map fst, some l.1.header.prevBlockhash⟩
    refine ⟨_, rfl, ?_, ?_, ?_, ?_, hfilter⟩
    · show UtxoDb.coin { (s.writeRollback _).db with undo := _ } = _
      rw [hdb]
      refine (UtxoDb.coin_putAll { s.db with utxo := PartialMap.eraseAll s.db.utxo _ }
        hcomm.serializable_undoCoins).trans ?_
      rw [UtxoDb.coin_eraseAll]
      rfl
    · show ∀ hash, _ → Function.update (s.writeRollback _).db.undo _ none hash = _
      rw [hdb]
      exact hundo s.db.undo
    · show (s.writeRollback _).db.flushHeight = _
      rw [hdb]
    · show (s.writeRollback _).db.flushHash = _
      rw [hdb]

/-! ## The loop -/

section

variable {genesis : Hash} {above below : List (Block × UtxoBatch)}
  (hb : s.writeBuffer.undoBuffer = [])
include hb

/-- **The loop undoes the levels down to the target**, or down to the first it
cannot read. The induction is on the levels still to be undone; that no two
blocks share a hash keeps their records. -/
theorem rollbackSteps_of_chained (hchain : Chained genesis (above ++ below))
    (hrec : ∀ l ∈ above, s.readable l.1.blockHash = true →
      s.db.undo l.1.blockHash = some (UtxoBatch.undoRecord l.1 l.2)) :
    ∃ result s', rollbackSteps above.length s (tipHash genesis ((above ++ below).map fst))
        = (result, s') ∧ RolledBack (rolledBack s above) s s'
      ∧ ((rolledBack s above = above ∧ result = .ok (tipHash genesis (below.map fst)))
        ∨ (rolledBack s above ≠ above ∧ ∃ e, result = .error e)) := by
  induction above generalizing s with
  | nil => exact ⟨_, s, rfl, .nil hb, Or.inl ⟨rfl, rfl⟩⟩
  | cons l above ih =>
    obtain ⟨hchain, hprev, hcomm, hunique⟩ := hchain.inv
    simp only [length_cons, cons_append, map_cons, tipHash, rollbackSteps]
    cases hread : s.readable l.1.blockHash with
    | false =>
      obtain ⟨e, he⟩ := exists_error_of_not_readable hread
      have hstop : rolledBack s (l :: above) = [] := by
        simp only [rolledBack, takeWhile_cons, hread, Bool.false_eq_true, if_false]
      rw [he, hstop]
      exact ⟨_, s, rfl, .nil hb, Or.inr ⟨fun h => (by cases h), e, rfl⟩⟩
    | true =>
      obtain ⟨s₁, hroll, hrolled⟩ := exists_rolledBack hb hcomm (hrec l mem_cons_self hread)
      have hkept : ∀ l' ∈ above, s₁.db.undo l'.1.blockHash = s.db.undo l'.1.blockHash := by
        intro l' hl'
        refine hrolled.undo _ fun hmem => hunique ?_
        exact mem_map.mpr ⟨l', mem_append_left _ hl', mem_singleton.mp hmem⟩
      have hsame : ∀ l' ∈ above, s₁.readable l'.1.blockHash = s.readable l'.1.blockHash := by
        intro l' hl'
        unfold readable loadUndo undoBytes
        rw [hb, hrolled.undoBuffer]
        rw [hkept l' hl']
      obtain ⟨result, s', hsteps, hrest, hcases⟩ := ih hrolled.undoBuffer hchain
        fun l' hl' hr => (hkept l' hl').trans
          (hrec l' (mem_cons_of_mem _ hl') ((hsame l' hl').symm.trans hr))
      have hgo : rolledBack s (l :: above) = l :: rolledBack s₁ above := by
        simp only [rolledBack, takeWhile_cons, hread, if_true]
        exact congrArg (l :: ·) (rolledBack_congr hsame).symm
      rw [hroll, hprev, hgo]
      refine ⟨result, s', hsteps, hrolled.cons hrest, hcases.imp ?_ ?_⟩
      · exact fun h => ⟨congrArg (l :: ·) h.1, h.2⟩
      · exact fun h => ⟨fun heq => h.1 (List.cons.inj heq).2, h.2⟩

/-- Rolling back the upper part of a path. -/
theorem describes_finishRollback_iff (h : s.StoredChain genesis (above ++ below)) :
    (finishRollback below.length (rollbackSteps above.length s
        (tipHash genesis ((above ++ below).map fst)))).2.db.Describes genesis (above ++ below)
      ↔ SafeToUndo s above below := by
  obtain ⟨result, s', hsteps, hrolled, hcases⟩ := rollbackSteps_of_chained hb h.chained
    fun l hl => h.records l (mem_append_left _ hl)
  rw [hsteps, SafeToUndo]
  rcases hcases with ⟨hall, rfl⟩ | ⟨hpart, e, rfl⟩
  · -- all records were there: the metadata is moved
    rw [hall] at hrolled
    have hat : (s'.recordFlushTip below.length (tipHash genesis (below.map fst))).db.FlushedAt
        (undoAll (undoLevels above)
          (redoAll (undoLevels above) (replayPath (below.map fst))))
        below.length (tipHash genesis (below.map fst)) := by
      refine ⟨?_, rfl, rfl⟩
      rw [← h.chained.replayPath_append, ← h.flushed.coins]
      exact hrolled.coins
    rw [if_pos hall, ← undoAll_redoAll_iff h.chained.validOver]
    exact hat.describes_iff h.length_lt
  · -- a record was missing: the metadata still names the top
    obtain ⟨rest, hrest⟩ := takeWhile_prefix (fun l => s.readable l.1.blockHash) (l := above)
    have hsplit : rolledBack s above ++ (rest ++ below) = above ++ below := by
      rw [← append_assoc, rolledBack, hrest]
    have hchain : Chained genesis (rolledBack s above ++ (rest ++ below)) := hsplit ▸ h.chained
    have hcoins := h.flushed.coins
    rw [← hsplit, hchain.replayPath_append] at hcoins
    have hat : s'.db.FlushedAt (undoAll (undoLevels (rolledBack s above))
          (redoAll (undoLevels (rolledBack s above))
            (replayPath ((rest ++ below).map fst))))
        (above ++ below).length (tipHash genesis ((above ++ below).map fst)) := by
      refine ⟨?_, hrolled.flushHeight.trans h.flushed.flushHeight,
        hrolled.flushHash.trans h.flushed.flushHash⟩
      rw [← hcoins]
      exact hrolled.coins
    rw [if_neg hpart, ← undoAll_eq_redoAll_iff hchain.stamped
      (fun _ _ he => ?_) hchain.validOver]
    · rw [← hchain.replayPath_append, hsplit] at hat ⊢
      show s'.db.Describes genesis ([] ++ (above ++ below)) ↔ _
      exact hat.describes_iff h.length_lt
    · have hle := height_le_of_replayPath he
      rwa [length_map] at hle

end

/-- **When the disk describes itself after a rollback**, whatever the target and
whether the rollback succeeds or not. -/
theorem describes_rollbackTo_iff {ρ : MapOrder} {genesis : Hash}
    (h : (s.flushToDisk ρ).StoredChain genesis levels) (targetHeight : Nat) :
    (s.rollbackTo ρ targetHeight).2.db.Describes genesis levels
      ↔ RollbackSafe (s.flushToDisk ρ) levels targetHeight := by
  have hb := s.flushToDisk_undoBuffer ρ
  unfold rollbackTo
  generalize s.flushToDisk ρ = u at h hb
  simp only [h.flushed.getFlushHeight_eq h.length_lt, h.flushed.getFlushHash_eq]
  unfold RollbackSafe
  have hcut := take_append_drop (levels.length - targetHeight) levels
  have habove : (levels.take (levels.length - targetHeight)).length
      = levels.length - targetHeight := by
    rw [length_take]
    omega
  have hbelow : (levels.drop (levels.length - targetHeight)).length
      = levels.length - (levels.length - targetHeight) := length_drop
  generalize levels.take (levels.length - targetHeight) = above at hcut habove ⊢
  generalize levels.drop (levels.length - targetHeight) = below at hcut hbelow ⊢
  by_cases hle : levels.length ≤ targetHeight
  · -- nothing is above the target
    obtain rfl : above = [] := length_eq_zero_iff.mp (by omega)
    rw [if_pos hle, SafeToUndo]
    refine iff_of_true ⟨[], levels, rfl, h.flushed⟩ fun k low hlow => ?_
    cases hlow
  · obtain rfl : targetHeight = below.length := by omega
    rw [if_neg hle, ← habove]
    subst hcut
    exact describes_finishRollback_iff hb h

end UtxoSet

/-- A block of a coinbase alone is committed over anything. -/
theorem committed_coinbaseOnly {base : OutPoint → Option UtxoEntry} {block : Block} {height : Nat}
    {coinbase : Tx} (htx : block.txdata = [coinbase])
    (hser : ∀ o e, base o = some e → e.Serializable) (hheight : height < 2 ^ 32)
    (hweight : block.weight < 2 ^ 32) :
    UtxoBatch.Committed base block height ⟨blockCoins height block, [], []⟩ := by
  have hspent : ChainState.spentOutpoints block = [] := by
    rw [ChainState.spentOutpoints, htx]
    rfl
  refine ⟨⟨rfl, hspent.symm, rfl, fun u hu => (by cases hu), nodup_nil, ?_⟩, hser, hheight, hweight⟩
  rw [htx]
  exact ⟨⟨nodup_nil, fun k hk => (by cases hk), fun k hk => (by cases hk)⟩, trivial⟩

end Path

/-- Whatever the path, its undo records and the target, the disk describes
itself after a rollback. -/
def RollbackKeepsMetadataTrue : Prop :=
  ∀ [Hashing] (s : UtxoSet) (ρ : MapOrder) (genesis : Hash) (levels : List (Block × UtxoBatch))
    (targetHeight : Nat), (s.flushToDisk ρ).StoredChain genesis levels →
    (s.rollbackTo ρ targetHeight).2.db.Describes genesis levels

section Sample

attribute [local instance] sampleHashing sampleScripts

/-- A coinbase block with its batch. -/
def coinbaseLevel (prev nonce time height txid : Nat) : Block × UtxoBatch :=
  (sampleBlock prev nonce time height txid [],
    ⟨blockCoins height (sampleBlock prev nonce time height txid []), [], []⟩)

/-- Blocks 2 and 3 on block 1. -/
def twoLevels : List (Block × UtxoBatch) :=
  [coinbaseLevel 2 3 11 2 1002, coinbaseLevel 1 2 10 1 1001]

theorem chained_twoLevels : Chained 1#256 twoLevels := by
  refine .cons (.cons .nil rfl ?_ (by decide)) (by decide) ?_ (by decide)
  · exact committed_coinbaseOnly rfl (fun _ _ he => (by cases he)) (by decide) (by decide)
  · have hall : ∀ p ∈ blockCoins 1 (sampleBlock 1 2 10 1 1001 []), p.2.Serializable := by decide
    exact committed_coinbaseOnly rfl (fun _ _ he => hall _ (PartialMap.mem_of_putAll_none he))
      (by decide) (by decide)

/-- A store at block 3, with the undo records of the given blocks. -/
def storeAtTwo (recorded : List (Block × UtxoBatch)) : UtxoSet :=
  UtxoSet.openDb
    { utxo := PartialMap.putAll (fun _ => none)
        ((blockCoins 1 (coinbaseLevel 1 2 10 1 1001).1
          ++ blockCoins 2 (coinbaseLevel 2 3 11 2 1002).1).map fun p => (p.1, p.2.serialize))
      undo := PartialMap.putAll (fun _ => none)
        (recorded.map fun l => (l.1.blockHash, UtxoBatch.undoRecord l.1 l.2))
      flushHeight := some (leBytes 4 2)
      flushHash := some (leBytes 32 3) } 100 1000000

theorem storedChain_storeAtTwo {recorded : List (Block × UtxoBatch)}
    (h : ∀ l ∈ twoLevels, (storeAtTwo recorded).db.undo l.1.blockHash = none ∨
      (storeAtTwo recorded).db.undo l.1.blockHash = some (UtxoBatch.undoRecord l.1 l.2)) :
    (storeAtTwo recorded).StoredChain 1#256 twoLevels := by
  refine ⟨chained_twoLevels, by decide, ⟨?_, rfl, rfl⟩, fun l hl hread => ?_⟩
  · have hser : ∀ p ∈ blockCoins 1 (coinbaseLevel 1 2 10 1 1001).1
        ++ blockCoins 2 (coinbaseLevel 2 3 11 2 1002).1, p.2.Serializable := by decide
    refine (UtxoDb.coin_putAll { (storeAtTwo recorded).db with utxo := fun _ => none }
      hser).trans ?_
    rfl
  · refine (h l hl).resolve_left fun hnone => ?_
    have hbytes : (storeAtTwo recorded).undoBytes l.1.blockHash = none := hnone
    rw [UtxoSet.readable, UtxoSet.loadUndo, hbytes] at hread
    cases hread

/-- With both records, the disk describes itself when it is rolled back to
height 1. -/
theorem describes_storeAtTwo :
    ((storeAtTwo twoLevels).rollbackTo sampleEnv.order 1).2.db.Describes 1#256 twoLevels := by
  refine (UtxoSet.describes_rollbackTo_iff (s := storeAtTwo twoLevels)
    (storedChain_storeAtTwo (by decide +kernel)) 1).mpr ?_
  have hall : rolledBack ((storeAtTwo twoLevels).flushToDisk sampleEnv.order)
      [coinbaseLevel 2 3 11 2 1002] = [coinbaseLevel 2 3 11 2 1002] := by decide +kernel
  have hnew : ∀ k ∈ (coinbaseLevel 2 3 11 2 1002).2.inserts.map fst,
      ¬ (replayPath [(coinbaseLevel 1 2 10 1 1001).1] k).isSome := by decide +kernel
  show SafeToUndo _ [coinbaseLevel 2 3 11 2 1002] [coinbaseLevel 1 2 10 1 1001]
  intro k low hlow hc
  -- the one level that is undone spends nothing
  obtain ⟨-, rfl⟩ : _ ∧ (coinbaseLevel 2 3 11 2 1002).2.level = low := by
    simpa [lowest, undoLevels] using hlow
  exact iff_of_false not_mem_nil (hnew k hc)

/-- **A failed rollback leaves a disk that misdescribes itself**: block 2 has no
undo record, so that rolling back to height 0 undoes block 3 and stops, with
block 3 still named as the block the disk is at. -/
theorem not_rollbackKeepsMetadataTrue : ¬ RollbackKeepsMetadataTrue := by
  intro h
  have hdesc := h (storeAtTwo [coinbaseLevel 2 3 11 2 1002]) sampleEnv.order 1#256 twoLevels 0
    (storedChain_storeAtTwo (by decide +kernel))
  have hat : ((storeAtTwo [coinbaseLevel 2 3 11 2 1002]).rollbackTo sampleEnv.order
      0).2.db.FlushedAt _ twoLevels.length (tipHash 1#256 (twoLevels.map fst)) :=
    ⟨rfl, by decide +kernel, by decide +kernel⟩
  -- the coinbase of block 3 is gone
  have hcoin : ((storeAtTwo [coinbaseLevel 2 3 11 2 1002]).rollbackTo sampleEnv.order 0).2.db.coin
      ⟨1002#256, 0⟩ = none := by decide +kernel
  rw [show twoLevels = [] ++ twoLevels from rfl, hat.describes_iff (by decide)] at hdesc
  rw [hdesc] at hcoin
  exact absurd hcoin (by decide +kernel)

end Sample
