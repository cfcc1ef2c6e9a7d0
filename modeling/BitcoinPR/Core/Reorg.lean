import BitcoinPR.Core.Batch

/-!
# Undoing a block

A connected block can be undone in two ways. `ChainState.disconnectBlock` puts
the coins of the undo record back and then removes what the block created;
`UtxoSet.rollbackBlock` works from the record alone and does it the other way
round, deleting what was created and then putting the spent coins over it.

On the coins of the block the two orders differ: an output created and spent
in the same block is in both lists. Disconnecting leaves it removed, rolling
back resurrects it. `Accepted.eraseAll_putAll_coins` and
`Accepted.putAll_coins_eraseAll` say outpoint by outpoint what the two leave.
-/

open PartialMap UtxoSet Prod

/-! ## The two orders on the contents -/

namespace UtxoBatch

/-- The coins the undo record of a batch puts back. -/
def undoCoins (batch : UtxoBatch) : List (OutPoint × UtxoEntry) :=
  batch.spentUtxos.map fun u => (u.outpoint, u.entry)

variable [Hashing]

namespace Accepted

variable {base : OutPoint → Option UtxoEntry} {block : Block} {height : Nat} {batch : UtxoBatch}

section

variable (h : batch.Accepted base block height)
include h

theorem map_fst_undoCoins : batch.undoCoins.map fst = batch.removals := by
  rw [undoCoins, List.map_map, ← h.outpoints]
  rfl

/-- Putting the spent coins back, where the block spent one. -/
theorem putAll_undoCoins_of_mem (m : OutPoint → Option UtxoEntry) {o : OutPoint}
    (ho : o ∈ batch.removals) :
    ∃ e, putAll m batch.undoCoins o = some e
      ∧ (base o = some e ∨ (base o = none ∧ (o, e) ∈ batch.inserts)) := by
  rw [← h.map_fst_undoCoins] at ho
  obtain ⟨e, he, hput⟩ := exists_putAll_of_mem m ho
  obtain ⟨u, hu, hue⟩ := List.mem_map.mp he
  obtain ⟨rfl, rfl⟩ := Prod.mk.inj hue
  exact ⟨u.entry, hput, h.coins u hu⟩

theorem putAll_undoCoins_of_notMem (m : OutPoint → Option UtxoEntry) {o : OutPoint}
    (ho : o ∉ batch.removals) : putAll m batch.undoCoins o = m o :=
  putAll_of_notMem m (by rwa [h.map_fst_undoCoins])

theorem mem_createdOutpoints_iff {o : OutPoint} :
    o ∈ ChainState.createdOutpoints block ↔ o ∈ batch.inserts.map fst := by
  rw [h.inserts]
  exact mem_createdOutpoints

/-- **Put back, then remove what was created**: outpoints the block did not
create read as before the block, the others read as unbound. -/
theorem eraseAll_putAll_coins (o : OutPoint) :
    eraseAll
        (putAll
          (eraseAll (putAll base batch.inserts) batch.removals)
          batch.undoCoins)
        (ChainState.createdOutpoints block) o
      = if o ∈ ChainState.createdOutpoints block then none else base o := by
  rw [eraseAll_apply]
  by_cases hc : o ∈ ChainState.createdOutpoints block
  · rw [if_pos hc, if_pos hc]
  · rw [h.mem_createdOutpoints_iff] at hc
    by_cases hr : o ∈ batch.removals
    · obtain ⟨e, hput, hb | ⟨-, hin⟩⟩ := h.putAll_undoCoins_of_mem
        (eraseAll (putAll base batch.inserts) batch.removals) hr
      · rw [hput, hb]
      · exact absurd (List.mem_map.mpr ⟨_, hin, rfl⟩) hc
    · rw [h.putAll_undoCoins_of_notMem _ hr, eraseAll_apply, if_neg hr, putAll_of_notMem _ hc]

/-- **Delete what was created, then put back**: an outpoint the block spent is
bound again – to the coin before the block if there was one, and else to a coin
the block itself created; the others read as when disconnecting. -/
theorem putAll_coins_eraseAll (o : OutPoint) :
    ∃ v, putAll
        (eraseAll
          (eraseAll (putAll base batch.inserts) batch.removals)
          (batch.inserts.map fst)) batch.undoCoins o = v
      ∧ if o ∈ batch.removals then
          v.isSome ∧ (v = base o ∨ o ∈ ChainState.createdOutpoints block)
        else v = if o ∈ ChainState.createdOutpoints block then none else base o := by
  refine ⟨_, rfl, ?_⟩
  by_cases hr : o ∈ batch.removals
  · obtain ⟨e, hput, hb⟩ := h.putAll_undoCoins_of_mem (eraseAll
      (eraseAll (putAll base batch.inserts) batch.removals)
      (batch.inserts.map fst)) hr
    rw [if_pos hr, hput]
    refine ⟨rfl, hb.imp Eq.symm fun hin => ?_⟩
    exact h.mem_createdOutpoints_iff.mpr (List.mem_map.mpr ⟨_, hin.2, rfl⟩)
  · rw [if_neg hr, h.putAll_undoCoins_of_notMem _ hr, eraseAll_apply]
    by_cases hc : o ∈ ChainState.createdOutpoints block
    · rw [if_pos (h.mem_createdOutpoints_iff.mp hc), if_pos hc]
    · have hc' := h.mem_createdOutpoints_iff.not.mp hc
      rw [if_neg hc', if_neg hc, eraseAll_apply, if_neg hr, putAll_of_notMem _ hc']

/-! ## Bounds from the weight of the block -/

theorem exists_output_of_mem {p : OutPoint × UtxoEntry} (hp : p ∈ batch.inserts) :
    p.2.height = height ∧
      ∃ tx ∈ block.txdata, ∃ out ∈ tx.output, p.2.scriptPubkey = out.scriptPubkey := by
  rw [h.inserts, blockCoins, List.mem_flatMap] at hp
  obtain ⟨t, ht, hp⟩ := hp
  obtain ⟨tx, htx, i, rfl⟩ := mem_transfers ht
  obtain ⟨hph, i, -, hout⟩ := mem_createdCoins hp
  exact ⟨hph, tx, htx, _, List.mem_of_getElem? hout, rfl⟩

theorem length_le_weight : batch.spentUtxos.length + batch.inserts.length ≤ block.weight := by
  have hspent : batch.spentUtxos.length
      = ((transfers height 0 block.txdata).flatMap Ledger.Transfer.spends).length := by
    rw [flatMap_spends_transfers_zero, ← h.removals, ← h.outpoints, List.length_map]
  rw [hspent, h.inserts]
  exact (length_flatMap_transfers_le height 0 block.txdata).trans block.sum_length_le_weight

end

end Accepted

/-- The undo record a block is committed with. -/
def undoRecord (block : Block) (batch : UtxoBatch) : Bytes :=
  serializeUndo batch.spentUtxos (batch.inserts.map fst) block.header.prevBlockhash

/-- **A batch as it is committed**: accepted over coins that can be written to
disk, at a height and of a weight that fit their fields. -/
structure Committed (base : OutPoint → Option UtxoEntry) (block : Block) (height : Nat)
    (batch : UtxoBatch) : Prop where
  accepted : batch.Accepted base block height
  serializable : ∀ o e, base o = some e → e.Serializable
  height_lt : height < 2 ^ 32
  weight_lt : block.weight < 2 ^ 32

namespace Committed

variable {base : OutPoint → Option UtxoEntry} {block : Block} {height : Nat} {batch : UtxoBatch}

section

variable (h : batch.Committed base block height)
include h

theorem serializable_inserts :
    ∀ p ∈ batch.inserts, p.2.Serializable := by
  intro p hp
  obtain ⟨hph, tx, htx, out, hout, hscript⟩ := h.accepted.exists_output_of_mem hp
  have hlen := Tx.length_scriptPubkey_le_weight hout
  have hle := Block.weight_le_of_mem htx
  have hw := h.weight_lt
  refine ⟨hph ▸ h.height_lt, ?_⟩
  rw [hscript]
  omega

theorem serializable_undoCoins :
    ∀ p ∈ batch.undoCoins, p.2.Serializable := by
  intro p hp
  obtain ⟨u, hu, rfl⟩ := List.mem_map.mp hp
  rcases h.accepted.coins u hu with hb | ⟨-, hin⟩
  · exact h.serializable _ _ hb
  · exact h.serializable_inserts _ hin

/-- What the undo record of a committed block loads as. -/
theorem loadUndo_eq {u : UtxoSet}
    (hu : u.Recorded block.blockHash (some (undoRecord block batch))) :
    u.loadUndo block.blockHash
      = .ok (some ⟨batch.spentUtxos, batch.inserts.map fst,
          some block.header.prevBlockhash⟩) := by
  have hlen := h.accepted.length_le_weight
  have hw := h.weight_lt
  rw [UtxoSet.loadUndo, hu.undoBytes_eq]
  refine congrArg (Except.map some) (deserializeUndo_serializeUndo _ (fun sp hsp => ?_)
    (by omega) (by rw [List.length_map]; omega))
  exact h.serializable_undoCoins (sp.outpoint, sp.entry) (List.mem_map.mpr ⟨sp, hsp, rfl⟩)

end

end Committed

end UtxoBatch

/-! ## The store after a connected block -/

namespace ChainState

variable [Hashing] {s s' : ChainState} {env : Env} {block : Block} {height : Nat}
  {batch : UtxoBatch}

theorem sound_stagedStore (hs : s.utxoSet.Sound) (block : Block) (height : Nat)
    (batch : UtxoBatch) : (s.stagedStore block height batch).Sound :=
  ((hs.recached (recached_prefetch _ _)).sameCoins
    (sameCoins_storeUndo _ _ _ _ _)).sameCoins
      (sameCoins_setPendingFlushHeight _ _ _)

namespace Connected

section

variable (h : Connected s env block height batch s')
include h

section

variable (hs : s.utxoSet.Sound) (hheight : height < 2 ^ 32)
include hs hheight

theorem committed : batch.Committed s.utxoSet.view block height :=
  ⟨h.accepted, fun _ _ he => hs.serializable he, hheight,
    Nat.lt_of_le_of_lt h.weight s.params.maxBlockWeight.toNat_lt⟩

/-- **A block on the contents**: its coins bound, what it spends unbound. -/
theorem view_eq :
    s'.utxoSet.view
      = eraseAll (putAll s.utxoSet.view batch.inserts) batch.removals := by
  rw [h.utxoSet]
  exact (sound_stagedStore hs block height batch).view_applyBatch
    (h.committed hs hheight).serializable_inserts env.order

/-- The store stays sound as long as the block creates nothing that is still
unspent: such an outpoint might be cached. -/
theorem sound (hnew : ∀ o ∈ createdOutpoints block, s.utxoSet.view o = none) :
    s'.utxoSet.Sound := by
  have hstaged := sound_stagedStore hs block height batch
  rw [h.utxoSet]
  refine hstaged.applyBatch
    ⟨(h.committed hs hheight).serializable_inserts, fun o ho _ => ?_⟩ env.order
  refine hstaged.coherent.cache_eq_none ?_
  show (s.stagedStore block height batch).view o = none
  exact hnew o (h.accepted.mem_createdOutpoints_iff.mpr ho)

end

/-- The undo record is there, if none was buffered for the block before. -/
theorem recorded (hfresh : block.blockHash ∉ s.utxoSet.writeBuffer.undoBuffer.map fst) :
    s'.utxoSet.Recorded block.blockHash (some (UtxoBatch.undoRecord block batch)) := by
  have hr := recached_prefetch s.utxoSet (spentOutpoints block)
  have hfresh' : block.blockHash
      ∉ (s.utxoSet.prefetch (spentOutpoints block)).writeBuffer.undoBuffer.map fst := by
    exact hfresh
  have hstaged : (s.stagedStore block height batch).Recorded block.blockHash
      (some (UtxoBatch.undoRecord block batch)) :=
    (recorded_storeUndo _ _ _ hfresh').of_eq rfl rfl
  rw [h.utxoSet]
  exact hstaged.applyBatch env.order batch

/-- The records of other blocks are left alone. -/
theorem recorded_of_ne {hash : Hash} {record : Option Bytes} (hr : s.utxoSet.Recorded hash record)
    (hne : block.blockHash ≠ hash) : s'.utxoSet.Recorded hash record := by
  have hrecached := recached_prefetch s.utxoSet (spentOutpoints block)
  have hfetched : (s.utxoSet.prefetch (spentOutpoints block)).Recorded hash record :=
    hr.of_eq (by rw [hrecached.writeBuffer]) (by rw [hrecached.db])
  have hstaged : (s.stagedStore block height batch).Recorded hash record :=
    (hfetched.storeUndo_of_ne hne _ _ _).of_eq rfl rfl
  rw [h.utxoSet]
  exact hstaged.applyBatch env.order batch

/-- After a flush the undo record is there in any case: it was stored last. -/
theorem recorded_flushToDisk (ρ : MapOrder) :
    (s'.utxoSet.flushToDisk ρ).Recorded block.blockHash
      (some (UtxoBatch.undoRecord block batch)) := by
  refine UtxoSet.recorded_flushToDisk ?_ ρ
  rw [h.utxoSet, UtxoSet.putAll_undo_applyBatch]
  show putAll _ (_ ++ [(block.blockHash, UtxoBatch.undoRecord block batch)]) _ = _
  rw [putAll_append, putAll_cons, putAll_nil, Function.update_self]

end

end Connected

/-! ## Disconnecting -/

/-- **When a block is disconnected**, and the state it leaves. -/
theorem disconnectBlock_eq_ok {u : Unit} :
    s.disconnectBlock env block height = (.ok u, s') ↔
      block.blockHash = s.bestHash ∧ height = s.bestHeight
        ∧ ∃ undo, s.utxoSet.loadUndo block.blockHash = .ok (some undo)
          ∧ s.undoBlock env block height undo = s' := by
  unfold disconnectBlock
  by_cases hhash : block.blockHash = s.bestHash
  · by_cases hheight : height = s.bestHeight
    · rcases hload : s.utxoSet.loadUndo s.bestHash with e | _ | undo <;>
        simp [hhash, hheight, hload]
    · simp [hhash, hheight]
  · simp [hhash]

theorem disconnectBlock_of_error {e : CoreError}
    (h : s.disconnectBlock env block height = (.error e, s')) : s' = s := by
  unfold disconnectBlock at h
  by_cases hhash : block.blockHash = s.bestHash
  · by_cases hheight : height = s.bestHeight
    · rcases hload : s.utxoSet.loadUndo s.bestHash with e | _ | undo <;> simp_all
    · simp_all
  · simp_all

/-- **Undoing a block on the contents**: the coins of its record are put back
and what it created is removed. -/
theorem view_undoBlock (hs : s.utxoSet.Sound) (env : Env) (block : Block) (height : Nat)
    (undo : UndoData)
    (hcoins : ∀ p ∈ undo.coins, p.2.Serializable)
    (huncached : ∀ o ∈ undo.coins.map fst, s.utxoSet.view o = none) :
    (s.undoBlock env block height undo).utxoSet.Sound
      ∧ (s.undoBlock env block height undo).utxoSet.view
        = eraseAll (putAll s.utxoSet.view undo.coins)
            (createdOutpoints block) := by
  have hpend := sameCoins_setPendingFlushHeight s.utxoSet (height - 1)
    block.header.prevBlockhash
  have hs₁ := hs.sameCoins hpend
  have happ : (s.utxoSet.setPendingFlushHeight (height - 1)
      block.header.prevBlockhash).Applicable (reverseBatch block undo) :=
    ⟨hcoins, fun o ho _ => hs.coherent.cache_eq_none (huncached o ho)⟩
  have hdel := sameCoins_deleteUndo ((s.utxoSet.setPendingFlushHeight (height - 1)
    block.header.prevBlockhash).applyBatch env.order (reverseBatch block undo)).1 block.blockHash
  have hs₂ := (hs₁.applyBatch happ env.order).sameCoins hdel
  refine ⟨hs₂.flushToDisk env.order, (hs₂.view_flushToDisk env.order).trans ?_⟩
  rw [hdel.view_eq, hs₁.view_applyBatch hcoins]
  rfl

/-- What a block created is gone once it is undone, whatever was cached. -/
theorem gone_undoBlock (s : ChainState) (env : Env) (height : Nat) (undo : UndoData)
    {o : OutPoint} (ho : o ∈ createdOutpoints block) :
    (s.undoBlock env block height undo).utxoSet.Gone o :=
  ((gone_applyBatch _ env.order (b := reverseBatch block undo) ho).sameCoins
    (sameCoins_deleteUndo _ _)).flushToDisk env.order

/-- No record of an undone block is left. -/
theorem recorded_undoBlock (undo : UndoData) :
    (s.undoBlock env block height undo).utxoSet.Recorded block.blockHash none :=
  (recorded_deleteUndo _ _).flushToDisk env.order

/-- The records of other blocks are left alone. -/
theorem recorded_undoBlock_of_ne {hash : Hash} {record : Option Bytes}
    (hr : s.utxoSet.Recorded hash record) (hne : block.blockHash ≠ hash) (undo : UndoData) :
    (s.undoBlock env block height undo).utxoSet.Recorded hash record := by
  have hpend : (s.utxoSet.setPendingFlushHeight (height - 1)
      block.header.prevBlockhash).Recorded hash record := hr.of_eq rfl rfl
  exact ((hpend.applyBatch env.order _).deleteUndo_of_ne hne).flushToDisk env.order

/-- The chain state after any number of flushes. -/
def flushes (s : ChainState) (ρs : List MapOrder) : ChainState :=
  { s with utxoSet := ρs.foldl UtxoSet.flushToDisk s.utxoSet }

omit [Hashing] in
theorem sound_flushes (hs : s.utxoSet.Sound) (ρs : List MapOrder) :
    (s.flushes ρs).utxoSet.Sound ∧ (s.flushes ρs).utxoSet.view = s.utxoSet.view := by
  unfold flushes
  generalize s.utxoSet = u at hs
  induction ρs generalizing u with
  | nil => exact ⟨hs, rfl⟩
  | cons ρ ρs ih =>
    obtain ⟨hsound, hview⟩ := ih _ (hs.flushToDisk ρ)
    exact ⟨hsound, hview.trans (hs.view_flushToDisk ρ)⟩

omit [Hashing] in
theorem recorded_flushes {hash : Hash} {record : Option Bytes}
    (h : s.utxoSet.Recorded hash record) (ρs : List MapOrder) :
    (s.flushes ρs).utxoSet.Recorded hash record := by
  unfold flushes
  generalize s.utxoSet = u at h
  induction ρs generalizing u with
  | nil => exact h
  | cons ρ ρs ih => exact ih _ (h.flushToDisk ρ)

/-- **Disconnecting a committed block** from a store that holds what the block
left: the outpoints it created are unbound and all others are back. -/
theorem disconnectBlock_of_committed {base : OutPoint → Option UtxoEntry}
    (h : batch.Committed base block height) (env : Env) (hs : s.utxoSet.Sound)
    (hview : s.utxoSet.view
      = eraseAll (putAll base batch.inserts) batch.removals)
    (hbest : s.bestHash = block.blockHash) (hbest' : s.bestHeight = height)
    (hrec : s.utxoSet.Recorded block.blockHash (some (UtxoBatch.undoRecord block batch))) :
    ∃ undo, s.disconnectBlock env block height = (.ok (), s.undoBlock env block height undo)
      ∧ (s.undoBlock env block height undo).utxoSet.Sound
      ∧ (s.undoBlock env block height undo).utxoSet.view
        = fun o => if o ∈ createdOutpoints block then none else base o := by
  have hnone : ∀ o ∈ batch.undoCoins.map fst, s.utxoSet.view o = none := by
    intro o ho
    rw [h.accepted.map_fst_undoCoins] at ho
    rw [hview, eraseAll_apply, if_pos ho]
  obtain ⟨hsound, hv⟩ := view_undoBlock hs env block height
    ⟨batch.spentUtxos, batch.inserts.map fst, some block.header.prevBlockhash⟩
    h.serializable_undoCoins hnone
  refine ⟨_, disconnectBlock_eq_ok.mpr ⟨hbest.symm, hbest'.symm, _, h.loadUndo_eq hrec, rfl⟩,
    hsound, funext fun o => ?_⟩
  rw [hv, hview]
  exact h.accepted.eraseAll_putAll_coins o

/-- Removing what a block created leaves a store that did not hold any of it as
it was. -/
theorem if_created_eq {base : OutPoint → Option UtxoEntry}
    (hnew : ∀ o ∈ createdOutpoints block, base o = none) :
    (fun o => if o ∈ createdOutpoints block then none else base o) = base := by
  funext o
  split
  · exact (hnew o ‹_›).symm
  · rfl

/-- Connecting a block and disconnecting it again, with any flushes in
between, is **undone**: the disconnect succeeds, every lookup answers as before,
the tip is back, and no undo record of the block is left. -/
def Undone [ScriptEngine] (s : ChainState) (env env' : Env) (ρs : List MapOrder) (block : Block)
    (height : Nat) : Prop :=
  ∃ s₂, ((s.connectBlock env block height).2.flushes ρs).disconnectBlock env' block height
      = (.ok (), s₂)
    ∧ (∀ o, (s₂.utxoSet.get o).1 = (s.utxoSet.get o).1)
    ∧ s₂.bestHash = s.bestHash ∧ s₂.bestHeight = s.bestHeight
    ∧ s₂.utxoSet.undoBytes block.blockHash = none

/-- **Disconnecting undoes connecting exactly when the block extends the tip.**
A block whose parent is known but is not the tip connects as well; undoing it
then leaves its parent as the tip. -/
theorem undone_iff_extends_tip [ScriptEngine] {s : ChainState} (hs : s.Consistent) (env : Env)
    {block : Block} (hheight : s.bestHeight + 1 < 2 ^ 32) {txids : List Hash}
    (hok : (s.connectBlock env block (s.bestHeight + 1)).1 = .ok txids)
    (hbip30 : ∀ o ∈ createdOutpoints block, s.utxoSet.contains o = false)
    (hundo : block.blockHash ∉ s.utxoSet.writeBuffer.undoBuffer.map Prod.fst) :
    (∀ env' ρs, s.Undone env env' ρs block (s.bestHeight + 1))
      ↔ block.header.prevBlockhash = s.bestHash := by
  rcases hconn : s.connectBlock env block (s.bestHeight + 1) with ⟨result, s₁⟩
  rw [hconn] at hok
  obtain rfl : result = .ok txids := hok
  obtain ⟨batch, h⟩ := exists_connected hs hconn
  have hnew : ∀ o ∈ createdOutpoints block, s.utxoSet.view o = none := by
    intro o ho
    have hc := hbip30 o ho
    rwa [hs.sound.contains_eq, Option.isSome_eq_false_iff, Option.isNone_iff_eq_none] at hc
  have hs₁ := h.sound hs.sound hheight hnew
  constructor
  · intro hall
    obtain ⟨s₂, hdis, -, hbest, -⟩ := hall env []
    obtain ⟨-, -, undo, -, rfl⟩ := disconnectBlock_eq_ok.mp hdis
    exact hbest
  · intro hprev env' ρs
    obtain ⟨hsound, hview⟩ := sound_flushes hs₁ ρs
    obtain ⟨undo, hdis, hs₂, hv⟩ := disconnectBlock_of_committed
      (h.committed hs.sound hheight) env' hsound (hview.trans (h.view_eq hs.sound hheight))
      h.bestHash h.bestHeight (recorded_flushes (h.recorded hundo) ρs)
    rw [if_created_eq hnew] at hv
    refine ⟨(s₁.flushes ρs).undoBlock env' block (s.bestHeight + 1) undo, ?_, fun o => ?_, hprev,
      rfl, (recorded_undoBlock undo).undoBytes_eq⟩
    · rw [hconn]
      exact hdis
    · rw [hs.get_eq, hs₂.get_eq (by rw [hv]; exact hs.compact o), hv]

/-! ## Rolling back from the record alone -/

/-- After connecting a block and flushing, the **two ways to undo it agree**:
both succeed, and both leave every lookup as it was before the block. -/
def UndosAgree [ScriptEngine] (s : ChainState) (env env' : Env) (ρ : MapOrder) (block : Block)
    (height : Nat) : Prop :=
  ∃ prev u s₂,
    ((s.connectBlock env block height).2.flushes [ρ]).utxoSet.rollbackBlock block.blockHash
      = .ok (prev, u)
    ∧ ((s.connectBlock env block height).2.flushes [ρ]).disconnectBlock env' block height
      = (.ok (), s₂)
    ∧ ∀ o, (u.get o).1 = (s.utxoSet.get o).1 ∧ (s₂.utxoSet.get o).1 = (s.utxoSet.get o).1

/-- **Rolling back a connected and flushed block.** -/
theorem Connected.rollbackBlock_eq (h : Connected s env block height batch s')
    (hs : s.utxoSet.Sound) (hheight : height < 2 ^ 32) (hs' : s'.utxoSet.Sound)
    (ρ : MapOrder) :
    ∃ u, (s'.utxoSet.flushToDisk ρ).rollbackBlock block.blockHash
        = .ok (block.header.prevBlockhash, u) ∧ u.Sound
      ∧ ∀ o, if o ∈ spentOutpoints block then
          (u.view o).isSome ∧ (u.view o = s.utxoSet.view o ∨ o ∈ createdOutpoints block)
        else u.view o = if o ∈ createdOutpoints block then none else s.utxoSet.view o := by
  obtain ⟨u, hroll, hsound, hview⟩ := (hs'.flushToDisk ρ).rollbackBlock
    (s'.utxoSet.flushToDisk_buffer ρ)
    ((h.committed hs hheight).loadUndo_eq (h.recorded_flushToDisk ρ))
    (h.committed hs hheight).serializable_undoCoins
  refine ⟨u, hroll, hsound, fun o => ?_⟩
  rw [hview, hs'.view_flushToDisk, h.view_eq hs hheight]
  obtain ⟨v, hv, hcases⟩ := h.accepted.putAll_coins_eraseAll o
  rw [h.accepted.removals] at hcases
  rw [← hv] at hcases
  exact hcases

/-- **The two ways to undo a block agree exactly when the block creates nothing
that is unspent before it or spent in it.** An output spent in its own block is
in the undo record, and rolling back puts it back last. -/
theorem undosAgree_iff [ScriptEngine] {s : ChainState} (hs : s.Consistent) (env env' : Env)
    (ρ : MapOrder) {block : Block} {height : Nat} (hheight : height < 2 ^ 32)
    {txids : List Hash} (hok : (s.connectBlock env block height).1 = .ok txids) :
    s.UndosAgree env env' ρ block height
      ↔ ∀ o ∈ createdOutpoints block,
          s.utxoSet.contains o = false ∧ o ∉ spentOutpoints block := by
  rcases hconn : s.connectBlock env block height with ⟨result, s₁⟩
  rw [hconn] at hok
  obtain rfl : result = .ok txids := hok
  obtain ⟨batch, h⟩ := exists_connected hs hconn
  have hcontains : ∀ o, s.utxoSet.contains o = false ↔ s.utxoSet.view o = none := fun o => by
    rw [hs.sound.contains_eq, Option.isSome_eq_false_iff, Option.isNone_iff_eq_none]
  simp only [hcontains]
  unfold UndosAgree
  rw [hconn]
  constructor
  · rintro ⟨prev, u, s₂, hroll, hdis, hget⟩
    -- disconnecting removes what the block created, so none of it was there
    have hnew : ∀ o ∈ createdOutpoints block, s.utxoSet.view o = none := by
      intro o ho
      obtain ⟨-, -, undo, -, rfl⟩ := disconnectBlock_eq_ok.mp hdis
      have hgone := (gone_undoBlock (s₁.flushes [ρ]) env' height undo ho).get_eq
      rw [(hget o).2, hs.get_eq] at hgone
      exact Except.ok.inj hgone
    intro o ho
    refine ⟨hnew o ho, fun hspent => ?_⟩
    obtain ⟨u', hroll', hsound, hview⟩ := h.rollbackBlock_eq hs.sound hheight
      (h.sound hs.sound hheight hnew) ρ
    obtain rfl : u' = u := (Prod.mk.inj (Except.ok.inj (hroll'.symm.trans hroll))).2
    have hsome := hview o
    rw [if_pos hspent] at hsome
    -- rolling back brought `o` into being
    have hnone : u'.layers.read coinPacking o = none := by
      have hg := (hget o).1
      rw [hsound.get_eq_read, hs.get_eq, hnew o ho] at hg
      exact Except.ok.inj hg
    have hread := hsound.coherent.isSome_read o
    rw [hnone] at hread
    exact absurd (hread.trans hsome.1) (by decide)
  · intro hcond
    have hnew : ∀ o ∈ createdOutpoints block, s.utxoSet.view o = none := fun o ho =>
      (hcond o ho).1
    have hs₁ := h.sound hs.sound hheight hnew
    obtain ⟨u, hroll, hsound, hview⟩ := h.rollbackBlock_eq hs.sound hheight hs₁ ρ
    obtain ⟨undo, hdis, hs₂, hv₂⟩ := disconnectBlock_of_committed
      (h.committed hs.sound hheight) env' (s := s₁.flushes [ρ]) (hs₁.flushToDisk ρ)
      ((hs₁.view_flushToDisk ρ).trans (h.view_eq hs.sound hheight))
      h.bestHash h.bestHeight (h.recorded_flushToDisk ρ)
    have hback := if_created_eq hnew
    rw [hback] at hv₂
    have hu : u.view = s.utxoSet.view := by
      funext o
      have ho := hview o
      split at ho
      · exact ho.2.resolve_right fun hc => (hcond o hc).2 ‹_›
      · exact ho.trans (congrFun hback o)
    refine ⟨_, u, _, hroll, hdis, fun o => ?_⟩
    rw [hs.get_eq, hsound.get_eq (by rw [hu]; exact hs.compact o),
      hs₂.get_eq (by rw [hv₂]; exact hs.compact o), hu, hv₂]
    exact ⟨rfl, rfl⟩

end ChainState

/-! ## A small chain to evaluate on

Transactions are named by their locktime and headers by their nonce; the
scripts always pass. Nothing below depends on more of a hash than that it
tells the objects at hand apart. -/

@[reducible] def sampleHashing : Hashing where
  txHash tx := BitVec.ofNat 256 tx.lockTime.toNat
  headerHash h := BitVec.ofNat 256 h.nonce.toNat
  hashPair a b := BitVec.ofNat 256 (a.toNat * 1000 + b.toNat)

@[reducible] def sampleScripts : ScriptEngine := ⟨fun _ _ _ _ => .ok ()⟩

/-- The header named `nonce`, of easiest target. -/
def sampleHeader (prev nonce time : Nat) (root : Hash) : Header :=
  ⟨4, BitVec.ofNat 256 prev, root, UInt32.ofNat time, 0x207fffff, UInt32.ofNat nonce⟩

/-- A coinbase named `id` that pays the whole subsidy. -/
def sampleCoinbase (id height : Nat) : Tx :=
  ⟨1, UInt32.ofNat id, [⟨OutPoint.null, [0x01, UInt8.ofNat height], 0xffffffff, []⟩],
    [⟨5000000000, [0x51]⟩]⟩

/-- A transaction named `id` that moves the coins at `prevouts` to outputs of
the given values. -/
def sampleSpend (id : Nat) (prevouts : List OutPoint) (values : List UInt64) : Tx :=
  ⟨1, UInt32.ofNat id, prevouts.map fun o => ⟨o, [], 0xffffffff, []⟩,
    values.map fun v => ⟨v, [0x51]⟩⟩

/-- A block of a coinbase named `txid` and further transactions. -/
def sampleBlock (prev nonce time height txid : Nat) (txs : List Tx) : Block :=
  let txdata := sampleCoinbase txid height :: txs
  ⟨sampleHeader prev nonce time
    (@merkleRoot sampleHashing (txdata.map (@Tx.computeTxid sampleHashing))), txdata⟩

/-- An index of headers given by name, parent and height. -/
def sampleIndex : List (Nat × Nat × Nat) → HeaderIndex
  | [] => HeaderIndex.empty
  | (nonce, prev, height) :: rest =>
    (sampleIndex rest).insertHeader (BitVec.ofNat 256 nonce)
      ⟨sampleHeader prev nonce height 0, height, zeroWork⟩

/-- A chain state over an index, with a given tip and store. -/
def sampleState (ix : HeaderIndex) (u : UtxoSet) (tip height : Nat) : ChainState where
  params := ConsensusParams.regtest
  headerIndex := ix
  utxoSet := u
  sigCache := SigCache.new 100
  bestHeight := height
  bestHash := BitVec.ofNat 256 tip
  bip110Cache := fun _ => none

/-- A store just opened over a database of coins. -/
def sampleStore (coins : List (OutPoint × UtxoEntry)) : UtxoSet :=
  UtxoSet.openDb
    { UtxoDb.empty with
      utxo := PartialMap.putAll (fun _ => none) (coins.map fun p => (p.1, p.2.serialize)) }
    100 1000000

def sampleEnv : Env :=
  ⟨1000, ⟨IterOrder.id, IterOrder.id⟩, IterOrder.id, IterOrder.id, .check⟩

theorem consistent_sampleState {coins : List (OutPoint × UtxoEntry)}
    (h : ∀ p ∈ coins, p.2.Storable) (ix : HeaderIndex) (tip height : Nat) :
    (sampleState ix (sampleStore coins) tip height).Consistent := by
  have hdb : UtxoDb.Storable { UtxoDb.empty with
      utxo := putAll (fun _ => none) (coins.map fun p => (p.1, p.2.serialize)) } := by
    intro o data hd
    obtain ⟨p, hp, hpd⟩ := List.mem_map.mp (mem_of_putAll_none hd)
    exact ⟨p.2, h p hp, (mk.inj hpd).2.symm⟩
  exact ⟨sound_openDb hdb.wellFormed _ _, compact_openDb hdb _ _⟩

/-- The tip is header 2, on header 1, and one coin is unspent. -/
def twoHeaders : ChainState :=
  sampleState (sampleIndex [(2, 1, 1), (1, 0, 0)])
    (sampleStore [(⟨5#256, 0⟩, ⟨10, [0x51], 0, false⟩)]) 2 1

theorem consistent_twoHeaders : twoHeaders.Consistent :=
  consistent_sampleState (by decide) _ 2 1

/-- Every accepted block one above the tip that creates nothing unspent can be
undone, flushes in between or not. -/
def DisconnectUndoesConnect : Prop :=
  ∀ [Hashing] [ScriptEngine] (s : ChainState) (env env' : Env) (ρs : List MapOrder)
    (block : Block) (txids : List Hash), s.Consistent → s.bestHeight + 1 < 2 ^ 32 →
    (s.connectBlock env block (s.bestHeight + 1)).1 = .ok txids →
    (∀ o ∈ ChainState.createdOutpoints block, s.utxoSet.contains o = false) →
    s.Undone env env' ρs block (s.bestHeight + 1)

/-- On every accepted block the two ways to undo it agree. -/
def RollbackAgreesWithDisconnect : Prop :=
  ∀ [Hashing] [ScriptEngine] (s : ChainState) (env env' : Env) (ρ : MapOrder)
    (block : Block) (height : Nat) (txids : List Hash), s.Consistent → height < 2 ^ 32 →
    (s.connectBlock env block height).1 = .ok txids → s.UndosAgree env env' ρ block height

section Sample

attribute [local instance] sampleHashing sampleScripts

/-- A block on the tip is undone, after a flush. -/
theorem undone_sampleBlock :
    twoHeaders.Undone sampleEnv sampleEnv [sampleEnv.order] (sampleBlock 2 3 10 2 77 []) 2 :=
  (ChainState.undone_iff_extends_tip consistent_twoHeaders sampleEnv (by decide)
    (show (twoHeaders.connectBlock sampleEnv (sampleBlock 2 3 10 2 77 []) 2).1 = .ok [77#256] by
      decide) (by decide) (by decide)).mpr (by decide) sampleEnv [sampleEnv.order]

/-- **Disconnecting does not undo connecting**: with header 2 as the tip, a
block on header 1 connects at height 2, and disconnecting it leaves header 1 as
the tip. -/
theorem not_disconnectUndoesConnect : ¬ DisconnectUndoesConnect := by
  intro h
  obtain ⟨s₂, hdis, -, hbest, -⟩ := h twoHeaders sampleEnv sampleEnv []
    (sampleBlock 1 3 10 2 77 []) [77#256] consistent_twoHeaders (by decide) (by decide)
    (by decide)
  obtain ⟨-, -, undo, -, rfl⟩ := ChainState.disconnectBlock_eq_ok.mp hdis
  have htip : (1#256 : Hash) = 2#256 := hbest
  exact absurd htip (by decide)

/-- Both ways undo a block that creates one output and spends another. -/
theorem undosAgree_sampleBlock :
    twoHeaders.UndosAgree sampleEnv sampleEnv sampleEnv.order
      (sampleBlock 2 3 10 2 77 [sampleSpend 78 [⟨5#256, 0⟩] [10]]) 2 :=
  (ChainState.undosAgree_iff consistent_twoHeaders sampleEnv sampleEnv sampleEnv.order (by decide)
    (show (twoHeaders.connectBlock sampleEnv
      (sampleBlock 2 3 10 2 77 [sampleSpend 78 [⟨5#256, 0⟩] [10]]) 2).1
        = .ok [77#256, 78#256] by decide)).mpr (by decide)

/-- **Rolling back leaves a coin that never was**: transaction 78 creates an
output that transaction 79 of the same block spends; after the rollback that
output is unspent. -/
theorem not_rollbackAgreesWithDisconnect : ¬ RollbackAgreesWithDisconnect := by
  intro h
  obtain ⟨prev, u, s₂, hroll, -, hget⟩ := h twoHeaders sampleEnv sampleEnv sampleEnv.order
    (sampleBlock 2 3 10 2 77 [sampleSpend 78 [⟨5#256, 0⟩] [10], sampleSpend 79 [⟨78#256, 0⟩] [10]])
    2 [77#256, 78#256, 79#256] consistent_twoHeaders (by decide) (by decide)
  have hcoin : (((twoHeaders.connectBlock sampleEnv (sampleBlock 2 3 10 2 77
      [sampleSpend 78 [⟨5#256, 0⟩] [10], sampleSpend 79 [⟨78#256, 0⟩] [10]])
      2).2.flushes [sampleEnv.order]).utxoSet.rollbackBlock 3#256).map
        (fun p => (p.2.get ⟨78#256, 0⟩).1)
      = .ok (.ok (some ⟨10, [0x51], 2, false⟩)) := by decide +kernel
  have hroll' := congrArg (Except.map fun p => (p.2.get ⟨78#256, 0⟩).1) hroll
  have hu : (u.get ⟨78#256, 0⟩).1 = .ok (some ⟨10, [0x51], 2, false⟩) :=
    Except.ok.inj (hroll'.symm.trans hcoin)
  exact absurd ((hget ⟨78#256, 0⟩).1.symm.trans hu) (by decide)

end Sample
