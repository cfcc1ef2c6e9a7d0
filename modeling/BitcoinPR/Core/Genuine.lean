import BitcoinPR.Core.Reorg
import BitcoinPR.Storage.Everywhere
import Mathlib.Data.Set.Basic

/-!
# Coins are outputs of transactions

The id of a transaction commits to its outputs, and an outpoint names an id and
a position. So if no two transactions have the same id, an outpoint determines
the output it names, on whatever branch, in the store or in a pool, and whenever
it is looked up.

No hash has that property on all transactions there could be. What is assumed
is that the transactions that occur – a set `U` – do not collide
(`CollisionFree`). A coin is **genuine** if it is the output, of a transaction
of `U`, that its outpoint names. Coins are only ever created by transactions of
connected blocks and put back from undo records, so that every coin in the store
stays genuine, through connecting and disconnecting in any order.
-/

open List UtxoSet.Everywhere

variable [Hashing]

/-- **Transactions that do not collide.** Ids determine everything but the
witnesses, witness ids everything. None is larger than what the length field of
a message, of 32 bits, can announce. -/
structure CollisionFree (U : Set Tx) : Prop where
  txid : ∀ tx ∈ U, ∀ tx' ∈ U, tx.computeTxid = tx'.computeTxid → tx.strip = tx'.strip
  wtxid : ∀ tx ∈ U, ∀ tx' ∈ U, tx.computeWtxid = tx'.computeWtxid → tx = tx'
  size : ∀ tx ∈ U, tx.totalSize < 2 ^ 32

/-- The output an outpoint names. -/
def IsOutput (U : Set Tx) (o : OutPoint) (out : TxOut) : Prop :=
  ∃ tx ∈ U, tx.computeTxid = o.txid ∧ tx.output[o.vout.toNat]? = some out

/-- **A genuine coin**: the output its outpoint names, as it can be stored. -/
def Genuine (U : Set Tx) (o : OutPoint) (e : UtxoEntry) : Prop :=
  e.Serializable ∧ IsOutput U o ⟨e.amount, e.scriptPubkey⟩

/-- **A genuine check**: of an input of a transaction, with the outputs its
inputs name. -/
structure ScriptCheck.Genuine (U : Set Tx) (c : ScriptCheck) : Prop where
  tx : c.tx ∈ U
  wtxid : c.wtxid = c.tx.computeWtxid
  vin : c.vin < c.tx.input.length
  prevouts : List.Forall₂ (fun i out => IsOutput U i.previousOutput out) c.tx.input c.prevouts

variable {U : Set Tx}

namespace CollisionFree

/-- **An outpoint names one output.** -/
theorem output_unique (h : CollisionFree U) {o : OutPoint} {out out' : TxOut}
    (ho : IsOutput U o out) (ho' : IsOutput U o out') : out = out' := by
  obtain ⟨tx, htx, hid, hout⟩ := ho
  obtain ⟨tx', htx', hid', hout'⟩ := ho'
  have hstrip := congrArg Tx.output (h.txid tx htx tx' htx' (hid.trans hid'.symm))
  rw [Tx.strip_output, Tx.strip_output] at hstrip
  rw [hstrip, hout'] at hout
  exact (Option.some.inj hout).symm

theorem prevouts_unique (h : CollisionFree U) {inputs : List TxIn} {outs outs' : List TxOut}
    (ho : Forall₂ (fun i out => IsOutput U i.previousOutput out) inputs outs)
    (ho' : Forall₂ (fun i out => IsOutput U i.previousOutput out) inputs outs') :
    outs = outs' := by
  induction ho generalizing outs' with
  | nil => exact (forall₂_nil_left_iff.mp ho').symm
  | cons hi _ ih =>
    obtain ⟨out', rest, hi', hrest, rfl⟩ := forall₂_cons_left_iff.mp ho'
    rw [h.output_unique hi hi', ih hrest]

theorem length_lt (h : CollisionFree U) {tx : Tx} (htx : tx ∈ U) :
    tx.input.length + tx.output.length < 2 ^ 32 := by
  have hsize := h.size tx htx
  have hlen := tx.length_input_add_length_output_le_baseSize
  have hle := tx.baseSize_le_totalSize
  omega

end CollisionFree

/-- **What a transaction creates is its outputs.** -/
theorem isOutput_of_mem_createdCoins (hU : CollisionFree U) {tx : Tx} (htx : tx ∈ U)
    {height : Nat} {isCoinbase : Bool} {p : OutPoint × UtxoEntry}
    (hp : p ∈ createdCoins tx.computeTxid height isCoinbase 0 tx.output) :
    IsOutput U p.1 ⟨p.2.amount, p.2.scriptPubkey⟩ := by
  obtain ⟨-, i, ho, hi⟩ := mem_createdCoins hp
  obtain ⟨hlt, -⟩ := List.getElem?_eq_some_iff.mp hi
  have hlen := hU.length_lt htx
  refine ⟨tx, htx, ?_, ?_⟩
  · rw [ho]
    rfl
  · have hvout : p.1.vout.toNat = i := by
      rw [ho, Tx.outpoint, Nat.zero_add, UInt32.toNat_ofNat', Nat.mod_eq_of_lt (by omega)]
    rw [hvout]
    exact hi

/-! ## The transaction loop -/

/-- What the loop has gathered is genuine: the outputs created so far, and the
checks queued. -/
structure LoopState.Genuine (U : Set Tx) (st : LoopState) : Prop where
  overlay : ∀ o e, st.intraBlockUtxos o = some e → IsOutput U o ⟨e.amount, e.scriptPubkey⟩
  checks : ∀ c ∈ st.scriptChecks, c.Genuine U

theorem LoopState.Genuine.create (hU : CollisionFree U) {st : LoopState} (h : st.Genuine U)
    {tx : Tx} (htx : tx ∈ U) (height : Nat) (isCoinbase : Bool) :
    (st.create (createdCoins tx.computeTxid height isCoinbase 0 tx.output)).Genuine U := by
  refine ⟨fun o e he => ?_, h.checks⟩
  rcases PartialMap.putAll_eq_some he with hin | ⟨-, hold⟩
  · exact isOutput_of_mem_createdCoins hU htx hin
  · exact h.overlay o e hold

section Loop

variable {ctx : TxContext}
  (hget : ∀ o e, ctx.get o = .ok (some e) → IsOutput U o ⟨e.amount, e.scriptPubkey⟩)
include hget

/-- **One transaction** queues genuine checks. -/
theorem genuine_validateTx (hU : CollisionFree U) {txIdx : Nat} {tx : Tx} (htx : tx ∈ U)
    {st st' : LoopState} (hst : st.Genuine U) (h : validateTx ctx txIdx tx st = .ok st') :
    st'.Genuine U := by
  have hpart := (validateTx_eq_ok.mp h).2
  by_cases hidx : txIdx = 0
  · rw [if_pos hidx] at hpart
    subst hpart
    refine LoopState.Genuine.create hU ?_ htx _ _
    exact ⟨hst.overlay, hst.checks⟩
  · rw [if_neg hidx] at hpart
    obtain ⟨coins, inputSum, outputSum, totalFees, hpays, rfl⟩ :=
      validateSpendingTx_eq_ok.mp hpart
    refine LoopState.Genuine.create hU ?_ htx _ _
    refine ⟨hst.overlay, fun c hc => ?_⟩
    rcases mem_append.mp hc with hc | hc
    · exact hst.checks c hc
    · have hres := hpays.spendable.resolves
      unfold queueChecks at hc
      split at hc
      · obtain ⟨⟨height, vin⟩, hmem, rfl⟩ := List.mem_map.mp hc
        obtain ⟨hvin, -⟩ := List.getElem?_eq_some_iff.mp (List.mem_zipIdx_iff_getElem?.mp hmem)
        refine ⟨htx, rfl, ?_, ?_⟩
        · rw [hres.length_eq]
          simpa [InputState.spendAll, LoopState.startInputs] using hvin
        · show List.Forall₂ _ tx.input ([] ++ coins.map _)
          rw [nil_append, forall₂_map_right_iff]
          refine hres.imp fun i e hr => ?_
          obtain ⟨found, hf, hor⟩ := exists_of_lookupCoin hr.found
          rcases Option.or_eq_some_iff.mp hor with hsome | ⟨-, hover⟩
          · exact hget _ _ (hsome ▸ hf)
          · exact hst.overlay _ _ hover
      · cases hc

/-- **The whole loop** does. -/
theorem genuine_validateTxs (hU : CollisionFree U) {txIdx : Nat} {txs : List Tx}
    (htxs : ∀ tx ∈ txs, tx ∈ U) {st st' : LoopState} (hst : st.Genuine U)
    (h : validateTxs ctx txIdx txs st = .ok st') : st'.Genuine U := by
  induction txs generalizing txIdx st with
  | nil => exact Except.ok.inj h ▸ hst
  | cons tx txs ih =>
    rw [validateTxs, Except.bind_eq_ok] at h
    obtain ⟨st₁, h₁, hrest⟩ := h
    exact ih (fun t ht => htxs t (mem_cons_of_mem tx ht))
      (genuine_validateTx hget hU (htxs tx mem_cons_self) hst h₁) hrest

theorem genuine_validateLoop (hU : CollisionFree U) {txs : List Tx} (htxs : ∀ tx ∈ txs, tx ∈ U)
    {st : LoopState} (h : validateLoop ctx txs = .ok st) : ∀ c ∈ st.scriptChecks, c.Genuine U := by
  have hinit : LoopState.init.Genuine U :=
    ⟨fun _ _ he => (by cases he), fun _ hc => (by cases hc)⟩
  exact (genuine_validateTxs hget hU htxs hinit (validateLoop_eq_ok.mp h).1).checks

end Loop

/-! ## The store -/

theorem genuine_serializable (o : OutPoint) (e : UtxoEntry) (h : Genuine U o e) :
    e.Serializable := h.1

/-- The cache keeps amount and script. -/
theorem genuine_toEntry_new (o : OutPoint) (e : UtxoEntry) (h : Genuine U o e) :
    Genuine U o (CompactCoin.new e).toEntry := by
  have hscript : (CompactCoin.new e).toEntry.scriptPubkey = e.scriptPubkey :=
    CoinScript.asBytes_new e.scriptPubkey
  refine ⟨⟨?_, ?_⟩, ?_⟩
  · show (e.height * 2 % 2 ^ 32 + (if e.isCoinbase then 1 else 0)) / 2 < 2 ^ 32
    have hmod := Nat.mod_lt (e.height * 2) (Nat.two_pow_pos 32)
    split <;> omega
  · rw [hscript]
    exact h.1.2
  · rw [hscript]
    exact h.2

namespace ChainState

variable {s s' : ChainState} {env : Env} {block : Block} {height : Nat}

/-- What a block creates can be stored, if it is within its weight. -/
theorem genuine_of_mem_blockCoins (hU : CollisionFree U) (htxs : ∀ tx ∈ block.txdata, tx ∈ U)
    (hheight : height < 2 ^ 32) (hweight : block.weight < 2 ^ 32) {p : OutPoint × UtxoEntry}
    (hp : p ∈ blockCoins height block) : Genuine U p.1 p.2 := by
  obtain ⟨t, ht, hp⟩ := mem_flatMap.mp hp
  obtain ⟨tx, htx, i, rfl⟩ := mem_transfers ht
  obtain ⟨hh, k, -, hk⟩ := mem_createdCoins hp
  refine ⟨⟨hh.trans_lt hheight, ?_⟩, isOutput_of_mem_createdCoins hU (htxs tx htx) hp⟩
  have hscript := Tx.length_scriptPubkey_le_weight (mem_of_getElem? hk)
  have hle := Block.weight_le_of_mem htx
  simp only at hscript
  omega

/-- The lookups of a genuine store never fail. -/
theorem exists_get (h : s.utxoSet.Everywhere (Genuine U)) :
    ∃ base : OutPoint → Option UtxoEntry, ∀ o, (s.utxoSet.get o).1 = .ok (base o) := by
  have hone : ∀ o, ∃ found, (s.utxoSet.get o).1 = .ok found := by
    intro o
    unfold UtxoSet.get
    split
    · exact ⟨_, rfl⟩
    · split
      · exact ⟨_, rfl⟩
      · split
        · exact ⟨_, rfl⟩
        · rename_i data hd
          obtain ⟨e, rfl, hG⟩ := h.disk.coins o data hd
          rw [UtxoEntry.deserialize_serialize hG.1]
          exact ⟨_, rfl⟩
  exact Classical.skolem.mp hone

variable [ScriptEngine]

/-- **Connecting keeps coins genuine**, whether the block is accepted or not. -/
theorem everywhere_connectBlock (hU : CollisionFree U) (h : s.utxoSet.Everywhere (Genuine U))
    (env : Env) (htxs : ∀ tx ∈ block.txdata, tx ∈ U) (hheight : height < 2 ^ 32) :
    (s.connectBlock env block height).2.utxoSet.Everywhere (Genuine U) := by
  have hfetched := h.recached genuine_serializable genuine_toEntry_new
    (UtxoSet.recached_prefetch s.utxoSet (spentOutpoints block))
  rcases hconn : s.connectBlock env block height with ⟨_ | txids, s'⟩
  · exact h.recached genuine_serializable genuine_toEntry_new
      (rejected_of_connectBlock_eq_error hconn).recached
  · obtain ⟨mtp, bip110, bipCache, batch, s₁, hcheck, -, -, hval, -, rfl⟩ :=
      connectBlock_eq_ok.mp hconn
    obtain ⟨st, sigCache, hloop, -, rfl, rfl⟩ := validateTransactions_eq_ok.mp hval
    obtain ⟨base, hbase⟩ := exists_get (s := s.prefetchBlock block) hfetched
    have hacc : st.batch.Accepted base block height := accepted_of_validateLoop hbase hloop
    have hweight := Nat.lt_of_le_of_lt (weight_le_of_checkBlock hcheck)
      s.params.maxBlockWeight.toNat_lt
    have hinserts : ∀ p ∈ st.batch.inserts, Genuine U p.1 p.2 := by
      intro p hp
      rw [hacc.inserts] at hp
      exact genuine_of_mem_blockCoins hU htxs hheight hweight hp
    have hspent : ∀ u ∈ st.batch.spentUtxos, Genuine U u.outpoint u.entry := by
      intro u hu
      rcases hacc.coins u hu with hb | ⟨-, hin⟩
      · exact hfetched.get genuine_serializable ((hbase u.outpoint).trans (congrArg _ hb))
      · exact hinserts _ hin
    have hlen := hacc.length_le_weight
    refine applyBatch ?_ genuine_serializable genuine_toEntry_new env.order
      hinserts
    refine setPendingFlushHeight ?_ height _
    refine storeUndo hfetched _ _ (by omega) ?_ hspent
    rw [length_map]
    omega

omit [ScriptEngine] in
/-- **Disconnecting keeps coins genuine**: what comes back is from a record. -/
theorem everywhere_disconnectBlock (h : s.utxoSet.Everywhere (Genuine U)) (env : Env)
    (block : Block) (height : Nat) :
    (s.disconnectBlock env block height).2.utxoSet.Everywhere (Genuine U) := by
  rcases hdis : s.disconnectBlock env block height with ⟨_ | u, s'⟩
  · rw [disconnectBlock_of_error hdis]
    exact h
  · obtain ⟨-, -, undo, hload, rfl⟩ := disconnectBlock_eq_ok.mp hdis
    refine flushToDisk ?_ genuine_toEntry_new env.order
    refine deleteUndo ?_ _
    refine applyBatch ?_ genuine_serializable genuine_toEntry_new env.order
      (h.loadUndo genuine_serializable hload)
    exact h.setPendingFlushHeight _ _

end ChainState
