import BitcoinPR.Core.Reorg

/-!
# The transaction loop against a sequential ledger

What a block means is a run of the ledger: transaction after transaction, each
input must be there and is taken away, then each output other than `OP_RETURN`
is added. The code never runs this ledger. It checks the block in bulk and
applies one batch, with all insertions before all removals.

What the loop accepts, the ledger accepts. The batch then leaves what the
ledger leaves, except for an outpoint created again in the block that spends
it: the removals come last and take the new coin. With BIP 30 unchecked above
the BIP 34 height, nothing in the loop excludes this.
-/

section

variable [Hashing]

/-- The transactions of a block on a plain map of coins, one by one. -/
def ledgerRun (height : Nat) (block : Block) (m : OutPoint → Option UtxoEntry) :
    Option (OutPoint → Option UtxoEntry) :=
  Ledger.run m (transfers height 0 block.txdata)

/-- No transaction creates an outpoint that it or an earlier transaction of the
block spends. -/
def NoRecreation (height : Nat) (block : Block) : Prop :=
  Ledger.NoRecreation [] (transfers height 0 block.txdata)

theorem transfers_getElem? (height txIdx : Nat) (txs : List Tx) (i : Nat) :
    (transfers height txIdx txs)[i]? = txs[i]?.map fun tx => tx.transfer height (txIdx + i) := by
  induction txs generalizing txIdx i with
  | nil => rfl
  | cons tx txs ih =>
    cases i with
    | zero => rfl
    | succ i =>
      rw [transfers, List.getElem?_cons_succ, List.getElem?_cons_succ, ih, Nat.add_assoc,
        Nat.add_comm 1 i]

namespace UtxoBatch.Accepted

variable {base : OutPoint → Option UtxoEntry} {block : Block} {height : Nat} {batch : UtxoBatch}

section

variable (h : batch.Accepted base block height)
include h

/-- **The batch is the ledger** exactly when nothing spent is created again. -/
theorem exists_ledgerRun :
    ∃ m, ledgerRun height block base = some m
      ∧ (PartialMap.eraseAll (PartialMap.putAll base batch.inserts) batch.removals = m
        ↔ NoRecreation height block) := by
  obtain ⟨m, hrun, -⟩ := Ledger.exists_run_of_admitsAll (n := Ledger.Notes.empty)
    (fun _ _ => rfl) h.admits
  refine ⟨m, hrun, ?_⟩
  rw [h.removals, h.inserts, ← flatMap_spends_transfers_zero height]
  have hsettle := Ledger.settle_eq_iff h.admits hrun
  rwa [Ledger.Notes.foldl_after] at hsettle

/-- Every input was unspent before the block or is an output of an earlier
transaction of it. -/
theorem input_known {i : Nat} {tx : Tx} (htx : block.txdata[i + 1]? = some tx) {input : TxIn}
    (hin : input ∈ tx.input) :
    (base input.previousOutput).isSome ∨ ∃ j ≤ i, ∃ tx', block.txdata[j]? = some tx'
      ∧ input.previousOutput ∈ (createdCoins tx'.computeTxid height (decide (j = 0)) 0
          tx'.output).map Prod.fst := by
  have ht : (transfers height 0 block.txdata)[i + 1]? = some (tx.transfer height (i + 1)) := by
    rw [transfers_getElem?, htx, Option.map_some, Nat.zero_add]
  have hk : input.previousOutput ∈ (tx.transfer height (i + 1)).spends := by
    exact List.mem_map_of_mem hin
  rcases h.admits.created_before ht hk with hb | hn | ⟨j, hj, t', ht', hc⟩
  · exact Or.inl hb
  · cases hn
  · rw [transfers_getElem?] at ht'
    obtain ⟨tx', htx', rfl⟩ := Option.map_eq_some_iff.mp ht'
    refine Or.inr ⟨j, Nat.le_of_lt_succ hj, tx', htx', ?_⟩
    rw [Nat.zero_add] at hc
    exact hc

end

end UtxoBatch.Accepted

namespace ChainState

variable [ScriptEngine]

/-- The store after the transactions of a block are validated and its batch is
applied. -/
def appliedStore (s : ChainState) (env : Env) (block : Block) (height mtp : Nat)
    (bip110 : Bip110Activation) (batch : UtxoBatch) : UtxoSet :=
  ((s.validateTransactions env block height mtp bip110).2.utxoSet.applyBatch env.order batch).1

/-- **Validating and applying a block is the sequential ledger.** What is
accepted, the ledger accepts; no output is spent twice, and each was there
before the block or is one of an earlier transaction. The store then holds what
the ledger holds exactly when no spent outpoint is created again, and lookups
see it if no outpoint the block leaves bound was cached. -/
theorem validateTransactions_ledger {s : ChainState} (hs : s.Consistent) (env : Env)
    {block : Block} {height mtp : Nat} {bip110 : Bip110Activation} {batch : UtxoBatch}
    (hheight : height < 2 ^ 32) (hweight : block.weight < 2 ^ 32)
    (hok : (s.validateTransactions env block height mtp bip110).1 = .ok batch) :
    (∃ m, ledgerRun height block s.utxoSet.view = some m
      ∧ ((s.appliedStore env block height mtp bip110 batch).view = m
        ↔ NoRecreation height block)
      ∧ (NoRecreation height block → height < 2 ^ 31 →
        (∀ o ∈ createdOutpoints block, o ∉ spentOutpoints block →
          s.utxoSet.cache.lookup o = none) →
        ∀ o, ((s.appliedStore env block height mtp bip110 batch).get o).1 = .ok (m o)))
    ∧ (spentOutpoints block).Nodup
    ∧ ∀ i tx, block.txdata[i + 1]? = some tx → ∀ input ∈ tx.input,
      (s.utxoSet.view input.previousOutput).isSome ∨ ∃ j ≤ i, ∃ tx',
        block.txdata[j]? = some tx' ∧ input.previousOutput
          ∈ (createdCoins tx'.computeTxid height (decide (j = 0)) 0 tx'.output).map Prod.fst := by
  unfold appliedStore
  rcases hval : s.validateTransactions env block height mtp bip110 with ⟨result, s₁⟩
  rw [hval] at hok
  obtain rfl : result = .ok batch := hok
  obtain ⟨st, sigCache, hloop, -, rfl, rfl⟩ := validateTransactions_eq_ok.mp hval
  have hr := UtxoSet.recached_prefetch s.utxoSet (spentOutpoints block)
  have hsound := hs.sound.recached hr
  have hacc := accepted_of_validateLoop (hs.get_prefetchBlock block) hloop
  have hcomm : st.batch.Committed s.utxoSet.view block height :=
    ⟨hacc, fun _ _ he => hs.sound.serializable he, hheight, hweight⟩
  have hser := hcomm.serializable_inserts
  have hview := hsound.view_applyBatch hser env.order
  obtain ⟨m, hrun, hiff⟩ := hacc.exists_ledgerRun
  refine ⟨⟨m, hrun, ?_, fun hno hsmall huncached o => ?_⟩, ?_, fun i tx htx input hin =>
    hacc.input_known htx hin⟩
  · exact (iff_of_eq (congrArg (· = m) hview)).trans hiff
  · -- no coin the batch leaves bound is cached, so the cache stays invisible
    have happ : (s.utxoSet.prefetch (spentOutpoints block)).Applicable st.batch := by
      refine ⟨hser, fun o ho hr' => ?_⟩
      rw [hacc.removals] at hr'
      rw [UtxoSet.lookup_prefetch_of_notMem _ hr']
      exact huncached o (hacc.mem_createdOutpoints_iff.mpr ho) hr'
    have hm := hiff.mpr hno
    have hv : ((s.utxoSet.prefetch (spentOutpoints block)).applyBatch env.order st.batch).1.view
        = m := hview.trans hm
    have hcompact : ∀ e, m o = some e → e.height < 2 ^ 31 := by
      rw [← hm]
      exact fun e he => UtxoSet.height_lt_of_batch hs.compact
        (fun p hp => ⟨by rw [(hacc.exists_output_of_mem hp).1]; exact hsmall, (hser p hp).2⟩) he
    show (((s.utxoSet.prefetch (spentOutpoints block)).applyBatch env.order st.batch).1.get o).1 = _
    rw [(hsound.applyBatch happ env.order).get_eq (by rw [hv]; exact hcompact), hv]
  · rw [← hacc.removals]
    exact hacc.nodup

end ChainState

end

/-! ## A coin created again -/

/-- Validating and applying a block is the sequential ledger, on every store and
every block. -/
def IsSequentialLedger : Prop :=
  ∀ [Hashing] [ScriptEngine] (s : ChainState) (env : Env) (block : Block) (height mtp : Nat)
    (bip110 : Bip110Activation) (batch : UtxoBatch), s.Consistent → height < 2 ^ 31 →
    block.weight < 2 ^ 32 → (s.validateTransactions env block height mtp bip110).1 = .ok batch →
    ∃ m, ledgerRun height block s.utxoSet.view = some m
      ∧ ∀ o, ((s.appliedStore env block height mtp bip110 batch).get o).1 = .ok (m o)

/-- Two coins are unspent: output 0 of transaction 78 and of transaction 5. -/
def twoCoins : ChainState :=
  sampleState (sampleIndex [(2, 1, 1), (1, 0, 0)])
    (sampleStore [(⟨78#256, 0⟩, ⟨10, [0x51], 0, false⟩), (⟨5#256, 0⟩, ⟨10, [0x51], 0, false⟩)]) 2 1

theorem consistent_twoCoins : twoCoins.Consistent :=
  consistent_sampleState (by decide) _ 2 1

/-- Transaction 79 spends output 0 of transaction 78, which is then created
again. -/
def recreatingBlock : Block :=
  sampleBlock 2 3 10 2 77 [sampleSpend 79 [⟨78#256, 0⟩] [10], sampleSpend 78 [⟨5#256, 0⟩] [10]]

/-- Transaction 80 spends an output of transaction 79, of the same block. -/
def chainedBlock : Block :=
  sampleBlock 2 3 10 2 77 [sampleSpend 79 [⟨78#256, 0⟩] [10], sampleSpend 80 [⟨79#256, 0⟩] [10]]

section Sample

attribute [local instance] sampleHashing sampleScripts

/-- The batch the loop builds for the block of transactions 79 and 80. -/
def chainedBatch : UtxoBatch where
  inserts := [(⟨77#256, 0⟩, ⟨5000000000, [0x51], 2, true⟩), (⟨79#256, 0⟩, ⟨10, [0x51], 2, false⟩),
    (⟨80#256, 0⟩, ⟨10, [0x51], 2, false⟩)]
  removals := [⟨78#256, 0⟩, ⟨79#256, 0⟩]
  spentUtxos := [⟨⟨78#256, 0⟩, ⟨10, [0x51], 0, false⟩⟩, ⟨⟨79#256, 0⟩, ⟨10, [0x51], 2, false⟩⟩]

/-- On a block that spends one of its own outputs, lookups answer as the
ledger. -/
theorem ledger_chainedBlock :
    ∃ m, ledgerRun 2 chainedBlock twoCoins.utxoSet.view = some m
      ∧ ∀ o, ((twoCoins.appliedStore sampleEnv chainedBlock 2 1 .inactive chainedBatch).get o).1
        = .ok (m o) := by
  obtain ⟨⟨m, hrun, -, hget⟩, -⟩ := ChainState.validateTransactions_ledger consistent_twoCoins
    sampleEnv (by decide) (by decide)
    (show (twoCoins.validateTransactions sampleEnv chainedBlock 2 1 .inactive).1
      = .ok chainedBatch by decide)
  refine ⟨m, hrun, hget ?_ (by decide) (by decide)⟩
  exact ⟨by decide, by decide, by decide, trivial⟩

/-- **The removals win**: after the block the ledger holds output 0 of
transaction 78, and the store does not. -/
theorem not_isSequentialLedger : ¬ IsSequentialLedger := by
  intro h
  obtain ⟨m, hrun, hget⟩ := h twoCoins sampleEnv recreatingBlock 2 1 .inactive
    ⟨[(⟨77#256, 0⟩, ⟨5000000000, [0x51], 2, true⟩), (⟨79#256, 0⟩, ⟨10, [0x51], 2, false⟩),
        (⟨78#256, 0⟩, ⟨10, [0x51], 2, false⟩)], [⟨78#256, 0⟩, ⟨5#256, 0⟩],
      [⟨⟨78#256, 0⟩, ⟨10, [0x51], 0, false⟩⟩, ⟨⟨5#256, 0⟩, ⟨10, [0x51], 0, false⟩⟩]⟩
    consistent_twoCoins (by decide) (by decide) (by decide)
  have hm : (ledgerRun 2 recreatingBlock twoCoins.utxoSet.view).map (fun m => m ⟨78#256, 0⟩)
      = some (some ⟨10, [0x51], 2, false⟩) := by decide
  rw [hrun, Option.map_some] at hm
  have hlost := hget ⟨78#256, 0⟩
  rw [Option.some.inj hm] at hlost
  exact absurd hlost (by decide)

end Sample
