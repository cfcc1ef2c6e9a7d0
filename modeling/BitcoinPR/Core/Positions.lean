import BitcoinPR.Core.Batch

/-!
# One transaction of a connected block

`connectBlock` says yes or no to a whole block. What it has looked at for one
transaction is spread out: the coins come from the store or from the
transactions before it in the block, the script checks are queued and run
later, in an order of their own and only where the cache of verified inputs
does not vouch for them. Here all of that is written down for the transaction
at one position – `spentCoins`, `inputCheck`, `queuedChecks`,
`executedChecks` – and `ChainState.placed_of_connectBlock` says what an accepted
block tells about it.
-/

open List

/-! ## The loop up to a position -/

section Loop

variable [Hashing] {ctx : TxContext} {st st' : LoopState}

theorem validateTxs_append (ctx : TxContext) (txIdx : Nat) (txs₁ txs₂ : List Tx) (st : LoopState) :
    validateTxs ctx txIdx (txs₁ ++ txs₂) st
      = validateTxs ctx txIdx txs₁ st >>= validateTxs ctx (txIdx + txs₁.length) txs₂ := by
  induction txs₁ generalizing txIdx st with
  | nil => rfl
  | cons tx txs₁ ih =>
    rw [cons_append, validateTxs, validateTxs, bind_assoc, length_cons,
      Nat.add_comm txs₁.length 1, ← Nat.add_assoc]
    exact congrArg _ (funext fun st₁ => ih (txIdx + 1) st₁)

/-- One transaction adds its outputs to the overlay, and only queues further
checks. -/
theorem validateTx_extends {txIdx : Nat} {tx : Tx} (h : validateTx ctx txIdx tx st = .ok st') :
    st'.intraBlockUtxos
        = PartialMap.putAll st.intraBlockUtxos (tx.transfer ctx.height txIdx).creates
      ∧ st.scriptChecks ⊆ st'.scriptChecks := by
  obtain ⟨-, h⟩ := validateTx_eq_ok.mp h
  unfold Tx.transfer
  by_cases h0 : txIdx = 0
  · rw [if_pos h0] at h
    subst h
    rw [decide_eq_true h0]
    exact ⟨rfl, fun _ hc => hc⟩
  · rw [if_neg h0] at h
    obtain ⟨coins, inputSum, outputSum, totalFees, -, rfl⟩ := validateSpendingTx_eq_ok.mp h
    rw [decide_eq_false h0]
    exact ⟨rfl, subset_append_left _ _⟩

/-- So do several. -/
theorem validateTxs_extends {txIdx : Nat} {txs : List Tx}
    (h : validateTxs ctx txIdx txs st = .ok st') :
    st'.intraBlockUtxos = PartialMap.putAll st.intraBlockUtxos
        ((transfers ctx.height txIdx txs).flatMap Ledger.Transfer.creates)
      ∧ st.scriptChecks ⊆ st'.scriptChecks := by
  induction txs generalizing txIdx st with
  | nil =>
    obtain rfl := Except.ok.inj h
    exact ⟨rfl, fun _ hc => hc⟩
  | cons tx txs ih =>
    rw [validateTxs, Except.bind_eq_ok] at h
    obtain ⟨st₁, h₁, h⟩ := h
    obtain ⟨hoverlay₁, hqueue₁⟩ := validateTx_extends h₁
    obtain ⟨hoverlay, hqueue⟩ := ih h
    refine ⟨?_, fun c hc => hqueue (hqueue₁ hc)⟩
    rw [hoverlay, hoverlay₁, transfers, flatMap_cons, PartialMap.putAll_append]

/-- **The transaction at a position was validated** against the outputs of those
before it, and what it queued is still queued at the end. -/
theorem exists_pays_of_validateLoop {txs : List Tx} (h : validateLoop ctx txs = .ok st) {i : Nat}
    {tx : Tx} (hi : 0 < i) (htx : txs[i]? = some tx) :
    ∃ st₀ coins inputSum outputSum totalFees,
      st₀.intraBlockUtxos = PartialMap.putAll (fun _ => none)
          ((transfers ctx.height 0 (txs.take i)).flatMap Ledger.Transfer.creates)
        ∧ Pays ctx st₀ tx coins inputSum outputSum totalFees
        ∧ (LoopState.pay ctx st₀ tx coins inputSum totalFees).scriptChecks ⊆ st.scriptChecks := by
  have hloop := (validateLoop_eq_ok.mp h).1
  obtain ⟨hlt, rfl⟩ := List.getElem?_eq_some_iff.mp htx
  have hsplit := List.take_append_drop i txs
  rw [drop_eq_getElem_cons hlt] at hsplit
  rw [← hsplit, validateTxs_append, Except.bind_eq_ok] at hloop
  obtain ⟨st₀, hbefore, hloop⟩ := hloop
  rw [length_take, Nat.min_eq_left (Nat.le_of_lt hlt), Nat.zero_add, validateTxs,
    Except.bind_eq_ok] at hloop
  obtain ⟨st₁, htx₁, hafter⟩ := hloop
  have hpart := (validateTx_eq_ok.mp htx₁).2
  rw [if_neg (Nat.ne_of_gt hi)] at hpart
  obtain ⟨coins, inputSum, outputSum, totalFees, hpays, rfl⟩ := validateSpendingTx_eq_ok.mp hpart
  exact ⟨st₀, coins, inputSum, outputSum, totalFees, (validateTxs_extends hbefore).1, hpays,
    (validateTxs_extends hafter).2⟩

end Loop

/-! ## The checks that are run -/

section Scripts

variable [ScriptEngine]

/-- The checks that are executed when a list of checks is run: those the cache
does not vouch for at their turn. -/
def ScriptCheck.executed (flags : ScriptFlags) (ρ : IterOrder SigKey) :
    List ScriptCheck → SigCache → List ScriptCheck
  | [], _ => []
  | c :: cs, cache =>
    let rest := match runScriptCheck flags ρ cache c with
      | .error _ => []
      | .ok cache => ScriptCheck.executed flags ρ cs cache
    if cache.contains (SigCache.key c.wtxid c.vin (flags.withBip110 c.enforceBip110)) then rest
    else c :: rest

/-- **A check that was executed has passed**, if all did. -/
theorem ScriptCheck.verifyScript_of_mem_executed {flags : ScriptFlags} {ρ : IterOrder SigKey}
    {checks : List ScriptCheck} {cache cache' : SigCache} {c : ScriptCheck}
    (h : runScriptChecks flags ρ checks cache = (.ok (), cache'))
    (hc : c ∈ ScriptCheck.executed flags ρ checks cache) :
    ScriptEngine.verifyScript c.tx c.vin c.prevouts (flags.withBip110 c.enforceBip110)
      = .ok () := by
  induction checks generalizing cache with
  | nil => cases hc
  | cons c' checks ih =>
    rw [runScriptChecks] at h
    cases hrun : runScriptCheck flags ρ cache c' with
    | error e =>
      rw [hrun] at h
      cases (Prod.mk.inj h).1
    | ok cache₁ =>
      rw [hrun] at h
      simp only [ScriptCheck.executed, hrun] at hc
      by_cases hkey : cache.contains
          (SigCache.key c'.wtxid c'.vin (flags.withBip110 c'.enforceBip110)) = true
      · rw [if_pos hkey] at hc
        exact ih h hc
      · rw [if_neg hkey] at hc
        rcases mem_cons.mp hc with rfl | hc
        · obtain ⟨u, hverify, -⟩ := Except.bind_eq_ok.mp ((if_neg hkey).symm.trans hrun)
          exact hverify
        · exact ih h hc

end Scripts

namespace ChainState

variable [Hashing] (s : ChainState) (env : Env) (block : Block) (height : Nat)

/-! ## The transaction at a position -/

/-- The coins that the transactions before position `i` create. -/
def createdBefore (i : Nat) : OutPoint → Option UtxoEntry :=
  PartialMap.putAll (fun _ => none)
    ((transfers height 0 (block.txdata.take i)).flatMap Ledger.Transfer.creates)

/-- **The coin an outpoint names at position `i`**: that of the store, or else
the one created before. -/
def spentCoin (i : Nat) (o : OutPoint) : Option UtxoEntry :=
  match ((s.prefetchBlock block).utxoSet.get o).1 with
  | .error _ => none
  | .ok found => found.or (createdBefore block height i o)

/-- The coins a transaction at position `i` spends, input by input. -/
def spentCoins (i : Nat) (tx : Tx) : List UtxoEntry :=
  tx.input.filterMap fun input => s.spentCoin block height i input.previousOutput

/-- What the transactions of a block are validated in. -/
def blockContext (mtp : Nat) : TxContext :=
  (s.prefetchBlock block).txContext env.overflow block height mtp
    (s.bip110Activation block.header.prevBlockhash height).1

/-- **The script check of an input** of the transaction at position `i`. -/
def inputCheck (i : Nat) (tx : Tx) (vin : Nat) : ScriptCheck :=
  let bip110 := (s.bip110Activation block.header.prevBlockhash height).1
  let coins := s.spentCoins block height i tx
  ⟨tx, vin, coins.map fun e => ⟨e.amount, e.scriptPubkey⟩, tx.computeWtxid,
    bip110.enforcing && bip110.activationHeight.any fun a =>
      decide (a ≤ (coins.map UtxoEntry.height).getD vin 0)⟩

/-- The checks the transactions of a block queue. -/
def queuedChecks : List ScriptCheck :=
  match s.blockMtp block height with
  | .error _ => []
  | .ok mtp =>
    match validateLoop (s.blockContext env block height mtp) block.txdata with
    | .error _ => []
    | .ok st => st.scriptChecks

/-- The flags of a block. -/
def blockFlags : ScriptFlags := ScriptFlags.forHeight height block.header.time.toNat s.params

/-- **What an accepted block tells about its transaction at position `i`**, with
`mtp` the median time past of its parent. -/
structure Placed (i : Nat) (tx : Tx) (mtp : Nat) : Prop where
  resolved : List.Forall₂
    (fun input e => s.spentCoin block height i input.previousOutput = some e) tx.input
    (s.spentCoins block height i tx)
  final : isFinalTx tx height (s.blockContext env block height mtp).locktimeTime = true
  locks : checkBip68 (s.blockContext env block height mtp) tx.computeTxid tx
    ((s.spentCoins block height i tx).map UtxoEntry.height) = .ok ()
  queued : s.verifyScripts block.blockHash height = true → ∀ vin < tx.input.length,
    s.inputCheck block height i tx vin ∈ s.queuedChecks env block height

variable {s env block height}

omit [Hashing] in
theorem filterMap_eq_of_forall₂ {f : TxIn → Option UtxoEntry} {inputs : List TxIn}
    {coins : List UtxoEntry} (h : List.Forall₂ (fun i e => f i = some e) inputs coins) :
    inputs.filterMap f = coins := by
  induction h with
  | nil => rfl
  | cons hi _ ih => rw [filterMap_cons_some hi, ih]

section

variable {mtp : Nat} {st : LoopState} (hmtp : s.blockMtp block height = .ok mtp)
  (h : validateLoop (s.blockContext env block height mtp) block.txdata = .ok st)
include hmtp h

theorem queuedChecks_of_validateLoop : s.queuedChecks env block height = st.scriptChecks := by
  unfold queuedChecks
  simp only [hmtp, h]

theorem placed_of_validateLoop {i : Nat} {tx : Tx} (hi : 0 < i) (htx : block.txdata[i]? = some tx) :
    s.Placed env block height i tx mtp := by
  obtain ⟨st₀, coins, inputSum, outputSum, totalFees, hoverlay, hpays, hqueue⟩ :=
    exists_pays_of_validateLoop h hi htx
  have hres : List.Forall₂
      (fun input e => s.spentCoin block height i input.previousOutput = some e) tx.input coins := by
    refine hpays.spendable.resolves.imp fun input e hr => ?_
    obtain ⟨found, hget, hor⟩ := exists_of_lookupCoin hr.found
    rw [show (st₀.startInputs tx).loop.intraBlockUtxos = createdBefore block height i
      from hoverlay] at hor
    replace hget : ((s.prefetchBlock block).utxoSet.get input.previousOutput).1 = .ok found := hget
    unfold spentCoin
    rw [hget]
    exact hor
  have hcoins : s.spentCoins block height i tx = coins := filterMap_eq_of_forall₂ hres
  refine ⟨hcoins ▸ hres, hpays.final, hcoins ▸ hpays.locks, fun hon vin hvin => ?_⟩
  rw [queuedChecks_of_validateLoop hmtp h]
  refine hqueue (mem_append_right _ ?_)
  unfold inputCheck queueChecks
  rw [hcoins, if_pos (show (s.blockContext env block height mtp).verifyScripts = true from hon)]
  -- the heights are those of the coins, one for each input
  have hvin' : vin < (coins.map UtxoEntry.height).length := by
    rw [length_map, ← hres.length_eq]
    exact hvin
  refine mem_map.mpr ⟨((coins.map UtxoEntry.height).getD vin 0, vin), ?_, rfl⟩
  show _ ∈ zipIdx ([] ++ coins.map UtxoEntry.height)
  rw [nil_append, mem_zipIdx_iff_getElem?, getD_eq_getElem?_getD, getElem?_eq_getElem hvin']
  rfl

end

section Connect

variable [ScriptEngine]

/-- The checks that connecting a block executes. -/
def executedChecks (s : ChainState) (env : Env) (block : Block) (height : Nat) :
    List ScriptCheck :=
  ScriptCheck.executed (s.blockFlags block height) env.sigOrder
    (env.checkOrder.order (s.queuedChecks env block height)) s.sigCache

/-- **What connecting a block tells about its transactions**, and about the
checks it has executed. -/
theorem placed_of_connectBlock {s' : ChainState} {txids : List Hash}
    (h : s.connectBlock env block height = (.ok txids, s')) :
    ∃ mtp, s.blockMtp block height = .ok mtp
      ∧ (∀ i tx, 0 < i → block.txdata[i]? = some tx → s.Placed env block height i tx mtp)
      ∧ ∀ c ∈ s.executedChecks env block height,
          ScriptEngine.verifyScript c.tx c.vin c.prevouts
            ((s.blockFlags block height).withBip110 c.enforceBip110) = .ok () := by
  obtain ⟨mtp, bip110, bipCache, batch, s₁, hcheck, hbip, -, hval, -, -⟩ := connectBlock_eq_ok.mp h
  have hmtp : s.blockMtp block height = .ok mtp := by
    simp only [checkBlock, checkAncestors, Except.bind_eq_ok, exists_unit, Except.pure_eq_ok]
      at hcheck
    obtain ⟨-, -, mtp', hmtp, -, -, rfl⟩ := hcheck
    exact hmtp
  obtain ⟨st, sigCache, hloop, hrun, -, -⟩ := validateTransactions_eq_ok.mp hval
  have hloop' : validateLoop (s.blockContext env block height mtp) block.txdata = .ok st := by
    unfold blockContext
    rw [hbip]
    exact hloop
  refine ⟨mtp, hmtp, fun i tx hi htx => placed_of_validateLoop hmtp hloop' hi htx, ?_⟩
  intro c hc
  have hchecks : s.queuedChecks env block height = st.scriptChecks :=
    queuedChecks_of_validateLoop hmtp hloop'
  unfold executedChecks at hc
  rw [hchecks] at hc
  exact ScriptCheck.verifyScript_of_mem_executed hrun hc

end Connect

end ChainState
