import BitcoinPR.Core.Genuine
import BitcoinPR.Core.Runs
import BitcoinPR.Lib.Memo
import BitcoinPR.Mempool.Accounting

/-!
# One signature cache for blocks and pool

Inputs that were verified when a transaction entered the pool are not verified
again when a block confirms it: both paths share one cache of verified inputs.
An entry names the witness id of the transaction, the input and the flags, but
neither the outputs the transaction spends nor the branch they were found on.

That is enough, because the witness id determines the transaction, its inputs
determine the outpoints, and an outpoint determines the output (`IsOutput`). So
whatever is remembered is right for every check that will ever be made
(`SigCache.Trusted`), on any branch, under any state of the BIP-110 deployment,
and a call comes out as it would with an empty cache. The cache is an instance
of `Memo`, which has the argument.
-/

open SigCache

/-! ## Keys -/

namespace ScriptFlags

/-- The flags of a bit mask. -/
def ofBits (n : Nat) : ScriptFlags :=
  ⟨n.testBit 0, n.testBit 1, n.testBit 2, n.testBit 3, n.testBit 4, n.testBit 5, n.testBit 7,
    n.testBit 6⟩

/-- The bit mask determines the flags. -/
theorem ofBits_bits (f : ScriptFlags) : ofBits f.bits = f := by
  revert f
  decide +kernel

end ScriptFlags

/-- What comes of a check. -/
def ScriptCheck.verdict [ScriptEngine] (flags : ScriptFlags) (c : ScriptCheck) :
    Except CoreError Unit :=
  ScriptEngine.verifyScript c.tx c.vin c.prevouts (c.flagsUnder flags)

/-- **The key of a genuine check determines what comes of it.** -/
theorem CollisionFree.verdict_eq [Hashing] [ScriptEngine] {U : Set Tx} (hU : CollisionFree U)
    {flags flags' : ScriptFlags} {c c' : ScriptCheck} (hc : c.Genuine U) (hc' : c'.Genuine U)
    (hkey : c.key flags = c'.key flags') : c.verdict flags = c'.verdict flags' := by
  obtain ⟨hwtxid, hvin, hbits⟩ := SigKey.mk.inj hkey
  have hflags : c.flagsUnder flags = c'.flagsUnder flags' := by
    rw [← (c.flagsUnder flags).ofBits_bits, ← (c'.flagsUnder flags').ofBits_bits, hbits]
  have htx : c.tx = c'.tx := by
    refine hU.wtxid _ hc.tx _ hc'.tx ?_
    rw [← hc.wtxid, ← hc'.wtxid]
    exact hwtxid
  have hlt := hU.length_lt hc.tx
  have hlt' := hU.length_lt hc'.tx
  have hv : c.vin = c'.vin := by
    have heq := congrArg UInt32.toNat hvin
    have hvin := hc.vin
    have hvin' := hc'.vin
    rwa [UInt32.toNat_ofNat', UInt32.toNat_ofNat', Nat.mod_eq_of_lt (by omega),
      Nat.mod_eq_of_lt (by omega)] at heq
  have hprevouts : c.prevouts = c'.prevouts :=
    hU.prevouts_unique hc.prevouts (htx ▸ hc'.prevouts)
  unfold ScriptCheck.verdict
  rw [htx, hv, hprevouts, hflags]

/-! ## The cache as a memory -/

namespace SigCache

/-- **The signature cache as a memory of checks.** -/
def memo (ρ : IterOrder SigKey) : Memo SigCache SigKey where
  contains := contains
  insert c k := c.insert ρ k
  contains_insert := contains_insert

variable [Hashing] [ScriptEngine] {U : Set Tx}

/-- **What the cache remembers is right** for every genuine check. -/
def Trusted (U : Set Tx) (cache : SigCache) : Prop :=
  ∀ flags (c : ScriptCheck), c.Genuine U → cache.contains (c.key flags) = true →
    c.verdict flags = .ok ()

theorem trusted_of_shards_eq_nil {cache : SigCache} (h : ∀ i, cache.shards i = []) :
    cache.Trusted U := by
  intro flags c _ hin
  have hmem := of_decide_eq_true hin
  rw [h] at hmem
  cases hmem

theorem trusted_new (maxSize : Nat) : (new maxSize).Trusted U :=
  trusted_of_shards_eq_nil fun _ => rfl

end SigCache

section Checks

variable [Hashing] [ScriptEngine] {U : Set Tx}

/-- What the memory is asked: a check, with the flags of the call. -/
def queries (flags : ScriptFlags) (checks : List ScriptCheck) : List (ScriptFlags × ScriptCheck) :=
  checks.map fun c => (flags, c)

/-- What comes of checks without a cache. -/
def verdictOf (wrap : CoreError → CoreError) (flags : ScriptFlags) (checks : List ScriptCheck) :
    Except CoreError Unit :=
  Memo.verifyAll (fun q => q.2.verdict q.1) wrap (queries flags checks)

/-- Checks made with the cache, as both paths make them. -/
def SigCache.checkAll (ρ : IterOrder SigKey) (wrap : CoreError → CoreError) (flags : ScriptFlags)
    (checks : List ScriptCheck) (cache : SigCache) : Except CoreError Unit × SigCache :=
  (memo ρ).checkAll (fun q => q.2.key q.1) (fun q => q.2.verdict q.1) wrap (queries flags checks)
    cache

/-- **Checks made with a trusted cache come out as without**, and the cache stays
trusted. -/
theorem SigCache.Trusted.checkAll (hU : CollisionFree U) {cache : SigCache}
    (h : cache.Trusted U) (ρ : IterOrder SigKey) (wrap : CoreError → CoreError)
    (flags : ScriptFlags) {checks : List ScriptCheck} (hchecks : ∀ c ∈ checks, c.Genuine U) :
    (cache.checkAll ρ wrap flags checks).1 = verdictOf wrap flags checks
      ∧ (cache.checkAll ρ wrap flags checks).2.Trusted U := by
  have hqueries : ∀ q ∈ queries flags checks, q.2.Genuine U := by
    intro q hq
    obtain ⟨c, hc, rfl⟩ := List.mem_map.mp hq
    exact hchecks c hc
  obtain ⟨hverdict, hhonest⟩ := @Memo.checkAll_eq _ _ (ScriptFlags × ScriptCheck) _
    (memo ρ) (fun q => q.2.key q.1) (fun q => q.2.verdict q.1) (fun q => q.2.Genuine U)
    (fun _ _ ha hb hkey => hU.verdict_eq ha hb hkey) wrap _ hqueries cache
    (fun q hq hin => h q.1 q.2 hq hin)
  exact ⟨hverdict, fun flags c hc hin => hhonest (flags, c) hc hin⟩

/-- The error a block is rejected with when a check fails. -/
def scriptCheckFailed (e : CoreError) : CoreError :=
  .invalidScript s!"script check failed: {e.display}"

section

variable (flags : ScriptFlags) (ρ : IterOrder SigKey) (checks : List ScriptCheck)
  (cache : SigCache)

omit [Hashing] in
theorem runScriptChecks_eq_checkAll :
    runScriptChecks flags ρ checks cache = cache.checkAll ρ scriptCheckFailed flags checks := by
  induction checks generalizing cache with
  | nil => rfl
  | cons c checks ih =>
    rw [runScriptChecks, checkAll, queries, List.map_cons, Memo.checkAll]
    have hone : runScriptCheck flags ρ cache c
        = (memo ρ).check (fun q => q.2.key q.1) (fun q => q.2.verdict q.1) cache
            (flags, c) := rfl
    rw [← hone]
    cases runScriptCheck flags ρ cache c with
    | error e => rfl
    | ok cache' => exact ih cache'

omit [Hashing] in
theorem verifyInputs_eq_checkAll :
    Mempool.verifyInputs flags ρ checks (some cache)
      = Prod.map id some (cache.checkAll ρ id flags checks) := by
  induction checks generalizing cache with
  | nil => rfl
  | cons c checks ih =>
    rw [Mempool.verifyInputs, checkAll, queries, List.map_cons, Memo.checkAll]
    have hone : Mempool.verifyOne flags ρ (some cache) c
        = ((memo ρ).check (fun q => q.2.key q.1) (fun q => q.2.verdict q.1) cache
            (flags, c)).map some := rfl
    rw [hone]
    cases (memo ρ).check (fun q : ScriptFlags × ScriptCheck => q.2.key q.1)
        (fun q => q.2.verdict q.1) cache (flags, c) with
    | error e => rfl
    | ok cache' => exact ih cache'

end

end Checks

/-! ## Blocks -/

namespace ChainState

variable [Hashing] [ScriptEngine] {U : Set Tx}

/-- **A chain state whose coins are genuine and whose cache is right.** -/
structure Trusted (U : Set Tx) (s : ChainState) : Prop where
  coins : s.utxoSet.Everywhere (Genuine U)
  cache : s.sigCache.Trusted U

variable {s : ChainState} {env : Env} {block : Block} {height : Nat}

section

variable (hU : CollisionFree U) (h : s.Trusted U) (env : Env) (htxs : ∀ tx ∈ block.txdata, tx ∈ U)
include hU h htxs

/-- **The verdict on a block's transactions does not depend on what is cached**,
and what is cached after it is right. -/
theorem Trusted.validateTransactions (height mtp : Nat) (bip110 : Bip110Activation) :
    (∀ cache : SigCache, cache.Trusted U →
        (s.validateTransactions env block height mtp bip110).1
          = (({ s with sigCache := cache } : ChainState).validateTransactions env block height mtp
              bip110).1)
      ∧ (s.validateTransactions env block height mtp bip110).2.sigCache.Trusted U := by
  have hfetched := h.coins.recached genuine_serializable genuine_toEntry_new
    (UtxoSet.recached_prefetch s.utxoSet (spentOutpoints block))
  have hgenuine : ∀ st, validateLoop ((s.prefetchBlock block).txContext env.overflow block height
      mtp bip110) block.txdata = .ok st →
      ∀ c ∈ env.checkOrder.order st.scriptChecks, c.Genuine U := fun st hloop c hc =>
    genuine_validateLoop (fun o e he => (hfetched.get genuine_serializable he).2) hU htxs hloop c
      (env.checkOrder.mem_order.mp hc)
  rcases s.validateTransactions_cases env block height mtp bip110 with
    ⟨e, hloop, heq⟩ | ⟨st, result, cache₁, hloop, hrun, heq⟩
  · refine ⟨fun cache _ => ?_, ?_⟩
    · rcases ({ s with sigCache := cache } : ChainState).validateTransactions_cases env block height
        mtp bip110 with ⟨e', hloop', heq'⟩ | ⟨st', _, _, hloop', -⟩
      · rw [heq, heq', Except.error.inj (hloop.symm.trans hloop')]
      · cases hloop.symm.trans hloop'
    · rw [heq]
      exact h.cache
  · rw [runScriptChecks_eq_checkAll] at hrun
    have hmade := h.cache.checkAll hU env.sigOrder scriptCheckFailed
      (ScriptFlags.forHeight height block.header.time.toNat s.params) (hgenuine st hloop)
    rw [hrun] at hmade
    rw [heq]
    refine ⟨fun cache hc => ?_, hmade.2⟩
    rcases ({ s with sigCache := cache } : ChainState).validateTransactions_cases env block height
      mtp bip110 with ⟨e', hloop', -⟩ | ⟨st', result', _, hloop', hrun', heq'⟩
    · cases hloop.symm.trans hloop'
    · obtain rfl := Except.ok.inj (hloop.symm.trans hloop')
      rw [runScriptChecks_eq_checkAll] at hrun'
      have hmade' := hc.checkAll hU env.sigOrder scriptCheckFailed
        (ScriptFlags.forHeight height block.header.time.toNat s.params) (hgenuine st hloop)
      have hsame : result = result' :=
        hmade.1.trans (hmade'.1.symm.trans (congrArg Prod.fst hrun'))
      rw [heq', hsame]

/-- **Connecting a block keeps the state trusted.** -/
theorem Trusted.connectBlock (hheight : height < 2 ^ 32) :
    (s.connectBlock env block height).2.Trusted U := by
  refine ⟨everywhere_connectBlock hU h.coins env htxs hheight, ?_⟩
  unfold ChainState.connectBlock
  cases s.checkBlock env.now block height with
  | error e => exact h.cache
  | ok mtp =>
    simp only
    generalize s.bip110Activation block.header.prevBlockhash height = activation
    have hval := Trusted.validateTransactions hU
      (⟨h.coins, h.cache⟩ : ({ s with bip110Cache := activation.2 } : ChainState).Trusted U) env
      htxs height mtp activation.1
    split
    · exact h.cache
    · generalize ({ s with bip110Cache := activation.2 } : ChainState).validateTransactions env
        block height mtp activation.1 = r at hval
      obtain ⟨_ | batch, s'⟩ := r
      · exact hval.2
      · show (if height % 10000 = 0 then s'.sigCache.clear else s'.sigCache).Trusted U
        split
        · exact trusted_of_shards_eq_nil fun _ => rfl
        · exact hval.2

end

/-- **Disconnecting a block keeps the state trusted.** -/
theorem Trusted.disconnectBlock (h : s.Trusted U) (env : Env) (block : Block) (height : Nat) :
    (s.disconnectBlock env block height).2.Trusted U := by
  refine ⟨everywhere_disconnectBlock h.coins env block height, ?_⟩
  rcases hdis : s.disconnectBlock env block height with ⟨_ | u, s'⟩
  · rw [disconnectBlock_of_error hdis]
    exact h.cache
  · obtain ⟨-, -, undo, -, rfl⟩ := disconnectBlock_eq_ok.mp hdis
    exact h.cache

end ChainState

/-! ## The pool -/

namespace Mempool

variable {R : Type} [Hashing] {U : Set Tx} {pool : Mempool R}

/-- The transactions of the pool are under their ids. -/
def Genuine (U : Set Tx) (pool : Mempool R) : Prop :=
  ∀ id e, pool.get id = some e → e.tx ∈ U ∧ e.tx.computeTxid = id

theorem Genuine.removeTransaction (h : pool.Genuine U) (txid : Hash) :
    (pool.removeTransaction txid).Genuine U := by
  intro id e he
  rw [get_removeTransaction] at he
  split at he
  · cases he
  · exact h id e he

section

variable (h : pool.Genuine U) {get : OutPoint → Except StorageError (Option UtxoEntry)}
  (hget : ∀ o e, get o = .ok (some e) → IsOutput U o ⟨e.amount, e.scriptPubkey⟩)
include h hget

/-- **An input of the pool spends the output it names**, confirmed or not. -/
theorem Genuine.isOutput {nextHeight : Nat} {o : OutPoint} {out : TxOut × Nat}
    (hout : pool.lookupPrevout get nextHeight o = .ok out) : IsOutput U o out.1 := by
  unfold lookupPrevout at hout
  split at hout
  · cases hout
  · rename_i utxo hu
    obtain rfl := Except.ok.inj hout
    exact hget o utxo hu
  · split at hout
    · rename_i out' ho
      obtain rfl := Except.ok.inj hout
      obtain ⟨parent, hparent, hvout⟩ := Option.bind_eq_some_iff.mp ho
      obtain ⟨hin, hid⟩ := h _ _ hparent
      exact ⟨parent.tx, hin, hid, hvout⟩
    · cases hout

/-- The checks of a transaction that is planned to be admitted are genuine. -/
theorem Genuine.scriptChecks [FeeRates R] [RelayFilters] {policy : RelayPolicy}
    {params : ConsensusParams} {overflow : Overflow} {ctx : MempoolChainContext}
    {env : AcceptEnv R} {tx : Tx} (htx : tx ∈ U) {adm : Admission R}
    (hadm : pool.planAdmission policy params get overflow ctx env tx = .ok adm) :
    ∀ c ∈ Mempool.scriptChecks ctx tx adm.prevouts adm.inputHeights, c.Genuine U := by
  obtain ⟨gathered, times, outputSum, hpass⟩ := exists_passes hadm
  obtain ⟨outs, hg⟩ := gathers_gatherInputs hpass.gathered_eq
  have hprevouts : adm.prevouts = outs.map Prod.fst := by
    rw [hpass.adm_eq]
    exact hg.prevouts
  have hheights : adm.inputHeights = outs.map Prod.snd := by
    rw [hpass.adm_eq]
    exact hg.inputHeights
  intro c hc
  obtain ⟨vin, height, hvin, rfl⟩ := mem_scriptChecks.mp hc
  obtain ⟨hlt, -⟩ := List.getElem?_eq_some_iff.mp hvin
  rw [hheights, List.length_map, ← hg.found.length_eq] at hlt
  refine ⟨htx, rfl, hlt, ?_⟩
  rw [hprevouts, List.forall₂_map_right_iff]
  exact hg.found.imp fun i out hout => h.isOutput hget hout

end

variable [FeeRates R] [RelayFilters] [ScriptEngine]

section

variable (pool) (policy : RelayPolicy) (params : ConsensusParams)
  (get : OutPoint → Except StorageError (Option UtxoEntry)) (overflow : Overflow)
  (flags : ScriptFlags) (ctx : MempoolChainContext) (env : AcceptEnv R) (tx : Tx)

/-- Only the verdict on the scripts is taken from the cache, and only when all
else has been checked. -/
theorem addTransaction_checkAll :
    (∃ verdict, ∀ cache,
      (pool.addTransaction policy params get overflow flags ctx env tx (some cache)).1 = verdict
      ∧ (pool.addTransaction policy params get overflow flags ctx env tx (some cache)).2.2
        = some cache)
      ∨ ∃ adm, ∃ decide : Except CoreError Unit → Except CoreError Hash,
        pool.planAdmission policy params get overflow ctx env tx = .ok adm
        ∧ ∀ cache, ∃ checked, cache.checkAll env.sigOrder id flags
            (env.checkOrder.order (Mempool.scriptChecks ctx tx adm.prevouts adm.inputHeights))
              = checked
          ∧ (pool.addTransaction policy params get overflow flags ctx env tx (some cache)).1
            = decide checked.1
          ∧ (pool.addTransaction policy params get overflow flags ctx env tx (some cache)).2.2
            = some checked.2 := by
  unfold addTransaction
  by_cases hin : pool.contains tx.computeTxid = true
  · refine Or.inl ⟨.ok tx.computeTxid, fun _ => ?_⟩
    rw [if_pos hin]
    exact ⟨rfl, rfl⟩
  · simp only [if_neg hin]
    cases pool.planAdmission policy params get overflow ctx env tx with
    | error e => exact Or.inl ⟨_, fun _ => ⟨rfl, rfl⟩⟩
    | ok adm =>
      refine Or.inr ⟨adm, fun verdict => verdict.bind fun _ => (pool.planRoom env.entryOrder adm
        tx.input.length pool.entries.length (pool.startRoom adm)).map fun _ => adm.txid, rfl,
        fun cache => ⟨_, rfl, ?_⟩⟩
      simp only [verifyInputs_eq_checkAll]
      generalize cache.checkAll _ _ _ _ = checked
      obtain ⟨_ | u, k⟩ := checked
      · exact ⟨rfl, rfl⟩
      · cases pool.planRoom env.entryOrder adm tx.input.length pool.entries.length
            (pool.startRoom adm) <;> exact ⟨rfl, rfl⟩

end

section Adding

variable (hU : CollisionFree U) {pool : Mempool R} (h : pool.Genuine U) (policy : RelayPolicy)
  (params : ConsensusParams) {get : OutPoint → Except StorageError (Option UtxoEntry)}
  (hget : ∀ o e, get o = .ok (some e) → IsOutput U o ⟨e.amount, e.scriptPubkey⟩)
  (overflow : Overflow) (flags : ScriptFlags) (ctx : MempoolChainContext) (env : AcceptEnv R)
  {tx : Tx} (htx : tx ∈ U) {cache : SigCache} (hcache : cache.Trusted U)
include hU h hget htx hcache

/-- **The verdict on a transaction does not depend on what is cached.** -/
theorem Genuine.addTransaction_verdict {cache' : SigCache} (hcache' : cache'.Trusted U) :
    (pool.addTransaction policy params get overflow flags ctx env tx (some cache)).1
      = (pool.addTransaction policy params get overflow flags ctx env tx (some cache')).1 := by
  rcases pool.addTransaction_checkAll policy params get overflow flags ctx env tx with
    ⟨verdict, hsame⟩ | ⟨adm, decide, hadm, hchecked⟩
  · rw [(hsame cache).1, (hsame cache').1]
  · have hchecks := fun c hc => h.scriptChecks hget htx hadm c (env.checkOrder.mem_order.mp hc)
    obtain ⟨_, rfl, hverdict, -⟩ := hchecked cache
    obtain ⟨_, rfl, hverdict', -⟩ := hchecked cache'
    rw [hverdict, hverdict', (hcache.checkAll hU env.sigOrder id flags hchecks).1,
      (hcache'.checkAll hU env.sigOrder id flags hchecks).1]

/-- What is cached after it is right. -/
theorem Genuine.addTransaction_trusted :
    ∀ k ∈ (pool.addTransaction policy params get overflow flags ctx env tx (some cache)).2.2,
      k.Trusted U := by
  intro k hk
  rcases pool.addTransaction_checkAll policy params get overflow flags ctx env tx with
    ⟨verdict, hsame⟩ | ⟨adm, decide, hadm, hchecked⟩
  · obtain rfl := Option.mem_unique (hsame cache).2 hk
    exact hcache
  · obtain ⟨_, rfl, -, hnew⟩ := hchecked cache
    obtain rfl := Option.mem_unique hnew hk
    exact (hcache.checkAll hU env.sigOrder id flags fun c hc =>
      h.scriptChecks hget htx hadm c (env.checkOrder.mem_order.mp hc)).2

omit hU hget hcache in
/-- What is in the pool after it is under its id. -/
theorem Genuine.addTransaction (cache : Option SigCache) :
    (pool.addTransaction policy params get overflow flags ctx env tx cache).2.1.Genuine U := by
  rcases pool.addTransaction_cases policy params get overflow flags ctx env tx cache with
    hsame | ⟨adm, plan, u, cache', -, hadm, -, hplan, heq⟩
  · rw [hsame]
    exact h
  · obtain ⟨gathered, times, outputSum, hpass⟩ := exists_passes hadm
    have htxid : adm.txid = tx.computeTxid := by rw [hpass.adm_eq]
    obtain ⟨hacc, -⟩ := accounted_of_planned hadm hplan
    obtain ⟨floor, time, hpool⟩ := pool.evictPlanned_eq hacc.victims env.now
    rw [heq, hpool]
    intro id e he
    rw [get_insertEntry] at he
    split at he
    · rename_i hid
      obtain rfl := Option.some.inj he
      exact ⟨htx, htxid.symm.trans hid.symm⟩
    · replace he : (pool.removeAll plan.victims).get id = some e := he
      rw [get_removeAll] at he
      split at he
      · cases he
      · exact h id e he

end Adding

end Mempool

/-! ## Whole runs -/

/-- A chain state and a pool that share the signature cache of the chain
state. -/
structure SharingNode (R : Type) where
  chain : ChainState
  pool : Mempool R

/-- What happens to them. -/
inductive SharingCall (R : Type) where
  /-- A transaction is offered to the pool, in any context. -/
  | addTransaction (policy : RelayPolicy) (params : ConsensusParams) (overflow : Overflow)
      (flags : ScriptFlags) (ctx : MempoolChainContext) (env : AcceptEnv R) (tx : Tx)
  | remove (r : Mempool.Removal R)
  /-- The transactions of a block are validated, and nothing comes of it. -/
  | validateTransactions (env : Env) (block : Block) (height mtp : Nat) (bip110 : Bip110Activation)
  | connectBlock (env : Env) (block : Block) (height : Nat)
  | disconnectBlock (env : Env) (block : Block) (height : Nat)
  /-- A lookup fills the cache of coins. -/
  | lookup (o : OutPoint)
  /-- Headers arrive, and states of the BIP-110 deployment are remembered. -/
  | headers (ix : HeaderIndex) (memo : Bip110Cache)
  /-- The node stops after some batches of a last flush, and starts again. -/
  | restart (order : MapOrder) (written cap budget maxSize maxMemoryBytes : Nat)

namespace SharingCall

variable {R : Type}

/-- The transactions a call brings are of `U`, and the height of a block is a
word of 32 bits, as it is in the code. -/
def Within (U : Set Tx) : SharingCall R → Prop
  | addTransaction _ _ _ _ _ _ tx => tx ∈ U
  | validateTransactions _ block _ _ _ => ∀ tx ∈ block.txdata, tx ∈ U
  | connectBlock _ block height => (∀ tx ∈ block.txdata, tx ∈ U) ∧ height < 2 ^ 32
  | _ => True

end SharingCall

namespace SharingNode

variable {R : Type}

/-- A confirmed coin, as the pool looks it up. -/
def coin (n : SharingNode R) (o : OutPoint) : Except StorageError (Option UtxoEntry) :=
  (n.chain.utxoSet.get o).1

/-- A node with an empty store, an empty pool and an empty signature cache, of
any sizes. -/
structure Fresh [FeeRates R] (n : SharingNode R) : Prop where
  utxoSet : ∃ cap budget, n.chain.utxoSet = UtxoSet.openDb UtxoDb.empty cap budget
  sigCache : ∃ maxSize, n.chain.sigCache = SigCache.new maxSize
  pool : ∃ maxMemoryBytes, n.pool = Mempool.new maxMemoryBytes

variable [FeeRates R] [Hashing] [ScriptEngine] [RelayFilters]

/-- One call, whatever comes of it. -/
def step (n : SharingNode R) : SharingCall R → SharingNode R
  | .addTransaction policy params overflow flags ctx env tx =>
    let result := n.pool.addTransaction policy params n.coin overflow flags ctx env tx
      (some n.chain.sigCache)
    ⟨{ n.chain with sigCache := result.2.2.getD n.chain.sigCache }, result.2.1⟩
  | .remove r => ⟨n.chain, n.pool.remove r⟩
  | .validateTransactions env block height mtp bip110 =>
    ⟨(n.chain.validateTransactions env block height mtp bip110).2, n.pool⟩
  | .connectBlock env block height => ⟨(n.chain.connectBlock env block height).2, n.pool⟩
  | .disconnectBlock env block height => ⟨(n.chain.disconnectBlock env block height).2, n.pool⟩
  | .lookup o => ⟨{ n.chain with utxoSet := (n.chain.utxoSet.get o).2 }, n.pool⟩
  | .headers ix memo => ⟨{ n.chain with headerIndex := ix, bip110Cache := memo }, n.pool⟩
  | .restart order written cap budget maxSize maxMemoryBytes =>
    ⟨{ n.chain with
        utxoSet := UtxoSet.openDb
          (((n.chain.utxoSet.flushWrites order).take written).foldl UtxoDb.write
            n.chain.utxoSet.db) cap budget
        sigCache := SigCache.new maxSize },
      Mempool.new maxMemoryBytes⟩

def run (n : SharingNode R) (calls : List (SharingCall R)) : SharingNode R := calls.foldl step n

/-- Coins, cache and pool are right. -/
structure Trusted (U : Set Tx) (n : SharingNode R) : Prop where
  chain : n.chain.Trusted U
  pool : n.pool.Genuine U

variable {U : Set Tx} {n : SharingNode R}

omit [FeeRates R] [RelayFilters] in
theorem Trusted.isOutput (h : n.Trusted U) (o : OutPoint) (e : UtxoEntry)
    (he : n.coin o = .ok (some e)) : IsOutput U o ⟨e.amount, e.scriptPubkey⟩ :=
  (h.chain.coins.get genuine_serializable he).2

omit [ScriptEngine] [RelayFilters] in
theorem genuine_new (maxMemoryBytes : Nat) :
    (Mempool.new maxMemoryBytes : Mempool R).Genuine U := by
  intro id e he
  cases (AList.lookup_empty id).symm.trans he

omit [RelayFilters] in
theorem Fresh.trusted (h : n.Fresh) : n.Trusted U := by
  obtain ⟨cap, budget, hu⟩ := h.utxoSet
  obtain ⟨maxSize, hc⟩ := h.sigCache
  obtain ⟨maxMemoryBytes, hp⟩ := h.pool
  refine ⟨⟨?_, ?_⟩, ?_⟩
  · rw [hu]
    exact UtxoSet.everywhere_openDb UtxoDb.everywhere_empty cap budget
  · rw [hc]
    exact trusted_new maxSize
  · rw [hp]
    exact genuine_new maxMemoryBytes

/-- **One call** leaves everything right. -/
theorem Trusted.step (hU : CollisionFree U) (h : n.Trusted U) {c : SharingCall R}
    (hc : c.Within U) : (n.step c).Trusted U := by
  cases c with
  | addTransaction policy params overflow flags ctx env tx =>
    have htrusted := h.pool.addTransaction_trusted hU policy params h.isOutput overflow flags ctx
      env hc h.chain.cache
    refine ⟨⟨h.chain.coins, ?_⟩, h.pool.addTransaction policy params overflow flags ctx env hc _⟩
    show ((n.pool.addTransaction policy params n.coin overflow flags ctx env tx
      (some n.chain.sigCache)).2.2.getD n.chain.sigCache).Trusted U
    cases hk : (n.pool.addTransaction policy params n.coin overflow flags ctx env tx
        (some n.chain.sigCache)).2.2 with
    | none => exact h.chain.cache
    | some k => exact htrusted k hk
  | remove r =>
    exact ⟨h.chain, Mempool.remove_keeps (fun _ txid hp => hp.removeTransaction txid) h.pool r⟩
  | validateTransactions env block height mtp bip110 =>
    refine ⟨⟨?_, (h.chain.validateTransactions hU env hc height mtp bip110).2⟩, h.pool⟩
    exact h.chain.coins.recached genuine_serializable genuine_toEntry_new
      (ChainState.rejected_validateTransactions rfl).recached
  | connectBlock env block height => exact ⟨h.chain.connectBlock hU env hc.1 hc.2, h.pool⟩
  | disconnectBlock env block height => exact ⟨h.chain.disconnectBlock env block height, h.pool⟩
  | lookup o =>
    refine ⟨⟨?_, h.chain.cache⟩, h.pool⟩
    exact h.chain.coins.recached genuine_serializable genuine_toEntry_new (UtxoSet.recached_get o)
  | headers ix memo => exact ⟨⟨h.chain.coins, h.chain.cache⟩, h.pool⟩
  | restart order written cap budget maxSize maxMemoryBytes =>
    exact ⟨⟨h.chain.coins.reopen order written cap budget, trusted_new maxSize⟩,
      genuine_new maxMemoryBytes⟩

theorem Trusted.run (hU : CollisionFree U) (h : n.Trusted U) {calls : List (SharingCall R)}
    (hcalls : ∀ c ∈ calls, c.Within U) : (n.run calls).Trusted U := by
  induction calls generalizing n with
  | nil => exact h
  | cons c calls ih =>
    exact ih (h.step hU (hcalls c List.mem_cons_self)) fun c' hc' =>
      hcalls c' (List.mem_cons_of_mem c hc')

/-- **The signature cache is transparent.** After any calls from an empty node –
admissions, validations, blocks connected and disconnected on any branches,
restarts – a block's transactions and a transaction offered to the pool get the
verdict they would get with an empty cache, of whatever size. -/
theorem verdicts_eq_of_emptyCache (hU : CollisionFree U) (hn : n.Fresh)
    {calls : List (SharingCall R)} (hcalls : ∀ c ∈ calls, c.Within U) (maxSize : Nat) :
    (∀ env (block : Block) height mtp bip110, (∀ tx ∈ block.txdata, tx ∈ U) →
        ((n.run calls).chain.validateTransactions env block height mtp bip110).1
          = (({ (n.run calls).chain with sigCache := SigCache.new maxSize } :
              ChainState).validateTransactions env block height mtp bip110).1)
      ∧ ∀ policy params overflow flags ctx env tx, tx ∈ U →
          ((n.run calls).pool.addTransaction policy params (n.run calls).coin overflow flags ctx env
              tx (some (n.run calls).chain.sigCache)).1
            = ((n.run calls).pool.addTransaction policy params (n.run calls).coin overflow flags
                ctx env tx (some (SigCache.new maxSize))).1 := by
  have h := hn.trusted.run hU hcalls
  refine ⟨fun env block height mtp bip110 htxs => ?_,
    fun policy params overflow flags ctx env tx htx => ?_⟩
  · exact (h.chain.validateTransactions hU env htxs height mtp bip110).1 _
      (trusted_new maxSize)
  · exact h.pool.addTransaction_verdict hU policy params h.isOutput overflow flags ctx env htx
      h.chain.cache (trusted_new maxSize)

end SharingNode

section Sample

attribute [local instance] sampleHashing sampleScripts

/-- No data is embedded anywhere. -/
@[reducible] def sampleFilters : RelayFilters :=
  ⟨fun _ => none, fun _ => none, fun _ => none, fun _ => none, fun _ => none⟩

attribute [local instance] sampleRates sampleFilters

/-- Two coinbases, and a transaction that spends the first. -/
def sharedTxs : List Tx :=
  [sampleCoinbase 1001 1, sampleCoinbase 1002 2, sampleSpend 7 [⟨1001#256, 0⟩] [4000000000]]

theorem collisionFree_sharedTxs : CollisionFree (· ∈ sharedTxs) where
  txid := by
    show ∀ tx ∈ sharedTxs, ∀ tx' ∈ sharedTxs, tx.computeTxid = tx'.computeTxid →
      tx.strip = tx'.strip
    decide
  wtxid := by
    show ∀ tx ∈ sharedTxs, ∀ tx' ∈ sharedTxs, tx.computeWtxid = tx'.computeWtxid → tx = tx'
    decide
  size := by
    show ∀ tx ∈ sharedTxs, tx.totalSize < 2 ^ 32
    decide

/-- An empty node. -/
def sharingNode : SharingNode Nat := ⟨emptyChain, Mempool.new 300000000⟩

/-- The first coinbase is connected, and a transaction that spends it is offered
to the pool for block 101. -/
def sharingCalls : List (SharingCall Nat) :=
  [.connectBlock sampleEnv (sampleBlock 1 2 10 1 1001 []) 1,
    .addTransaction RelayPolicy.standard ConsensusParams.regtest .wrap
      (ScriptFlags.forHeight 101 11 ConsensusParams.regtest)
      ⟨100, 10, sampleIndex [(1, 0, 0)], ⟨.defined, none⟩⟩
      ⟨0, IterOrder.id, IterOrder.id, IterOrder.id, IterOrder.id⟩
      (sampleSpend 7 [⟨1001#256, 0⟩] [4000000000])]

/-- The input is in the cache now, and the block that confirms the transaction is
validated as with an empty one. -/
theorem verdict_confirmingBlock :
    (sharingNode.run sharingCalls).chain.sigCache.contains
        (SigCache.key 7#256 0 (ScriptFlags.forHeight 101 11 ConsensusParams.regtest)) = true
      ∧ ((sharingNode.run sharingCalls).chain.validateTransactions sampleEnv
        (sampleBlock 2 3 11 2 1002 [sampleSpend 7 [⟨1001#256, 0⟩] [4000000000]]) 101 10
        ⟨.defined, none⟩).1
      = (({ (sharingNode.run sharingCalls).chain with sigCache := SigCache.new 0 } :
          ChainState).validateTransactions sampleEnv
        (sampleBlock 2 3 11 2 1002 [sampleSpend 7 [⟨1001#256, 0⟩] [4000000000]]) 101 10
        ⟨.defined, none⟩).1 := by
  refine ⟨by decide +kernel, (SharingNode.verdicts_eq_of_emptyCache collisionFree_sharedTxs
    ⟨⟨0, 0, rfl⟩, ⟨100, rfl⟩, ⟨300000000, rfl⟩⟩ (fun c hc => ?_) 0).1 sampleEnv _ 101 10 _ ?_⟩
  · have hfirst : ∀ tx ∈ (sampleBlock 1 2 10 1 1001 []).txdata, tx ∈ sharedTxs := by decide
    have hspend : sampleSpend 7 [⟨1001#256, 0⟩] [4000000000] ∈ sharedTxs := by decide
    simp only [sharingCalls, List.mem_cons, List.not_mem_nil, or_false] at hc
    rcases hc with rfl | rfl
    · exact ⟨hfirst, by decide⟩
    · exact hspend
  · show ∀ tx ∈ (sampleBlock 2 3 11 2 1002 [sampleSpend 7 [⟨1001#256, 0⟩] [4000000000]]).txdata,
      tx ∈ sharedTxs
    decide

end Sample
