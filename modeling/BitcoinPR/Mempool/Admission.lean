import BitcoinPR.Mempool.Removal

/-!
# What an admitted transaction has passed

`addTransaction` is taken apart once. Either the pool is left alone, or
(`Admitted`) the transaction has passed every check, some families have left
the pool whole, and the transaction is entered into what remains – where its
parents are still in and nobody spends what it spends.

That its parents are in needs both of the ways to evict. What is replaced is
compared with the inputs directly. What is given up to make room is not: only
the victim itself is looked up among the ancestors, which is enough because a
victim whose family holds a parent of the transaction is an ancestor of it.
-/

open List

variable {R : Type}

namespace Mempool

/-! ## Inputs -/

/-- **What the inputs gather**: for each the output it spends and the height
that counts, their sum, and everybody of the pool who spends the same. -/
structure Gathers (pool : Mempool R) (get : OutPoint → Except StorageError (Option UtxoEntry))
    (overflow : Overflow) (nextHeight : Nat) (inputs : List TxIn) (acc acc' : GatheredInputs)
    (outs : List (TxOut × Nat)) : Prop where
  found : List.Forall₂ (fun i out => pool.lookupPrevout get nextHeight i.previousOutput = .ok out)
    inputs outs
  prevouts : acc'.prevouts = acc.prevouts ++ outs.map Prod.fst
  inputHeights : acc'.inputHeights = acc.inputHeights ++ outs.map Prod.snd
  sum : sumU64 overflow (outs.map fun out => out.1.value) acc.inputSum = .ok acc'.inputSum
  noted : ∀ id ∈ acc.conflicts, id ∈ acc'.conflicts
  conflicts : ∀ i ∈ inputs, ∀ id, pool.spender i.previousOutput = some id → id ∈ acc'.conflicts

theorem noteConflict_eq_ok {pool : Mempool R} {conflicts conflicts' : List Hash} {o : OutPoint}
    (h : pool.noteConflict conflicts o = .ok conflicts') :
    (∀ id ∈ conflicts, id ∈ conflicts') ∧ ∀ id, pool.spender o = some id → id ∈ conflicts' := by
  unfold noteConflict at h
  cases hs : pool.spender o with
  | none =>
    rw [hs] at h
    obtain rfl := Except.ok.inj h
    exact ⟨fun _ hid => hid, fun _ hid => (by cases hid)⟩
  | some existing =>
    simp only [hs] at h
    split at h
    · split at h
      · obtain rfl := Except.ok.inj h
        refine ⟨fun id hid => ?_, fun id hid => ?_⟩
        · split
          · exact hid
          · exact mem_append_left _ hid
        · obtain rfl := Option.some.inj hid
          split
          · assumption
          · exact mem_append_right _ (mem_singleton_self existing)
      · cases h
    · cases h

theorem gathers_gatherInputs {pool : Mempool R}
    {get : OutPoint → Except StorageError (Option UtxoEntry)} {overflow : Overflow}
    {nextHeight : Nat} {inputs : List TxIn} {acc acc' : GatheredInputs}
    (h : pool.gatherInputs get overflow nextHeight inputs acc = .ok acc') :
    ∃ outs, Gathers pool get overflow nextHeight inputs acc acc' outs := by
  induction inputs generalizing acc with
  | nil =>
    obtain rfl := Except.ok.inj h
    exact ⟨[], .nil, (append_nil _).symm, (append_nil _).symm, rfl, fun _ hid => hid,
      fun _ hi => (by cases hi)⟩
  | cons input inputs ih =>
    rw [gatherInputs, Except.bind_eq_ok] at h
    obtain ⟨acc₁, h₁, h⟩ := h
    unfold gatherInput at h₁
    simp only [Except.bind_eq_ok, Except.pure_eq_ok] at h₁
    obtain ⟨conflicts, hconf, out, hout, sum, hsum, rfl⟩ := h₁
    obtain ⟨hkept, hnew⟩ := noteConflict_eq_ok hconf
    obtain ⟨outs, hg⟩ := ih h
    refine ⟨out :: outs, .cons hout hg.found, ?_, ?_, ?_, fun id hid => hg.noted id (hkept id hid),
      fun i hi id hid => ?_⟩
    · rw [hg.prevouts, append_assoc]
      rfl
    · rw [hg.inputHeights, append_assoc]
      rfl
    · rw [map_cons, sumU64, hsum]
      exact hg.sum
    · rcases mem_cons.mp hi with rfl | hi
      · exact hg.noted id (hnew id hid)
      · exact hg.conflicts i hi id hid

end Mempool

/-! ## Scripts -/

namespace ScriptCheck

/-- The flags a check is made under. -/
def flagsUnder (flags : ScriptFlags) (c : ScriptCheck) : ScriptFlags :=
  { flags with verifyBip110 := c.enforceBip110 }

/-- What the signature cache knows a check by. -/
def key (flags : ScriptFlags) (c : ScriptCheck) : SigKey :=
  SigCache.key c.wtxid c.vin (c.flagsUnder flags)

end ScriptCheck

theorem SigCache.contains_insert {cache : SigCache} {ρ : IterOrder SigKey} {k k' : SigKey}
    (h : (cache.insert ρ k).contains k' = true) : k' = k ∨ cache.contains k' = true := by
  have hmem := of_decide_eq_true h
  simp only [SigCache.insert] at hmem
  by_cases hshard : SigCache.shardOf k' = SigCache.shardOf k
  · rw [hshard, Function.update_self] at hmem
    have hold : ∀ {set : List SigKey}, k' ∈ (if k ∈ set then set else k :: set) →
        k' = k ∨ k' ∈ set := by
      intro set hin
      split at hin
      · exact Or.inr hin
      · exact mem_cons.mp hin
    refine (hold hmem).imp_right fun hin => ?_
    refine decide_eq_true (hshard ▸ ?_)
    split at hin
    · split at hin
      · exact (mem_filter.mp hin).1
      · exact hin
    · exact hin
  · rw [Function.update_of_ne hshard] at hmem
    exact Or.inr (decide_eq_true hmem)

namespace Mempool

/-- The checks of a transaction, one for each input. -/
theorem mem_scriptChecks [Hashing] {ctx : MempoolChainContext} {tx : Tx} {prevouts : List TxOut}
    {inputHeights : List Nat} {c : ScriptCheck} :
    c ∈ scriptChecks ctx tx prevouts inputHeights ↔
      ∃ vin h, inputHeights[vin]? = some h ∧ c = ⟨tx, vin, prevouts, tx.computeWtxid,
        ctx.bip110.enforcing && ctx.bip110.activationHeight.any fun a => decide (a ≤ h)⟩ := by
  unfold scriptChecks
  rw [mem_map]
  constructor
  · rintro ⟨⟨h, vin⟩, hmem, rfl⟩
    exact ⟨vin, h, mem_zipIdx_iff_getElem?.mp hmem, rfl⟩
  · rintro ⟨vin, h, hget, rfl⟩
    exact ⟨(h, vin), mem_zipIdx_iff_getElem?.mpr hget, rfl⟩

/-! ## The whole -/

section Whole

variable [FeeRates R] [Hashing] [RelayFilters]

/-- **What a transaction has passed before its scripts**, and what is planned
for it. -/
structure Passes (pool : Mempool R) (policy : RelayPolicy) (params : ConsensusParams)
    (get : OutPoint → Except StorageError (Option UtxoEntry)) (overflow : Overflow)
    (ctx : MempoolChainContext) (env : AcceptEnv R) (tx : Tx) (gathered : GatheredInputs)
    (times : List Nat) (outputSum : UInt64) (adm : Admission R) : Prop where
  alone : checkAlone policy ctx tx.computeTxid tx = .ok ()
  gathered_eq : pool.gatherInputs get overflow ctx.nextHeight tx.input ⟨0, [], [], []⟩
    = .ok gathered
  locks : checkLocksAtTip params ctx tx.computeTxid tx gathered.inputHeights = .ok times
  evictions : checkEvictions tx.computeTxid tx adm.evict = .ok ()
  outputSum_eq : sumU64 overflow (tx.output.map TxOut.value) 0 = .ok outputSum
  outputSum_le : outputSum ≤ gathered.inputSum
  adm_eq : adm = {
    txid := tx.computeTxid
    fee := gathered.inputSum - outputSum
    size := tx.totalSize
    weight := tx.weight
    feeRate := FeeRates.rate (gathered.inputSum - outputSum) ((tx.weight + 3) / 4)
    lockHeight := (sequenceLockPoints tx gathered.inputHeights times).1
    lockTime := (sequenceLockPoints tx gathered.inputHeights times).2
    prevouts := gathered.prevouts
    inputHeights := gathered.inputHeights
    evict := pool.withDescendants gathered.conflicts.reverse []
    ancestors := pool.inMempoolAncestors tx }

theorem exists_passes {pool : Mempool R} {policy : RelayPolicy} {params : ConsensusParams}
    {get : OutPoint → Except StorageError (Option UtxoEntry)} {overflow : Overflow}
    {ctx : MempoolChainContext} {env : AcceptEnv R} {tx : Tx} {adm : Admission R}
    (h : pool.planAdmission policy params get overflow ctx env tx = .ok adm) :
    ∃ gathered times outputSum,
      Passes pool policy params get overflow ctx env tx gathered times outputSum adm := by
  unfold planAdmission at h
  simp only [Except.bind_eq_ok, exists_unit, rejectIf_eq_ok, Except.pure_eq_ok, UInt64.not_lt] at h
  obtain ⟨halone, gathered, hg, times, hlocks, hevict, outputSum, hout, hle, -, -, -, rfl⟩ := h
  exact ⟨gathered, times, outputSum, halone, hg, hlocks, hevict, hout, hle, rfl⟩

variable [ScriptEngine]

/-- **Adding a transaction**, taken apart: the pool is left alone – as it is
whenever an error comes back – or the transaction was not in it, has passed
everything and is entered as planned. -/
theorem addTransaction_cases (pool : Mempool R) (policy : RelayPolicy) (params : ConsensusParams)
    (get : OutPoint → Except StorageError (Option UtxoEntry)) (overflow : Overflow)
    (flags : ScriptFlags) (ctx : MempoolChainContext) (env : AcceptEnv R) (tx : Tx)
    (cache : Option SigCache) :
    (pool.addTransaction policy params get overflow flags ctx env tx cache).2.1 = pool
      ∨ ∃ adm plan u cache', pool.get tx.computeTxid = none
          ∧ pool.planAdmission policy params get overflow ctx env tx = .ok adm
          ∧ verifyInputs flags env.sigOrder
              (env.checkOrder.order (scriptChecks ctx tx adm.prevouts adm.inputHeights)) cache
              = (.ok u, cache')
          ∧ pool.planRoom env.entryOrder adm tx.input.length pool.entries.length
              (pool.startRoom adm) = .ok plan
          ∧ pool.addTransaction policy params get overflow flags ctx env tx cache
              = (.ok adm.txid,
                  (pool.evictPlanned adm plan env.now).insertEntry (entryOf adm tx env.now),
                  cache') := by
  unfold addTransaction
  by_cases hin : pool.contains tx.computeTxid = true
  · rw [if_pos hin]
    exact Or.inl rfl
  · rw [if_neg hin]
    have hnone : pool.get tx.computeTxid = none := by
      exact Option.not_isSome_iff_eq_none.mp hin
    cases hadm : pool.planAdmission policy params get overflow ctx env tx with
    | error e => exact Or.inl rfl
    | ok adm =>
      simp only
      cases hv : verifyInputs flags env.sigOrder
          (env.checkOrder.order (scriptChecks ctx tx adm.prevouts adm.inputHeights)) cache with
      | mk verdict cache' =>
        cases verdict with
        | error e => exact Or.inl rfl
        | ok u =>
          cases hplan : pool.planRoom env.entryOrder adm tx.input.length pool.entries.length
              (pool.startRoom adm) with
          | error e => exact Or.inl rfl
          | ok plan => exact Or.inr ⟨adm, plan, u, cache', hnone, rfl, hv, hplan, rfl⟩

end Whole

end Mempool
