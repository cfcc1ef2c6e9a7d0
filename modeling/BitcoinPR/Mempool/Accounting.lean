import BitcoinPR.Mempool.Admission

/-!
# The books of the pool

The pool keeps two counts besides its transactions: the outpoints they spend,
with the spender of each, and their bytes. The memory it reports is computed
from the sizes of both maps and the bytes; the memory an entry is said to free
is computed from the entry alone. `Sound` is what makes the two agree
(`memoryUsage_eq`): the index is exact, no transaction spends an outpoint
twice, and the bytes are those of the entries.

Everything that leaves the pool leaves it through `removeTransaction`, one
entry at a time, so that a property of the pool which that keeps is kept by all
the operations that remove (`remove_keeps`). What an
admission removes is planned in two overlapping walks; the plan counts nobody
twice (`Accounted`).
-/

open List AList

variable {R : Type}

namespace Mempool

/-! ## Everything that leaves -/

/-- A call that only removes. -/
inductive Removal (R : Type) where
  | removeTransaction (txid : Hash)
  | removeWithDescendants (txid : Hash)
  | removeForBlock (block : Block) (txids : List Hash)
  | expireOldTransactions (ρ : IterOrder (MempoolEntry R)) (now : Nat)

def remove (pool : Mempool R) : Removal R → Mempool R
  | .removeTransaction txid => pool.removeTransaction txid
  | .removeWithDescendants txid => (pool.removeWithDescendants txid).2
  | .removeForBlock block txids => pool.removeForBlock block txids
  | .expireOldTransactions ρ now => pool.expireOldTransactions ρ now

section Leaving

variable {pool : Mempool R}

variable {P : Mempool R → Prop} (hP : ∀ pool txid, P pool → P (pool.removeTransaction txid))
include hP

section

variable (h : P pool)
include h

theorem removeAll_keeps (txids : List Hash) : P (pool.removeAll txids) := by
  induction txids generalizing pool with
  | nil => exact h
  | cons txid txids ih => exact ih (hP pool txid h)

theorem removeLoop_keeps (fuel : Nat) (stack : List Hash) (removed : Nat) :
    P (removeLoop fuel stack pool removed).2 := by
  induction fuel generalizing stack pool removed with
  | zero => exact h
  | succ fuel ih =>
    cases stack with
    | nil => exact h
    | cons current stack =>
      rw [removeLoop, removeEntry_eq]
      cases pool.get current with
      | none => exact ih (hP pool current h) stack removed
      | some entry => exact ih (hP pool current h) _ (removed + 1)

theorem removeWithDescendants_keeps (txid : Hash) : P (pool.removeWithDescendants txid).2 :=
  removeLoop_keeps hP h _ _ _

theorem removeConflicts_keeps (txid : Hash) (inputs : List TxIn) :
    P (removeConflicts txid pool inputs) := by
  induction inputs generalizing pool with
  | nil => exact h
  | cons input inputs ih =>
    rw [removeConflicts]
    cases pool.spender input.previousOutput with
    | none => exact ih h
    | some conflicting =>
      simp only
      split
      · exact ih (removeWithDescendants_keeps hP h conflicting)
      · exact ih h

theorem removeConfirmed_keeps (txs : List (Tx × Hash)) : P (pool.removeConfirmed txs) := by
  induction txs generalizing pool with
  | nil => exact h
  | cons p txs ih =>
    exact ih (removeConflicts_keeps hP (hP pool p.2 h) p.2 p.1.input)

theorem removeForBlock_keeps (block : Block) (txids : List Hash) :
    P (pool.removeForBlock block txids) := by
  unfold removeForBlock
  split
  · exact h
  · exact removeConfirmed_keeps hP h _

theorem expireOldTransactions_keeps (ρ : IterOrder (MempoolEntry R)) (now : Nat) :
    P (pool.expireOldTransactions ρ now) := by
  unfold expireOldTransactions
  generalize (ρ.order pool.entries).filter _ = old
  induction old generalizing pool with
  | nil => exact h
  | cons e old ih => exact ih (removeWithDescendants_keeps hP h e.txid)

/-- **What removing one entry keeps, every removal keeps.** -/
theorem remove_keeps (r : Removal R) : P (pool.remove r) := by
  cases r with
  | removeTransaction txid => exact hP pool txid h
  | removeWithDescendants txid => exact removeWithDescendants_keeps hP h txid
  | removeForBlock block txids => exact removeForBlock_keeps hP h block txids
  | expireOldTransactions ρ now => exact expireOldTransactions_keeps hP h ρ now

end

end Leaving

/-! ## Sound books -/

section Sound

variable [Hashing]

/-- **The books are sound**: the index is exact, no transaction spends an
outpoint twice, and the bytes are those of the entries. -/
structure Sound (pool : Mempool R) : Prop where
  indexed : pool.Indexed
  distinct : ∀ {id e}, pool.get id = some e → (e.tx.input.map TxIn.previousOutput).Nodup
  bytes : pool.totalTxBytes = (pool.entries.map MempoolEntry.size).sum

theorem sound_new [FeeRates R] (maxMemoryBytes : Nat) :
    (new maxMemoryBytes : Mempool R).Sound := by
  have hget : ∀ id, (new maxMemoryBytes : Mempool R).get id = none :=
    fun id => lookup_empty id
  refine ⟨⟨fun he => ?_, fun he => ?_, fun {o id} => ?_⟩, fun he => ?_, rfl⟩
  · cases (hget _).symm.trans he
  · cases (hget _).symm.trans he
  · constructor
    · intro ho
      cases (lookup_empty o).symm.trans ho
    · rintro ⟨e, he, -⟩
      cases (hget id).symm.trans he
  · cases (hget _).symm.trans he

namespace Sound

variable {pool : Mempool R}

theorem removeTransaction (h : pool.Sound) (txid : Hash) :
    (pool.removeTransaction txid).Sound := by
  cases hget : pool.get txid with
  | none =>
    rw [removeTransaction_of_get_eq_none hget]
    exact h
  | some e =>
    refine ⟨h.indexed.removeTransaction txid, fun he => ?_, ?_⟩
    · rw [get_removeTransaction] at he
      split at he
      · cases he
      · exact h.distinct he
    · have hsum := sum_entries_removeTransaction hget MempoolEntry.size
      have hbytes : (pool.removeTransaction txid).totalTxBytes = pool.totalTxBytes - e.size := by
        unfold Mempool.removeTransaction removeEntry
        rw [hget]
      rw [hbytes, h.bytes]
      omega

/-- **The index counts the inputs**: it has one slot for every input of every
transaction. -/
theorem length_spentOutpoints (h : pool.Sound) :
    pool.spentOutpoints.entries.length = pool.inputCount := by
  have hinputs : (pool.txs.entries.flatMap fun s =>
      s.2.tx.input.map TxIn.previousOutput).Nodup := by
    rw [nodup_flatMap]
    refine ⟨fun s hs => h.distinct (mem_lookup_iff.mpr hs), ?_⟩
    refine (nodupKeys_iff_pairwise.mp pool.txs.nodupKeys).imp_of_mem ?_
    intro s t hs ht hne o ho ho'
    exact hne (h.indexed.unique (mem_lookup_iff.mpr hs) ho (mem_lookup_iff.mpr ht) ho')
  have hmem : ∀ o, o ∈ pool.spentOutpoints.keys ↔
      o ∈ pool.txs.entries.flatMap fun s => s.2.tx.input.map TxIn.previousOutput := by
    intro o
    rw [← AList.mem_keys, ← lookup_isSome, Option.isSome_iff_exists, mem_flatMap]
    constructor
    · rintro ⟨id, hid⟩
      obtain ⟨e, he, ho⟩ := h.indexed.spent.mp hid
      exact ⟨⟨id, e⟩, mem_lookup_iff.mp he, ho⟩
    · rintro ⟨s, hs, ho⟩
      exact ⟨s.1, h.indexed.spent.mpr ⟨s.2, mem_lookup_iff.mpr hs, ho⟩⟩
  have hperm := (perm_ext_iff_of_nodup pool.spentOutpoints.keys_nodup hinputs).mpr hmem
  have hlen := hperm.length_eq
  rw [length_flatMap] at hlen
  unfold AList.keys List.keys at hlen
  rw [length_map] at hlen
  rw [hlen]
  unfold inputCount entries
  rw [map_map]
  refine congrArg List.sum (map_congr_left fun s _ => ?_)
  exact length_map _

/-- **The memory of the pool is that of its entries.** -/
theorem memoryUsage_eq (h : pool.Sound) :
    pool.memoryUsage
      = (pool.entries.map fun e => entryCost e.tx.input.length e.size).sum := by
  have hsum : ∀ es : List (MempoolEntry R), (es.map fun e => entryCost e.tx.input.length e.size).sum
        = es.length * (sizeOfTxid + sizeOfMempoolEntry + hashmapEntryOverhead)
          + (es.map fun e => e.tx.input.length).sum * (sizeOfSpentSlot + hashmapEntryOverhead)
          + (es.map MempoolEntry.size).sum := by
    intro es
    induction es with
    | nil => rfl
    | cons e es ih =>
      rw [map_cons, sum_cons, ih]
      simp only [map_cons, sum_cons, length_cons, entryCost]
      ring
  unfold memoryUsage
  rw [hsum, h.length_spentOutpoints, h.bytes]
  unfold entries inputCount
  rw [length_map]
  rfl

theorem memoryUsage_removeTransaction (h : pool.Sound) (txid : Hash) :
    (pool.removeTransaction txid).memoryUsage + pool.costOf txid = pool.memoryUsage := by
  rw [(h.removeTransaction txid).memoryUsage_eq, h.memoryUsage_eq]
  unfold costOf
  cases hget : pool.get txid with
  | none =>
    rw [removeTransaction_of_get_eq_none hget]
    rfl
  | some e => exact sum_entries_removeTransaction hget _

/-- Entries that leave free what they cost, if none of them is counted
twice. -/
theorem memoryUsage_removeAll (h : pool.Sound) {txids : List Hash} (hnodup : txids.Nodup) :
    (pool.removeAll txids).memoryUsage + (txids.map pool.costOf).sum = pool.memoryUsage := by
  unfold removeAll
  induction txids generalizing pool with
  | nil => rfl
  | cons txid txids ih =>
    obtain ⟨hnot, hnodup⟩ := nodup_cons.mp hnodup
    have hone := h.memoryUsage_removeTransaction txid
    have hrest := ih (h.removeTransaction txid) hnodup
    have hcosts : txids.map (pool.removeTransaction txid).costOf = txids.map pool.costOf := by
      refine map_congr_left fun id hid => ?_
      unfold costOf
      rw [get_removeTransaction, if_neg]
      rintro rfl
      exact hnot hid
    rw [foldl_cons, map_cons, sum_cons]
    rw [hcosts] at hrest
    omega

end Sound

/-! ## What comes in -/

omit [Hashing] in
theorem spender_insertEntry (pool : Mempool R) (entry : MempoolEntry R) (o : OutPoint) :
    (pool.insertEntry entry).spender o
      = if o ∈ entry.tx.input.map TxIn.previousOutput then some entry.txid else pool.spender o :=
  (congrFun (PartialMap.lookup_foldl_insert TxIn.previousOutput (fun _ => entry.txid)
    pool.spentOutpoints entry.tx.input) o).trans
    (PartialMap.putAll_map_const TxIn.previousOutput entry.txid _ entry.tx.input o)

omit [Hashing] in
theorem get_insertEntry (pool : Mempool R) (entry : MempoolEntry R) (id : Hash) :
    (pool.insertEntry entry).get id = if id = entry.txid then some entry else pool.get id := by
  show (pool.txs.insert entry.txid entry).lookup id = _
  by_cases h : id = entry.txid
  · rw [if_pos h, h, lookup_insert]
  · rw [if_neg h, lookup_insert_ne h]
    rfl

omit [Hashing] in
theorem entries_insertEntry {pool : Mempool R} {entry : MempoolEntry R}
    (h : pool.get entry.txid = none) :
    (pool.insertEntry entry).entries = entry :: pool.entries := by
  show (pool.txs.insert entry.txid entry).entries.map Sigma.snd = _
  rw [entries_insert_of_notMem (lookup_eq_none.mp h)]
  rfl

/-- A transaction that spends nothing twice, and nothing others spend, can be
entered. -/
theorem Sound.insertEntry {pool : Mempool R} (h : pool.Sound) {entry : MempoolEntry R}
    (hnew : pool.get entry.txid = none) (hid : entry.tx.computeTxid = entry.txid)
    (hdistinct : (entry.tx.input.map TxIn.previousOutput).Nodup)
    (hfree : ∀ i ∈ entry.tx.input, pool.spender i.previousOutput = none) :
    (pool.insertEntry entry).Sound := by
  have hget : ∀ {id e}, (pool.insertEntry entry).get id = some e →
      id = entry.txid ∧ e = entry ∨ id ≠ entry.txid ∧ pool.get id = some e := by
    intro id e he
    rw [get_insertEntry] at he
    split at he
    · exact Or.inl ⟨by assumption, (Option.some.inj he).symm⟩
    · exact Or.inr ⟨by assumption, he⟩
  refine ⟨⟨fun he => ?_, fun he => ?_, fun {o id} => ?_⟩, fun he => ?_, ?_⟩
  · rcases hget he with ⟨rfl, rfl⟩ | ⟨-, he⟩
    · rfl
    · exact h.indexed.keyed he
  · rcases hget he with ⟨rfl, rfl⟩ | ⟨-, he⟩
    · exact hid
    · exact h.indexed.hashed he
  · rw [spender_insertEntry]
    constructor
    · intro ho
      split at ho
      · obtain rfl := Option.some.inj ho
        refine ⟨entry, ?_, by assumption⟩
        rw [get_insertEntry, if_pos rfl]
      · obtain ⟨e, he, hin⟩ := h.indexed.spent.mp ho
        refine ⟨e, ?_, hin⟩
        rw [get_insertEntry, if_neg, he]
        rintro rfl
        cases hnew.symm.trans he
    · rintro ⟨e, he, hin⟩
      rcases hget he with ⟨rfl, rfl⟩ | ⟨-, he⟩
      · rw [if_pos hin]
      · have ho := h.indexed.spent.mpr ⟨e, he, hin⟩
        rw [if_neg, ho]
        intro hin'
        obtain ⟨i, hi, rfl⟩ := mem_map.mp hin'
        cases (hfree i hi).symm.trans ho
  · rcases hget he with ⟨rfl, rfl⟩ | ⟨-, he⟩
    · exact hdistinct
    · exact h.distinct he
  · rw [entries_insertEntry hnew, map_cons, sum_cons, ← h.bytes]
    exact Nat.add_comm _ _

end Sound

/-! ## What is planned -/

/-- **The plan is accounted for**: what leaves is what is replaced and what is
given up, nobody is counted twice, and what is freed is what they cost. -/
structure Accounted (pool : Mempool R) (adm : Admission R) (plan : RoomPlan R) : Prop where
  victims : plan.victims = adm.evict ++ plan.trimmed
  nodup : plan.victims.Nodup
  freed : plan.freed = (plan.victims.map pool.costOf).sum

section Plan

variable {adm : Admission R} [FeeRates R]

theorem Accounted.giveUp {pool : Mempool R} {plan : RoomPlan R}
    (h : Accounted pool adm plan) (victim : MempoolEntry R) :
    Accounted pool adm (pool.giveUp plan victim) := by
  have hsplit : pool.withDescendants [victim.txid] plan.victims
      = plan.victims ++ (pool.withDescendants [victim.txid] plan.victims).drop
          plan.victims.length :=
    prefix_iff_eq_append.mp (Worklist.isPrefix_close _ _ _) |>.symm
  refine ⟨?_, Worklist.nodup_close h.nodup, ?_⟩
  · show pool.withDescendants [victim.txid] plan.victims = adm.evict ++ (plan.trimmed ++ _)
    rw [← append_assoc, ← h.victims]
    exact hsplit
  · show plan.freed + _ = ((pool.withDescendants [victim.txid] plan.victims).map pool.costOf).sum
    rw [hsplit, map_append, sum_append, ← h.freed, ← hsplit]

section

variable {pool : Mempool R} {ρ : IterOrder (MempoolEntry R)} {inputs fuel : Nat}
  {plan plan' : RoomPlan R}

/-- **One round of planning**: the transaction fits, or the plan goes on with an
entry given up that is neither planned to leave nor an ancestor. -/
theorem planRoom_cases (h : pool.planRoom ρ adm inputs fuel plan = .ok plan') :
    (pool.memoryUsage + entryCost inputs adm.size ≤ pool.maxMemoryBytes + plan.freed
        ∧ plan' = plan)
      ∨ ∃ rest victim, fuel = rest + 1 ∧ victim.txid ∉ adm.ancestors
          ∧ pool.planRoom ρ adm inputs rest (pool.giveUp plan victim) = .ok plan' := by
  unfold planRoom at h
  split at h
  · exact Or.inl ⟨by assumption, (Except.ok.inj h).symm⟩
  · split at h
    · cases h
    · rename_i victim _
      split at h
      · cases h
      · split at h
        · cases h
        · cases fuel with
          | zero => cases h
          | succ rest => exact Or.inr ⟨rest, victim, rfl, by assumption, h⟩

/-- A plan that is made is accounted for and makes room. -/
theorem accounted_planRoom (h : Accounted pool adm plan)
    (hplan : pool.planRoom ρ adm inputs fuel plan = .ok plan') :
    Accounted pool adm plan' ∧
      pool.memoryUsage + entryCost inputs adm.size ≤ pool.maxMemoryBytes + plan'.freed := by
  induction fuel generalizing plan with
  | zero =>
    rcases planRoom_cases hplan with ⟨hroom, rfl⟩ | ⟨rest, _, hfuel, -⟩
    · exact ⟨h, hroom⟩
    · cases hfuel
  | succ fuel ih =>
    rcases planRoom_cases hplan with ⟨hroom, rfl⟩ | ⟨rest, victim, hfuel, -, hplan⟩
    · exact ⟨h, hroom⟩
    · obtain rfl := Nat.succ.inj hfuel
      exact ih (h.giveUp victim) hplan

end

variable [Hashing] [RelayFilters]

/-- The plan of an admission is accounted for and makes room. -/
theorem accounted_of_planned {pool : Mempool R} {policy : RelayPolicy} {params : ConsensusParams}
    {get : OutPoint → Except StorageError (Option UtxoEntry)} {overflow : Overflow}
    {ctx : MempoolChainContext} {env : AcceptEnv R} {tx : Tx}
    {plan : RoomPlan R}
    (hadm : pool.planAdmission policy params get overflow ctx env tx = .ok adm)
    (hplan : pool.planRoom env.entryOrder adm tx.input.length pool.entries.length
      (pool.startRoom adm) = .ok plan) :
    Accounted pool adm plan ∧
      pool.memoryUsage + entryCost tx.input.length adm.size
        ≤ pool.maxMemoryBytes + plan.freed := by
  refine accounted_planRoom ⟨(append_nil _).symm, ?_, rfl⟩ hplan
  obtain ⟨gathered, times, outputSum, hpass⟩ := exists_passes hadm
  rw [hpass.adm_eq]
  exact Worklist.nodup_close nodup_nil

end Plan

/-- What the plan removes is removed, and the floor is raised if room had to be
made. -/
theorem evictPlanned_eq (pool : Mempool R) {adm : Admission R} {plan : RoomPlan R}
    (h : plan.victims = adm.evict ++ plan.trimmed) (now : Nat) :
    ∃ floor time, pool.evictPlanned adm plan now
      = { pool.removeAll plan.victims with
          evictionFeeFloor := floor
          evictionFloorTime := time } := by
  have hall : pool.removeAll plan.victims = (pool.removeAll adm.evict).removeAll plan.trimmed := by
    unfold removeAll
    rw [h, foldl_append]
  unfold evictPlanned
  rw [hall]
  by_cases htrim : plan.trimmed = []
  · rw [htrim]
    exact ⟨_, _, rfl⟩
  · rw [if_neg (by rwa [List.isEmpty_iff])]
    exact ⟨_, _, rfl⟩

/-! ## Admission and whole runs -/

section Runs

variable [Hashing] {maxMemoryBytes : Nat}

/-- The books are sound and the pool is within its memory. -/
structure WithinBudget (maxMemoryBytes : Nat) (pool : Mempool R) : Prop where
  sound : pool.Sound
  limit : pool.maxMemoryBytes = maxMemoryBytes
  memory : pool.memoryUsage ≤ maxMemoryBytes

variable {pool : Mempool R} (h : pool.WithinBudget maxMemoryBytes)
include h

theorem WithinBudget.removeTransaction (txid : Hash) :
    (pool.removeTransaction txid).WithinBudget maxMemoryBytes := by
  refine ⟨h.sound.removeTransaction txid, ?_, ?_⟩
  · rw [← h.limit]
    unfold Mempool.removeTransaction removeEntry
    cases pool.get txid <;> rfl
  · have hfreed := h.sound.memoryUsage_removeTransaction txid
    have hmemory := h.memory
    omega

variable [FeeRates R] [RelayFilters]

/-- **What is planned can be done**: without the transactions that leave, nobody
spends what the new one spends, and it fits. -/
theorem WithinBudget.admit {policy : RelayPolicy} {params : ConsensusParams}
    {get : OutPoint → Except StorageError (Option UtxoEntry)} {overflow : Overflow}
    {ctx : MempoolChainContext} {env : AcceptEnv R} {tx : Tx} {adm : Admission R}
    {plan : RoomPlan R} (hnew : pool.get tx.computeTxid = none)
    (hadm : pool.planAdmission policy params get overflow ctx env tx = .ok adm)
    (hplan : pool.planRoom env.entryOrder adm tx.input.length pool.entries.length
      (pool.startRoom adm) = .ok plan) :
    ((pool.evictPlanned adm plan env.now).insertEntry
      (entryOf adm tx env.now)).WithinBudget maxMemoryBytes := by
  obtain ⟨gathered, times, outputSum, hpass⟩ := exists_passes hadm
  obtain ⟨outs, hgathers⟩ := gathers_gatherInputs hpass.gathered_eq
  have hevict : adm.evict = pool.withDescendants gathered.conflicts.reverse [] := by
    rw [hpass.adm_eq]
  have htxid : adm.txid = tx.computeTxid := by rw [hpass.adm_eq]
  obtain ⟨hacc, hroom⟩ := accounted_of_planned hadm hplan
  obtain ⟨floor, time, hpool⟩ := pool.evictPlanned_eq hacc.victims env.now
  have hdistinct : (tx.input.map TxIn.previousOutput).Nodup := by
    have halone := hpass.alone
    unfold checkAlone checkTransaction at halone
    simp only [Except.bind_eq_ok, exists_unit, rejectIf_eq_ok, not_not] at halone
    exact halone.2.1.2.2.2.2
  -- raising the floor touches none of the books
  generalize hrest : pool.evictPlanned adm plan env.now = rest at hpool ⊢
  have hget : ∀ id, rest.get id = if id ∈ plan.victims then none else pool.get id := by
    intro id
    rw [hpool]
    exact pool.get_removeAll plan.victims id
  have hsound : rest.Sound := by
    have hall : (pool.removeAll plan.victims).Sound :=
      removeAll_keeps (P := Sound) (fun _ txid hs => hs.removeTransaction txid) h.sound _
    rw [hpool]
    exact ⟨⟨hall.indexed.keyed, hall.indexed.hashed, hall.indexed.spent⟩, hall.distinct, hall.bytes⟩
  have hmemory : rest.memoryUsage + plan.freed = pool.memoryUsage := by
    rw [hpool, hacc.freed]
    exact h.sound.memoryUsage_removeAll hacc.nodup
  have hlimit : rest.maxMemoryBytes = maxMemoryBytes := by
    have hall : (pool.removeAll plan.victims).WithinBudget maxMemoryBytes :=
      removeAll_keeps (P := WithinBudget maxMemoryBytes)
        (fun _ txid hw => hw.removeTransaction txid) h _
    rw [hpool]
    exact hall.limit
  have hnone : rest.get (entryOf adm tx env.now).txid = none := by
    show rest.get adm.txid = none
    rw [hget, htxid, hnew, ite_self]
  have hfree : ∀ i ∈ tx.input, rest.spender i.previousOutput = none := by
    intro i hi
    refine Option.eq_none_iff_forall_ne_some.mpr fun id hid => ?_
    obtain ⟨e, he, hin⟩ := hsound.indexed.spent.mp hid
    rw [hget] at he
    split at he
    · cases he
    · -- whoever spends the outpoint was noted, so it is replaced
      rename_i hstays
      have hconf := hgathers.conflicts i hi id (h.sound.indexed.spent.mpr ⟨e, he, hin⟩)
      refine hstays ?_
      rw [hacc.victims, hevict]
      refine mem_append_left _ ?_
      exact (pool.closed_withDescendants _ []).1 id (mem_reverse.mpr hconf)
  have hafter := hsound.insertEntry hnone htxid.symm hdistinct hfree
  refine ⟨hafter, hlimit, ?_⟩
  rw [hafter.memoryUsage_eq, entries_insertEntry hnone, map_cons, sum_cons, ← hsound.memoryUsage_eq]
  show entryCost tx.input.length adm.size + rest.memoryUsage ≤ maxMemoryBytes
  rw [h.limit] at hroom
  omega

variable [ScriptEngine]

/-- A call that changes the pool. Every call that adds a transaction comes with
its own coins. -/
inductive Call (R : Type) where
  | addTransaction (policy : RelayPolicy) (params : ConsensusParams)
      (get : OutPoint → Except StorageError (Option UtxoEntry)) (overflow : Overflow)
      (flags : ScriptFlags) (ctx : MempoolChainContext) (env : AcceptEnv R) (tx : Tx)
      (cache : Option SigCache)
  | remove (r : Removal R)

/-- What a call leaves. -/
def call (pool : Mempool R) : Call R → Mempool R
  | .addTransaction policy params get overflow flags ctx env tx cache =>
    (pool.addTransaction policy params get overflow flags ctx env tx cache).2.1
  | .remove r => pool.remove r

/-- What a sequence of calls leaves. -/
def run (pool : Mempool R) (calls : List (Call R)) : Mempool R := calls.foldl call pool

/-- One call. -/
theorem WithinBudget.call (c : Call R) :
    (pool.call c).WithinBudget maxMemoryBytes := by
  cases c with
  | addTransaction policy params get overflow flags ctx env tx cache =>
    show (pool.addTransaction policy params get overflow flags ctx env tx cache).2.1.WithinBudget _
    rcases pool.addTransaction_cases policy params get overflow flags ctx env tx cache with
      hsame | ⟨adm, plan, u, cache', hnew, hadm, -, hplan, heq⟩
    · rw [hsame]
      exact h
    · rw [heq]
      exact h.admit hnew hadm hplan
  | remove r => exact remove_keeps (fun _ txid hw => hw.removeTransaction txid) h r

omit h

theorem withinBudget_run (maxMemoryBytes : Nat) (calls : List (Call R)) :
    ((new maxMemoryBytes : Mempool R).run calls).WithinBudget maxMemoryBytes := by
  have hrun : ∀ {pool : Mempool R}, pool.WithinBudget maxMemoryBytes →
      (pool.run calls).WithinBudget maxMemoryBytes := by
    intro pool h
    induction calls generalizing pool with
    | nil => exact h
    | cons c calls ih => exact ih (h.call c)
  refine hrun ⟨sound_new maxMemoryBytes, rfl, ?_⟩
  exact Nat.zero_le maxMemoryBytes

/-- **The books of the pool are right**: an outpoint is noted exactly with the
transaction of the pool that spends it, and there is one at most; the bytes are
the sum of the sizes; the memory is within its limit; and a call that fails to
add a transaction changes nothing. -/
structure Balanced (pool : Mempool R) : Prop where
  spent : ∀ o id, pool.spender o = some id ↔
    ∃ e, pool.get id = some e ∧ o ∈ e.tx.input.map TxIn.previousOutput
  unshared : ∀ o id id' e e', pool.get id = some e → pool.get id' = some e' →
    o ∈ e.tx.input.map TxIn.previousOutput → o ∈ e'.tx.input.map TxIn.previousOutput → id = id'
  bytes : pool.totalTxBytes = (pool.entries.map MempoolEntry.size).sum
  memory : pool.memoryUsage ≤ pool.maxMemoryBytes
  unchanged : ∀ policy params get overflow flags ctx env tx cache e,
    (pool.addTransaction policy params get overflow flags ctx env tx cache).1 = .error e →
      (pool.addTransaction policy params get overflow flags ctx env tx cache).2.1 = pool

/-- **After any sequence of calls the books are right.** -/
theorem balanced_run (maxMemoryBytes : Nat) (calls : List (Call R)) :
    ((new maxMemoryBytes : Mempool R).run calls).Balanced := by
  have h := @withinBudget_run R _ _ _ _ maxMemoryBytes calls
  generalize (new maxMemoryBytes : Mempool R).run calls = pool at h ⊢
  refine ⟨fun o id => h.sound.indexed.spent, fun o id id' e e' he he' ho ho' =>
    h.sound.indexed.unique he ho he' ho', h.sound.bytes, h.limit ▸ h.memory, ?_⟩
  intro policy params get overflow flags ctx env tx cache e herr
  rcases pool.addTransaction_cases policy params get overflow flags ctx env tx cache with
    hsame | ⟨adm, plan, u, cache', -, -, -, -, heq⟩
  · exact hsame
  · rw [heq] at herr
    cases herr

end Runs

end Mempool
