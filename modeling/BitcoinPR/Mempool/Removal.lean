import BitcoinPR.Mempool.Accept

/-!
# What leaves the pool, and what stays

The index of spent outpoints says which transaction of the pool spends what,
and nothing else: `Mempool.Indexed`. Every operation that removes keeps it so.
-/

open List

variable {R : Type}

namespace Mempool

/-- **The index is exact**: transactions are under their ids, and an outpoint is
noted as spent by a transaction exactly when that is in the pool and spends
it. -/
structure Indexed [Hashing] (pool : Mempool R) : Prop where
  keyed : ∀ {id e}, pool.get id = some e → e.txid = id
  hashed : ∀ {id e}, pool.get id = some e → e.tx.computeTxid = id
  spent : ∀ {o id}, pool.spender o = some id ↔
    ∃ e, pool.get id = some e ∧ o ∈ e.tx.input.map TxIn.previousOutput

variable {pool : Mempool R}

namespace Indexed

/-- An outpoint has one spender. -/
theorem unique [Hashing] (h : pool.Indexed) {o : OutPoint} {id id' : Hash} {e e' : MempoolEntry R}
    (he : pool.get id = some e) (ho : o ∈ e.tx.input.map TxIn.previousOutput)
    (he' : pool.get id' = some e') (ho' : o ∈ e'.tx.input.map TxIn.previousOutput) : id = id' := by
  have h₁ := h.spent.mpr ⟨e, he, ho⟩
  have h₂ := h.spent.mpr ⟨e', he', ho'⟩
  exact Option.mem_unique h₁ h₂

end Indexed

/-! ## Removing one entry -/

theorem removeEntry_eq (pool : Mempool R) (txid : Hash) :
    pool.removeEntry txid = (pool.get txid, pool.removeTransaction txid) := by
  unfold removeTransaction removeEntry
  cases pool.get txid <;> rfl

theorem get_removeTransaction (pool : Mempool R) (txid id : Hash) :
    (pool.removeTransaction txid).get id = if id = txid then none else pool.get id := by
  unfold removeTransaction removeEntry
  cases hget : pool.get txid with
  | none =>
    by_cases h : id = txid
    · subst h
      rw [if_pos rfl]
      exact hget
    · rw [if_neg h]
  | some e =>
    show (pool.txs.erase txid).lookup id = _
    by_cases h : id = txid
    · subst h
      rw [if_pos rfl, AList.lookup_erase]
    · rw [if_neg h, AList.lookup_erase_ne h]
      rfl

theorem removeTransaction_of_get_eq_none {txid : Hash}
    (h : pool.get txid = none) : pool.removeTransaction txid = pool := by
  unfold removeTransaction removeEntry
  rw [h]

theorem spender_removeTransaction {txid : Hash} {e : MempoolEntry R}
    (he : pool.get txid = some e) (o : OutPoint) :
    (pool.removeTransaction txid).spender o
      = if o ∈ e.tx.input.map TxIn.previousOutput then none else pool.spender o := by
  unfold removeTransaction removeEntry
  rw [he]
  exact PartialMap.lookup_foldl_erase TxIn.previousOutput pool.spentOutpoints e.tx.input o

theorem Indexed.removeTransaction [Hashing] (h : pool.Indexed) (txid : Hash) :
    (pool.removeTransaction txid).Indexed := by
  have hget : ∀ {id e}, (pool.removeTransaction txid).get id = some e →
      id ≠ txid ∧ pool.get id = some e := by
    intro id e he
    rw [get_removeTransaction] at he
    split at he
    · cases he
    · exact ⟨by assumption, he⟩
  refine ⟨fun he => h.keyed (hget he).2, fun he => h.hashed (hget he).2, ?_⟩
  intro o id
  cases hp : pool.get txid with
  | none =>
    rw [removeTransaction_of_get_eq_none hp]
    exact h.spent
  | some p =>
    rw [spender_removeTransaction hp]
    constructor
    · intro ho
      split at ho
      · cases ho
      · rename_i hnot
        obtain ⟨e, he, hin⟩ := h.spent.mp ho
        refine ⟨e, ?_, hin⟩
        rw [get_removeTransaction, if_neg, he]
        rintro rfl
        exact hnot (Option.mem_unique hp he ▸ hin)
    · rintro ⟨e, he, hin⟩
      obtain ⟨hne, he⟩ := hget he
      rw [if_neg fun hin' => hne (h.unique he hin hp hin')]
      exact h.spent.mpr ⟨e, he, hin⟩

/-! ## Removing a list -/

theorem get_removeAll (pool : Mempool R) (txids : List Hash) (id : Hash) :
    (pool.removeAll txids).get id = if id ∈ txids then none else pool.get id := by
  unfold removeAll
  induction txids generalizing pool with
  | nil => rfl
  | cons txid txids ih =>
    rw [foldl_cons, ih, get_removeTransaction]
    by_cases hmem : id ∈ txids
    · rw [if_pos hmem, if_pos (mem_cons_of_mem _ hmem)]
    · by_cases hid : id = txid
      · rw [if_neg hmem, if_pos hid, if_pos (hid ▸ mem_cons_self)]
      · rw [if_neg hmem, if_neg hid, if_neg (by simp [hid, hmem])]

/-- What the entries of the pool sum up to goes down by what an entry that
leaves has. -/
theorem sum_entries_removeTransaction {txid : Hash} {e : MempoolEntry R}
    (he : pool.get txid = some e) (f : MempoolEntry R → Nat) :
    ((pool.removeTransaction txid).entries.map f).sum + f e = (pool.entries.map f).sum := by
  have hmem : (⟨txid, e⟩ : Sigma fun _ : Hash => MempoolEntry R) ∈ pool.txs.entries :=
    AList.mem_lookup_iff.mp he
  obtain ⟨b, l₁, l₂, -, hl, hk⟩ := exists_of_kerase (mem_keys_of_mem hmem)
  obtain rfl : b = e := by
    have hb : (⟨txid, b⟩ : Sigma fun _ : Hash => MempoolEntry R) ∈ pool.txs.entries := by
      rw [hl]
      exact mem_append_right _ mem_cons_self
    exact Option.some.inj ((AList.mem_lookup_iff.mpr hb).symm.trans he)
  have hremoved : (pool.removeTransaction txid).txs.entries = l₁ ++ l₂ := by
    unfold removeTransaction removeEntry
    rw [he]
    exact hk
  unfold entries
  rw [hremoved, hl]
  simp only [map_append, map_cons, sum_append, sum_cons]
  omega

/-! ## Families -/

/-- A sum over the ids of the pool, bounded entry by entry. -/
theorem sum_keys_le {f : Hash → Nat} {g : MempoolEntry R → Nat}
    (h : ∀ id e, pool.get id = some e → f id ≤ g e) (seen : List Hash) :
    ∑ id ∈ pool.txs.keys.toFinset \ seen.toFinset, f id ≤ (pool.entries.map g).sum := by
  refine (Finset.sum_le_sum_of_subset Finset.sdiff_subset).trans ?_
  rw [sum_toFinset f pool.txs.keys_nodup]
  unfold AList.keys keys entries
  rw [map_map, map_map]
  exact sum_le_sum fun s hs => h s.1 s.2 (AList.mem_lookup_iff.mpr hs)

/-- **All descendants are found**: what is added to those seen before has its
children among what is seen. -/
theorem closed_withDescendants (pool : Mempool R) (stack seen : List Hash) :
    (∀ a ∈ stack, a ∈ pool.withDescendants stack seen)
      ∧ ∀ a ∈ pool.withDescendants stack seen, a ∉ seen → ∀ b ∈ pool.children a,
          b ∈ pool.withDescendants stack seen := by
  refine @Worklist.closed_close _ _ _ _ _ pool.txs.keys.toFinset (fun a ha => ?_) _ ?_
  · have hnone : pool.get a = none := AList.lookup_eq_none.mpr fun hmem =>
      ha (mem_toFinset.mpr (AList.mem_keys.mp hmem))
    rw [children, hnone]
    rfl
  · refine Nat.add_le_add_left (sum_keys_le (fun id e he => ?_) seen) _
    rw [children, he]
    exact (length_filterMap_le _ _).trans (Nat.le_of_eq length_range)

end Mempool
