import BitcoinPR.Index.Scripthash
import Mathlib.Algebra.BigOperators.Ring.Finset

/-!
# What the index of addresses is for

A chain of blocks says by itself which transactions fund or spend a script and
what its unspent outputs are worth. `ActiveChain.history` and
`ActiveChain.balance` read this off the blocks, with no index.

`Replayed` says that an index is a replay of some blocks. It is kept when the
block above them is indexed (`Replayed.index`), if the chain up to this block is
valid and the transactions below it can be found. The balance is where validity
is needed: what is unspent is what was funded less what was spent, if every
input spends an output of the chain and no two the same
(`ActiveChain.balance_eq`).
-/

open List UInt32

open scoped ByteOrder

namespace ActiveChain

variable [Hashing]

/-- The transactions of a chain. -/
def txs (chain : List Block) : List Tx := chain.flatMap Block.txdata

/-- The output an outpoint names. -/
def prevout (chain : List Block) (o : OutPoint) : Option TxOut :=
  ((txs chain).find? fun tx => tx.computeTxid == o.txid).bind fun tx => tx.output[o.vout.toNat]?

/-- The outputs of a transaction. -/
def outputsOf (tx : Tx) : List (OutPoint × TxOut) :=
  tx.output.zipIdx.map fun p => (⟨tx.computeTxid, UInt32.ofNat p.2⟩, p.1)

/-- The outpoints a transaction spends. -/
def spends (tx : Tx) : List OutPoint :=
  if tx.isCoinbase then [] else tx.input.map TxIn.previousOutput

/-- All outputs of a chain. -/
def created (chain : List Block) : List (OutPoint × TxOut) := (txs chain).flatMap outputsOf

/-- All outpoints a chain spends. -/
def spent (chain : List Block) : List OutPoint := (txs chain).flatMap spends

/-- The outputs of a chain that it does not spend. -/
def unspent (chain : List Block) : List (OutPoint × TxOut) :=
  (created chain).filter fun p => !(spent chain).contains p.1

/-- What outputs are worth. -/
def worth (outputs : List (OutPoint × TxOut)) : Nat :=
  (outputs.map fun p => p.2.value.toNat).sum

variable [ScriptCrypto]

/-- An output pays to a script. -/
def paysTo (scripthash : Hash) (out : TxOut) : Bool :=
  computeScripthash out.scriptPubkey == scripthash

/-- **A transaction funds or spends a script.** -/
def touches (chain : List Block) (scripthash : Hash) (tx : Tx) : Bool :=
  tx.output.any (paysTo scripthash)
    || (spends tx).any fun o => (prevout chain o).any (paysTo scripthash)

/-- **The history of a script**, with the first block at height `start`. -/
def history (chain : List Block) (start : Nat) (scripthash : Hash) : List ScripthashTxEntry :=
  (chain.zipIdx start).flatMap fun b =>
    (b.1.txdata.zipIdx.filter fun tx => touches chain scripthash tx.1).map fun tx =>
      ⟨tx.1.computeTxid, b.2, tx.2⟩

/-- **The balance of a script**: what its unspent outputs are worth. -/
def balance (chain : List Block) (scripthash : Hash) : Nat :=
  worth ((unspent chain).filter fun p => paysTo scripthash p.2)

end ActiveChain

/-- Ids are not repeated, and outputs are numbered in 32 bits. -/
structure ActiveChain.Distinct [Hashing] (chain : List Block) : Prop where
  txids_nodup : ((ActiveChain.txs chain).map Tx.computeTxid).Nodup
  outputs_le : ∀ tx ∈ ActiveChain.txs chain, tx.output.length ≤ 2 ^ 32

/-- **A valid chain**: ids are not repeated, every input spends an output of the
chain and no two the same, and the unspent outputs are worth less than `2 ^ 63`.
Heights and positions fit in 32 bits. -/
structure ActiveChain.Valid [Hashing] (chain : List Block) : Prop
    extends ActiveChain.Distinct chain where
  length_lt : chain.length < 2 ^ 32
  txs_le : ∀ b ∈ chain, b.txdata.length ≤ 2 ^ 32
  spent_nodup : (ActiveChain.spent chain).Nodup
  spent_created : ∀ o ∈ ActiveChain.spent chain, (ActiveChain.prevout chain o).isSome
  worth_lt : ActiveChain.worth (ActiveChain.unspent chain) < 2 ^ 63

/-! ## Outputs of a chain -/

namespace ActiveChain

variable [Hashing] {chain chain' : List Block} {tx : Tx} {o : OutPoint} {out : TxOut}

omit [Hashing] in
theorem txs_append (chain chain' : List Block) : txs (chain ++ chain') = txs chain ++ txs chain' :=
  flatMap_append

theorem created_append (chain chain' : List Block) :
    created (chain ++ chain') = created chain ++ created chain' := by
  unfold created
  rw [txs_append, flatMap_append]

omit [Hashing] in
theorem spent_append (chain chain' : List Block) :
    spent (chain ++ chain') = spent chain ++ spent chain' := by
  unfold spent
  rw [txs_append, flatMap_append]

/-- An output that is found is found in every longer chain. -/
theorem prevout_append (h : prevout chain o = some out) (chain' : List Block) :
    prevout (chain ++ chain') o = some out := by
  obtain ⟨tx, htx, hout⟩ := Option.bind_eq_some_iff.mp h
  unfold prevout
  rw [txs_append, find?_append, htx]
  exact hout

/-- The outputs of a transaction are where its id says. -/
theorem Distinct.prevout_of_mem (h : Distinct chain) (htx : tx ∈ txs chain)
    (vout : UInt32) : prevout chain ⟨tx.computeTxid, vout⟩ = tx.output[vout.toNat]? := by
  have hfind : (txs chain).find? (fun t => t.computeTxid == tx.computeTxid) = some tx := by
    have hsome : ((txs chain).find? fun t => t.computeTxid == tx.computeTxid).isSome :=
      find?_isSome.mpr ⟨tx, htx, beq_self_eq_true tx.computeTxid⟩
    obtain ⟨t, ht⟩ := Option.isSome_iff_exists.mp hsome
    have heq : t.computeTxid = tx.computeTxid := by simpa using find?_some ht
    rw [ht, inj_on_of_nodup_map h.txids_nodup (mem_of_find?_eq_some ht) htx heq]
  unfold prevout
  rw [hfind]
  rfl

/-- The lower part of a chain. -/
theorem Distinct.of_append (h : Distinct (chain ++ chain')) : Distinct chain := by
  obtain ⟨hnodup, hlen⟩ := h
  rw [txs_append] at hlen
  rw [txs_append, map_append] at hnodup
  exact ⟨List.Nodup.of_append_left hnodup, fun tx htx => hlen tx (mem_append_left _ htx)⟩

theorem mem_outputsOf (hlen : tx.output.length ≤ 2 ^ 32) {p : OutPoint × TxOut} :
    p ∈ outputsOf tx ↔ p.1.txid = tx.computeTxid ∧ tx.output[p.1.vout.toNat]? = some p.2 := by
  unfold outputsOf
  rw [mem_map]
  constructor
  · rintro ⟨⟨out, v⟩, hv, rfl⟩
    obtain ⟨hlt, hout⟩ := mem_zipIdx' hv
    refine ⟨rfl, ?_⟩
    rw [toNat_ofNat', Nat.mod_eq_of_lt (Nat.lt_of_lt_of_le hlt hlen), hout]
    exact getElem?_eq_getElem hlt
  · rintro ⟨htxid, hout⟩
    obtain ⟨⟨txid, vout⟩, out⟩ := p
    obtain rfl : txid = tx.computeTxid := htxid
    refine ⟨(out, vout.toNat), mem_zipIdx_iff_getElem?.mpr hout, ?_⟩
    rw [UInt32.ofNat_toNat]

/-- **What a chain created is what its outpoints name.** -/
theorem Distinct.mem_created (h : Distinct chain) {p : OutPoint × TxOut} :
    p ∈ created chain ↔ prevout chain p.1 = some p.2 := by
  unfold created
  rw [mem_flatMap]
  constructor
  · rintro ⟨tx, htx, hp⟩
    obtain ⟨htxid, hout⟩ := (mem_outputsOf (h.outputs_le tx htx)).mp hp
    have hprevout := h.prevout_of_mem htx p.1.vout
    rw [← htxid] at hprevout
    exact hprevout.trans hout
  · intro hp
    obtain ⟨tx, hfind, hout⟩ := Option.bind_eq_some_iff.mp hp
    have htx := mem_of_find?_eq_some hfind
    have htxid : tx.computeTxid = p.1.txid := by simpa using find?_some hfind
    exact ⟨tx, htx, (mem_outputsOf (h.outputs_le tx htx)).mpr ⟨htxid.symm, hout⟩⟩

/-- No two outputs have the same outpoint. -/
theorem Distinct.nodup_created (h : Distinct chain) :
    ((created chain).map Prod.fst).Nodup := by
  unfold created
  rw [map_flatMap, nodup_flatMap]
  constructor
  · intro tx htx
    have hpositions : (outputsOf tx).map Prod.fst
        = (range' 0 tx.output.length).map fun v => ⟨tx.computeTxid, ofNat v⟩ := by
      unfold outputsOf
      rw [← zipIdx_map_snd, map_map, map_map]
      rfl
    rw [hpositions]
    -- positions that fit in 32 bits stay apart
    refine List.Nodup.map_on (fun v hv w hw heq => ?_) nodup_range'
    rw [mem_range'_1] at hv hw
    have hlen := h.outputs_le tx htx
    have hvw : (ofNat v).toNat = (ofNat w).toNat :=
      congrArg (fun o : OutPoint => o.vout.toNat) heq
    rwa [toNat_ofNat', toNat_ofNat', Nat.mod_eq_of_lt (by omega),
      Nat.mod_eq_of_lt (by omega)] at hvw
  · refine (pairwise_map.mp h.txids_nodup).imp_of_mem fun ht ht' hne p hp hp' => ?_
    obtain ⟨q, hq, rfl⟩ := mem_map.mp hp
    obtain ⟨q', hq', heq⟩ := mem_map.mp hp'
    have htxid := ((mem_outputsOf (h.outputs_le _ ht)).mp hq).1
    have htxid' := ((mem_outputsOf (h.outputs_le _ ht')).mp hq').1
    exact hne (htxid.symm.trans (heq ▸ htxid'))

/-- **What is unspent is what was created less what was spent**, weighed in any
way, if what was spent was created and not spent twice. -/
theorem sum_unspent (hnodup : ((created chain).map Prod.fst).Nodup) (hspent : (spent chain).Nodup)
    (hcreated : ∀ o ∈ spent chain, o ∈ (created chain).map Prod.fst)
    (w : OutPoint × TxOut → Nat) (w' : OutPoint → Nat)
    (hw : ∀ p ∈ created chain, w' p.1 = w p) :
    ((unspent chain).map w).sum + ((spent chain).map w').sum = ((created chain).map w).sum := by
  have hperm : (((created chain).filter fun p => (spent chain).contains p.1).map Prod.fst).Perm
      (spent chain) := by
    refine (perm_ext_iff_of_nodup (hnodup.sublist ?_) hspent).mpr fun o => ?_
    · exact filter_sublist.map Prod.fst
    · rw [mem_map]
      constructor
      · rintro ⟨p, hp, rfl⟩
        simpa using (mem_filter.mp hp).2
      · intro ho
        obtain ⟨p, hp, rfl⟩ := mem_map.mp (hcreated o ho)
        exact ⟨p, mem_filter.mpr ⟨hp, by simpa using ho⟩, rfl⟩
  have hsplit : ((spent chain).map w').sum
      = (((created chain).filter fun p => (spent chain).contains p.1).map w).sum := by
    rw [← (hperm.map w').sum_eq, map_map]
    exact congrArg List.sum (map_congr_left fun p hp => hw p (mem_of_mem_filter hp))
  rw [hsplit, ← sum_append, ← map_append]
  refine ((List.Perm.trans perm_append_comm
    (filter_append_perm (fun p => (spent chain).contains p.1) (created chain))).map w).sum_eq

/-- The script and value of the output an outpoint names. -/
def spentOutput (chain : List Block) (o : OutPoint) : CachedOutput :=
  ((prevout chain o).map fun out => (out.scriptPubkey, out.value)).getD ([], 0)

theorem spentOutput_of_prevout (h : prevout chain o = some out) :
    spentOutput chain o = (out.scriptPubkey, out.value) := by
  unfold spentOutput
  rw [h]
  rfl

theorem spentOutput_append (h : (prevout chain o).isSome) (chain' : List Block) :
    spentOutput (chain ++ chain') o = spentOutput chain o := by
  obtain ⟨out, hout⟩ := Option.isSome_iff_exists.mp h
  rw [spentOutput_of_prevout hout, spentOutput_of_prevout (prevout_append hout chain')]

variable [ScriptCrypto]

/-- What an output is worth to a script. -/
def worthTo (scripthash : Hash) (out : CachedOutput) : Nat :=
  if computeScripthash out.1 = scripthash then out.2.toNat else 0

omit [Hashing] in
theorem worth_filter (scripthash : Hash) (outputs : List (OutPoint × TxOut)) :
    worth (outputs.filter fun p => paysTo scripthash p.2)
      = (outputs.map fun p => worthTo scripthash (p.2.scriptPubkey, p.2.value)).sum := by
  induction outputs with
  | nil => rfl
  | cons p outputs ih =>
    unfold worth at ih ⊢
    by_cases hp : computeScripthash p.2.scriptPubkey = scripthash
    · rw [filter_cons_of_pos (by simpa [paysTo] using hp), map_cons, map_cons,
        sum_cons, sum_cons, ih, worthTo, if_pos hp]
    · rw [filter_cons_of_neg (by simpa [paysTo] using hp), map_cons, sum_cons, ih,
        worthTo, if_neg hp, Nat.zero_add]

/-- **A balance is what was funded less what was spent.** -/
theorem balance_eq (h : Distinct chain) (hspent : (spent chain).Nodup)
    (hcreated : ∀ o ∈ spent chain, (prevout chain o).isSome) (scripthash : Hash) :
    balance chain scripthash
        + ((spent chain).map fun o => worthTo scripthash (spentOutput chain o)).sum
      = ((created chain).map fun p => worthTo scripthash (p.2.scriptPubkey, p.2.value)).sum := by
  unfold balance
  rw [worth_filter]
  refine sum_unspent h.nodup_created hspent (fun o ho => ?_) _ _ fun p hp => ?_
  · obtain ⟨out, hout⟩ := Option.isSome_iff_exists.mp (hcreated o ho)
    exact mem_map.mpr ⟨(o, out), h.mem_created.mpr hout, rfl⟩
  · rw [spentOutput_of_prevout (h.mem_created.mp hp)]

/-- **The balance above one more block**: less what the block spends, more what
it creates. -/
theorem balance_append {b : Block} (hv : Valid (chain ++ [b]))
    (hclosed : ∀ o ∈ spent chain, (prevout chain o).isSome) (scripthash : Hash) :
    balance (chain ++ [b]) scripthash
        + ((spent [b]).map fun o => worthTo scripthash (spentOutput (chain ++ [b]) o)).sum
      = balance chain scripthash
        + ((created [b]).map fun p => worthTo scripthash (p.2.scriptPubkey, p.2.value)).sum := by
  have hall := balance_eq hv.toDistinct hv.spent_nodup hv.spent_created scripthash
  have hspent := hv.spent_nodup
  rw [spent_append] at hspent
  have hbelow := balance_eq hv.toDistinct.of_append (List.Nodup.of_append_left hspent) hclosed
    scripthash
  have hsame : ((spent chain).map fun o => worthTo scripthash (spentOutput (chain ++ [b]) o))
      = (spent chain).map fun o => worthTo scripthash (spentOutput chain o) :=
    map_congr_left fun o ho => by rw [spentOutput_append (hclosed o ho)]
  rw [spent_append, created_append, map_append, map_append, sum_append,
    sum_append, hsame] at hall
  omega

end ActiveChain

/-! ## What a block does to the index -/

section Attribution

variable [Hashing] {b : Block} {chain : List Block}

open ActiveChain

/-- The outputs of a block, apart from positions. -/
theorem map_outputsAt (b : Block) :
    (b.outputsAt.map fun o => (o.outpoint, o.out)) = created [b] := by
  have htx : ∀ (tx : Tx) (pos : Nat),
      ((tx.outputsAt pos).map fun o => (o.outpoint, o.out)) = outputsOf tx := fun tx pos => by
    unfold Tx.outputsAt outputsOf
    rw [map_map]
    rfl
  unfold Block.outputsAt created txs
  rw [map_flatMap, flatMap_singleton]
  simp only [htx]
  conv_rhs => rw [← zipIdx_map_fst 0 b.txdata, flatMap_map]

theorem map_inputsAt (b : Block) : b.inputsAt.map InputAt.outpoint = spent [b] := by
  have htx : ∀ (tx : Tx) (pos : Nat), (tx.inputsAt pos).map InputAt.outpoint = spends tx :=
    fun tx pos => by
      unfold Tx.inputsAt spends
      split
      · rfl
      · rw [map_map]
        rfl
  unfold Block.inputsAt spent txs
  rw [map_flatMap, flatMap_singleton]
  simp only [htx]
  conv_rhs => rw [← zipIdx_map_fst 0 b.txdata, flatMap_map]

/-- An output of the block itself. -/
theorem prevout_of_outputMap (hv : Valid (chain ++ [b])) {o : OutPoint} {out : CachedOutput}
    (h : b.outputMap o = some out) : prevout (chain ++ [b]) o = some ⟨out.2, out.1⟩ := by
  have hmem := PartialMap.mem_of_putAll_none h
  obtain ⟨at', hat, heq⟩ := mem_map.mp hmem
  obtain ⟨rfl, rfl⟩ := Prod.mk.inj heq
  have hcreated : (at'.outpoint, at'.out) ∈ created (chain ++ [b]) := by
    rw [created_append, ← map_outputsAt]
    exact mem_append_right _
      (mem_map_of_mem (f := fun o : OutputAt => (o.outpoint, o.out)) hat)
  exact hv.toDistinct.mem_created.mp hcreated

/-- The cache holds what outpoints name. -/
def CacheSound (chain : List Block) (cache : List (OutPoint × CachedOutput)) : Prop :=
  ∀ p ∈ cache, prevout chain p.1 = some ⟨p.2.2, p.2.1⟩

/-- An input with the output it spends. -/
def attributeTo (chain : List Block) (i : InputAt) : Attributed := (i, spentOutput chain i.outpoint)

/-- **What the cache attributes is right**, and together with what is left it is
every input once. -/
theorem takeCached_perm {cache : List (OutPoint × CachedOutput)} (h : CacheSound chain cache)
    (inputs : List InputAt) :
    ((takeCached inputs cache).1 ++ (takeCached inputs cache).2.1.map (attributeTo chain)).Perm
        (inputs.map (attributeTo chain))
      ∧ CacheSound chain (takeCached inputs cache).2.2
      ∧ (takeCached inputs cache).2.1 ⊆ inputs := by
  induction inputs generalizing cache with
  | nil => exact ⟨List.Perm.nil, h, List.Subset.refl []⟩
  | cons i inputs ih =>
    have hrest : CacheSound chain (cachePop cache i.outpoint).2 := fun p hp =>
      h p (mem_of_mem_filter hp)
    obtain ⟨hperm, hsound, hsub⟩ := ih hrest
    cases hfound : (cachePop cache i.outpoint).1 with
    | some out =>
      have hout : attributeTo chain i = (i, out) := by
        obtain ⟨p, hp, rfl⟩ := Option.map_eq_some_iff.mp hfound
        have hkey : p.1 = i.outpoint := by simpa using find?_some hp
        have hprevout := h p (mem_of_find?_eq_some hp)
        rw [hkey] at hprevout
        unfold attributeTo
        rw [spentOutput_of_prevout hprevout]
      simp only [takeCached, hfound]
      refine ⟨?_, hsound, fun x hx => mem_cons_of_mem i (hsub hx)⟩
      rw [map_cons, hout]
      exact hperm.cons _
    | none =>
      simp only [takeCached, hfound]
      refine ⟨?_, hsound, cons_subset_cons i hsub⟩
      exact perm_middle.trans (hperm.cons _)

/-- Every transaction of a chain is found through the index and on disk. -/
def Findable (txIndex : TxIndex) (blocks : Hash → Option Block) (chain : List Block) : Prop :=
  ∀ tx ∈ txs chain, ∃ e b, txIndex.get tx.computeTxid = .ok (some e)
    ∧ blocks e.blockHash = some b ∧ b.txdata[e.txPos.toNat]? = some tx

/-- **An output of a chain that can be found is resolved.** -/
theorem resolveSpentOutput_eq {txIndex : TxIndex} {blocks : Hash → Option Block}
    (hfind : Findable txIndex blocks chain) {o : OutPoint} {out : TxOut}
    (h : prevout chain o = some out) :
    resolveSpentOutput txIndex blocks o = some (out.scriptPubkey, out.value) := by
  obtain ⟨tx, htx, hout⟩ := Option.bind_eq_some_iff.mp h
  have htxid : tx.computeTxid = o.txid := by simpa using find?_some htx
  obtain ⟨e, b, hget, hb, hpos⟩ := hfind tx (mem_of_find?_eq_some htx)
  rw [htxid] at hget
  unfold resolveSpentOutput
  simp only [hget, hb, hpos, hout, Option.bind_some, Option.map_some]

/-- What is spent and not in the block is below it. -/
theorem prevout_of_pending (hv : Valid (chain ++ [b])) {i : InputAt} (hi : i ∈ b.pending) :
    (prevout chain i.outpoint).isSome := by
  obtain ⟨hin, hnone⟩ := mem_filter.mp hi
  have hspent : i.outpoint ∈ spent (chain ++ [b]) := by
    rw [spent_append, ← map_inputsAt]
    exact mem_append_right _ (mem_map_of_mem hin)
  obtain ⟨out, hout⟩ := Option.isSome_iff_exists.mp (hv.spent_created _ hspent)
  have hcreated := (hv.toDistinct.mem_created (p := (i.outpoint, out))).mpr hout
  rw [created_append, ← map_outputsAt] at hcreated
  rcases mem_append.mp hcreated with hbelow | hblock
  · rw [hv.toDistinct.of_append.mem_created.mp hbelow]
    rfl
  · -- an output of the block would have been found there
    obtain ⟨o, ho, heq⟩ := mem_map.mp hblock
    have hkey : i.outpoint ∈ (b.outputsAt.map fun o =>
        (o.outpoint, (o.out.scriptPubkey, o.out.value))).map Prod.fst := by
      rw [map_map]
      exact mem_map.mpr ⟨o, ho, (Prod.mk.inj heq).1⟩
    have hsome : (b.outputMap i.outpoint).isSome :=
      (PartialMap.isSome_putAll _).mpr (Or.inl hkey)
    rw [Option.isNone_iff_eq_none.mp hnone] at hsome
    cases hsome

/-- The inputs that spend outputs of the block itself are attributed to them. -/
theorem intraBlock_eq (hv : Valid (chain ++ [b])) :
    b.intraBlock = (b.inputsAt.filter fun i => (b.outputMap i.outpoint).isSome).map
      (attributeTo (chain ++ [b])) := by
  unfold Block.intraBlock
  induction b.inputsAt with
  | nil => rfl
  | cons i inputs ih =>
    cases hout : b.outputMap i.outpoint with
    | none =>
      rw [filterMap_cons_none (by rw [hout]; rfl), filter_cons_of_neg (by simp [hout]),
        ih]
    | some out =>
      have heq : attributeTo (chain ++ [b]) i = (i, out) := by
        unfold attributeTo
        rw [spentOutput_of_prevout (prevout_of_outputMap hv hout)]
      rw [filterMap_cons_some (by rw [hout]; rfl), filter_cons_of_pos (by simp [hout]),
        map_cons, heq, ih]

namespace ScripthashIndex

variable {idx : ScripthashIndex} {resolve : OutPoint → Option CachedOutput}

/-- **Every input of a block is attributed**, once and to the output it spends. -/
theorem attributed_perm (hv : Valid (chain ++ [b])) (hresolver : idx.haveResolver = true)
    (hcache : CacheSound chain idx.resolverCache)
    (hresolve : ∀ o out, prevout chain o = some out →
      resolve o = some (out.scriptPubkey, out.value)) :
    (idx.attributed resolve b).Perm (b.inputsAt.map (attributeTo (chain ++ [b])))
      ∧ CacheSound chain (idx.crossBlock resolve b).2 := by
  have hbelow : ∀ i ∈ b.pending,
      attributeTo (chain ++ [b]) i = attributeTo chain i := fun i hi => by
    unfold attributeTo
    rw [spentOutput_append (prevout_of_pending hv hi)]
  have hcross : (idx.crossBlock resolve b).1.Perm (b.pending.map (attributeTo (chain ++ [b])))
      ∧ CacheSound chain (idx.crossBlock resolve b).2 := by
    rw [map_congr_left hbelow]
    unfold crossBlock
    by_cases hempty : b.pending.isEmpty
    · rw [isEmpty_iff.mp hempty, hresolver]
      exact ⟨List.Perm.nil, hcache⟩
    · rw [hresolver, if_pos (by simpa using hempty)]
      obtain ⟨hperm, hsound, hsub⟩ := takeCached_perm hcache b.pending
      refine ⟨?_, hsound⟩
      -- what the cache does not have is found on disk
      have hdisk : ((takeCached b.pending idx.resolverCache).2.1.filterMap fun i =>
          (resolve i.outpoint).map (i, ·))
            = (takeCached b.pending idx.resolverCache).2.1.map (attributeTo chain) := by
        rw [← filterMap_eq_map]
        refine filterMap_congr fun i hi => ?_
        obtain ⟨out, hout⟩ := Option.isSome_iff_exists.mp (prevout_of_pending hv (hsub hi))
        simp only [hresolve _ _ hout, attributeTo, spentOutput_of_prevout hout, Option.map_some,
          Function.comp_apply]
      simp only [hdisk]
      exact hperm
  refine ⟨?_, hcross.2⟩
  unfold attributed
  rw [intraBlock_eq hv]
  refine (List.Perm.append_left _ hcross.1).trans ?_
  rw [← map_append]
  refine List.Perm.map _ ?_
  unfold Block.pending
  simp only [← Option.not_isSome]
  exact filter_append_perm _ b.inputsAt

end ScripthashIndex

end Attribution

/-! ## Balances -/

section Balances

/-- **Changes are summed by script**, up to wrapping. -/
theorem balanceDeltas_getD (changes : List (Hash × Int)) (scripthash : Hash) :
    ((balanceDeltas (changes.map fun p => (p.1, Int64.ofInt p.2))) scripthash).getD 0
      = Int64.ofInt ((changes.map fun p => if p.1 = scripthash then p.2 else 0).sum) := by
  have hfold : ∀ m : Hash → Option Int64, (((changes.map fun p => (p.1, Int64.ofInt p.2)).foldl
        (fun (m : Hash → Option Int64) p => Function.update m p.1 (some ((m p.1).getD 0 + p.2)))
        m) scripthash).getD 0
        = (m scripthash).getD 0
          + Int64.ofInt ((changes.map fun p => if p.1 = scripthash then p.2 else 0).sum) := by
    induction changes with
    | nil => exact fun m => (Int64.add_zero _).symm
    | cons p changes ih =>
      intro m
      rw [map_cons, foldl_cons, ih, map_cons, sum_cons, Int64.ofInt_add]
      by_cases hp : p.1 = scripthash
      · rw [hp, Function.update_self, if_pos rfl, Option.getD_some, Int64.add_assoc]
      · rw [Function.update_of_ne (Ne.symm hp), if_neg hp]
        exact congrArg _ (Int64.zero_add _).symm
  exact (hfold fun _ => none).trans (Int64.zero_add _)

theorem toInt64_eq_ofInt (n : UInt64) : n.toInt64 = Int64.ofInt n.toNat := by
  refine Int64.toBitVec_inj.mp ?_
  simp

theorem toNat_toUInt64_ofInt {n : Nat} (hn : n < 2 ^ 63) :
    (Int64.ofInt n).toUInt64.toNat = n := by
  rw [← Int64.toNat_toBitVec, Int64.toBitVec_ofInt, BitVec.toNat_ofInt]
  omega

/-- **A balance that stays in range** is what it should be. -/
theorem toNat_change {b : ScripthashBalance} {delta : Int64} {n : Nat} (hn : n < 2 ^ 63)
    (h : b.confirmed.toInt64 + delta = Int64.ofInt n) :
    (b.change delta).confirmed.toNat = n := by
  have hmax : max (Int64.ofInt n) 0 = Int64.ofInt n := by
    show (if Int64.ofInt n ≤ 0 then 0 else Int64.ofInt n) = Int64.ofInt n
    by_cases hle : Int64.ofInt n ≤ 0
    · have hint : (Int64.ofInt n).toInt = n := by
        rw [Int64.toInt_ofInt]
        exact Int.bmod_eq_of_le (by simp [Int64.size]) (by simp [Int64.size]; omega)
      rw [Int64.le_iff_toInt_le, Int64.toInt_zero] at hle
      obtain rfl : n = 0 := by omega
      rfl
    · rw [if_neg hle]
  unfold ScripthashBalance.change
  rw [h]
  rw [hmax]
  exact toNat_toUInt64_ofInt hn

theorem readBalance_serialize (b : ScripthashBalance) : readBalance (some b.serialize) = b := by
  have hread : ∀ n : UInt64, UInt64.ofNat (ofLeBytes (leBytes 8 n.toNat)) = n := fun n => by
    rw [ofLeBytes_leBytes (Nat.lt_of_lt_of_eq n.toNat_lt (by norm_num)), UInt64.ofNat_toNat]
  have hlen : b.serialize.length = 16 := by simp [ScripthashBalance.serialize]
  simp only [readBalance]
  rw [if_pos (Nat.le_of_eq hlen.symm)]
  unfold ScripthashBalance.serialize
  rw [take_left' (length_leBytes 8 _), drop_left' (length_leBytes 8 _),
    take_of_length_le (Nat.le_of_eq (length_leBytes 8 _)), hread, hread]

variable [Hashing] [ScriptCrypto] {b : Block} {chain : List Block}
  {idx : ScripthashIndex} {resolve : OutPoint → Option CachedOutput}

open ActiveChain

/-- **What a block changes**: what it creates is added, and what it spends taken
off. -/
theorem balanceDeltas_changes
    (hperm : (idx.attributed resolve b).Perm (b.inputsAt.map (attributeTo (chain ++ [b]))))
    (scripthash : Hash) :
    (balanceDeltas (idx.changes resolve b) scripthash).getD 0
      = Int64.ofInt
          ((((created [b]).map fun p => worthTo scripthash (p.2.scriptPubkey, p.2.value)).sum : Nat)
          - (((spent [b]).map fun o => worthTo scripthash (spentOutput (chain ++ [b]) o)).sum
            : Nat)) := by
  have hchanges : idx.changes resolve b = ((b.outputsAt.map fun o =>
          (computeScripthash o.out.scriptPubkey, (o.out.value.toNat : Int)))
        ++ (idx.attributed resolve b).map fun a =>
          (computeScripthash a.2.1, -(a.2.2.toNat : Int))).map
          fun p => (p.1, Int64.ofInt p.2) := by
    unfold ScripthashIndex.changes
    rw [map_append, map_map, map_map]
    simp only [toInt64_eq_ofInt, Function.comp_def, Int64.ofInt_neg]
  rw [hchanges, balanceDeltas_getD]
  congr 1
  rw [map_append, sum_append, map_map, map_map]
  congr 1
  · rw [← map_outputsAt, map_map, Nat.cast_list_sum, map_map]
    refine congrArg List.sum (map_congr_left fun o _ => ?_)
    simp only [Function.comp_apply, worthTo]
    split <;> rfl
  · rw [(hperm.map _).sum_eq, ← map_inputsAt, map_map, map_map, Nat.cast_list_sum,
      map_map, sum_neg, map_map]
    refine congrArg List.sum (map_congr_left fun i _ => ?_)
    simp only [Function.comp_apply, worthTo, attributeTo]
    split <;> rfl

end Balances

/-! ## Entries -/

section Entries

variable [Hashing] [ScriptCrypto] {b : Block} {chain : List Block}
  {idx : ScripthashIndex} {resolve : OutPoint → Option CachedOutput} {scripthash txid : Hash}
  {pos : UInt32}

open ActiveChain

/-- The entries for outputs. -/
theorem mem_outputTouches :
    (scripthash, pos, txid) ∈ (b.outputsAt.map fun o =>
        (computeScripthash o.out.scriptPubkey, o.txIndex, o.outpoint.txid))
      ↔ ∃ n tx, b.txdata[n]? = some tx ∧ pos = UInt32.ofNat n ∧ txid = tx.computeTxid
        ∧ tx.output.any (paysTo scripthash) = true := by
  unfold Block.outputsAt Tx.outputsAt
  simp only [mem_map, mem_flatMap, any_eq_true, paysTo, beq_iff_eq]
  constructor
  · rintro ⟨o, ⟨⟨tx, n⟩, htx, ⟨out, v⟩, hv, rfl⟩, heq⟩
    obtain ⟨rfl, rfl, rfl⟩ : computeScripthash out.scriptPubkey = scripthash
        ∧ ofNat n = pos ∧ tx.computeTxid = txid := by simpa using heq
    exact ⟨n, tx, mem_zipIdx_iff_getElem?.mp htx, rfl, rfl, out,
      fst_mem_of_mem_zipIdx hv, rfl⟩
  · rintro ⟨n, tx, htx, rfl, rfl, out, hout, rfl⟩
    obtain ⟨v, hv⟩ := getElem?_of_mem hout
    exact ⟨_, ⟨(tx, n), mem_zipIdx_iff_getElem?.mpr htx, (out, v),
      mem_zipIdx_iff_getElem?.mpr hv, rfl⟩, rfl⟩

omit [ScriptCrypto] in
theorem mem_inputsAt {i : InputAt} :
    i ∈ b.inputsAt ↔ ∃ n tx, b.txdata[n]? = some tx ∧ i.txIndex = UInt32.ofNat n
      ∧ i.txid = tx.computeTxid ∧ i.outpoint ∈ spends tx := by
  unfold Block.inputsAt Tx.inputsAt spends
  rw [mem_flatMap]
  constructor
  · rintro ⟨⟨tx, n⟩, htx, hi⟩
    refine ⟨n, tx, mem_zipIdx_iff_getElem?.mp htx, ?_⟩
    split at hi
    · cases hi
    · rename_i hcoinbase
      obtain ⟨input, hinput, rfl⟩ := mem_map.mp hi
      rw [if_neg hcoinbase]
      exact ⟨rfl, rfl, mem_map_of_mem hinput⟩
  · rintro ⟨n, tx, htx, hpos, htxid, ho⟩
    refine ⟨(tx, n), mem_zipIdx_iff_getElem?.mpr htx, ?_⟩
    split at ho
    · cases ho
    · rename_i hcoinbase
      obtain ⟨input, hinput, heq⟩ := mem_map.mp ho
      rw [if_neg hcoinbase]
      refine mem_map.mpr ⟨input, hinput, ?_⟩
      rw [heq, ← hpos, ← htxid]

/-- The entries for inputs. -/
theorem mem_inputTouches (hcreated : ∀ o ∈ spent [b], (prevout chain o).isSome) :
    (scripthash, pos, txid) ∈ ((b.inputsAt.map (attributeTo chain)).map fun a =>
        (computeScripthash a.2.1, a.1.txIndex, a.1.txid))
      ↔ ∃ n tx, b.txdata[n]? = some tx ∧ pos = UInt32.ofNat n ∧ txid = tx.computeTxid
        ∧ (spends tx).any (fun o => (prevout chain o).any (paysTo scripthash)) = true := by
  have hpays : ∀ o ∈ spent [b], ((prevout chain o).any (paysTo scripthash) = true
      ↔ computeScripthash (spentOutput chain o).1 = scripthash) := fun o ho => by
    obtain ⟨out, hout⟩ := Option.isSome_iff_exists.mp (hcreated o ho)
    rw [spentOutput_of_prevout hout, hout, Option.any_some, paysTo, beq_iff_eq]
  have hspent : ∀ {i : InputAt}, i ∈ b.inputsAt → i.outpoint ∈ spent [b] := fun hi => by
    rw [← map_inputsAt]
    exact mem_map_of_mem hi
  simp only [mem_map, exists_exists_and_eq_and, attributeTo, any_eq_true]
  constructor
  · rintro ⟨i, hi, heq⟩
    obtain ⟨n, tx, htx, hpos, htxid, ho⟩ := mem_inputsAt.mp hi
    obtain ⟨hhash, rfl, rfl⟩ : computeScripthash (spentOutput chain i.outpoint).1 = scripthash
        ∧ i.txIndex = pos ∧ i.txid = txid := by simpa using heq
    exact ⟨n, tx, htx, hpos, htxid, i.outpoint, ho, (hpays _ (hspent hi)).mpr hhash⟩
  · rintro ⟨n, tx, htx, rfl, rfl, o, ho, hany⟩
    have hi : (⟨ofNat n, tx.computeTxid, o⟩ : InputAt) ∈ b.inputsAt :=
      mem_inputsAt.mpr ⟨n, tx, htx, rfl, rfl, ho⟩
    refine ⟨_, hi, ?_⟩
    rw [(hpays o (hspent hi)).mp hany]

/-- **The entries of a block** are its transactions that fund or spend a
script. -/
theorem mem_touches (hlen : b.txdata.length ≤ 2 ^ 32)
    (hcreated : ∀ o ∈ spent [b], (prevout chain o).isSome)
    (hperm : (idx.attributed resolve b).Perm (b.inputsAt.map (attributeTo chain))) :
    (scripthash, pos, txid) ∈ idx.touches resolve b
      ↔ ∃ tx, b.txdata[pos.toNat]? = some tx ∧ txid = tx.computeTxid
        ∧ touches chain scripthash tx = true := by
  have hpos : ∀ {n : Nat} {tx : Tx}, b.txdata[n]? = some tx → (ofNat n).toNat = n :=
    fun {n tx} htx => by
      have hn := (List.getElem?_eq_some_iff.mp htx).1
      rw [toNat_ofNat', Nat.mod_eq_of_lt (Nat.lt_of_lt_of_le hn hlen)]
  unfold ScripthashIndex.touches touches
  rw [mem_append, mem_outputTouches, (hperm.map _).mem_iff, mem_inputTouches hcreated]
  simp only [Bool.or_eq_true]
  constructor
  · rintro (⟨n, tx, htx, rfl, htxid, h⟩ | ⟨n, tx, htx, rfl, htxid, h⟩)
    · exact ⟨tx, (hpos htx).symm ▸ htx, htxid, Or.inl h⟩
    · exact ⟨tx, (hpos htx).symm ▸ htx, htxid, Or.inr h⟩
  · rintro ⟨tx, htx, htxid, h | h⟩
    · exact Or.inl ⟨pos.toNat, tx, htx, UInt32.ofNat_toNat.symm, htxid, h⟩
    · exact Or.inr ⟨pos.toNat, tx, htx, UInt32.ofNat_toNat.symm, htxid, h⟩

end Entries

/-! ## Replays -/

section Replays

variable [Hashing] [ScriptCrypto] {b : Block} {chain : List Block} {idx : ScripthashIndex}

open ActiveChain

/-- Whether a transaction touches a script does not depend on what comes later. -/
theorem ActiveChain.touches_append (hclosed : ∀ o ∈ spent chain, (prevout chain o).isSome)
    (chain' : List Block) (scripthash : Hash) {tx : Tx} (htx : tx ∈ txs chain) :
    touches (chain ++ chain') scripthash tx = touches chain scripthash tx := by
  have hprevout : ∀ o ∈ spends tx, prevout (chain ++ chain') o = prevout chain o := fun o ho => by
    obtain ⟨out, hout⟩ := Option.isSome_iff_exists.mp
      (hclosed o (mem_flatMap.mpr ⟨tx, htx, ho⟩))
    rw [hout, prevout_append hout]
  unfold touches
  congr 1
  rw [Bool.eq_iff_iff, any_eq_true, any_eq_true]
  exact exists_congr fun o => and_congr_right fun ho => by rw [hprevout o ho]

/-- **The index is a replay of blocks**, the first of them at height 1. -/
structure Replayed (idx : ScripthashIndex) (chain : List Block) : Prop where
  wellKeyed : idx.WellKeyed
  entries : ∀ (scripthash : Hash) (height pos : UInt32) (txid : Hash),
    (makeKey scripthash height pos, txid) ∈ idx.txids.entries
      ↔ ∃ n b tx, height.toNat = n + 1 ∧ chain[n]? = some b ∧ b.txdata[pos.toNat]? = some tx
        ∧ txid = tx.computeTxid ∧ touches chain scripthash tx = true
  balance : ∀ scripthash, (idx.getBalance scripthash).confirmed.toNat = balance chain scripthash
  closed : ∀ o ∈ spent chain, (prevout chain o).isSome
  cache : CacheSound chain idx.resolverCache
  height : idx.getIndexedHeight.getD 0 = chain.length
  length_lt : chain.length < 2 ^ 32
  txs_le : ∀ b ∈ chain, b.txdata.length ≤ 2 ^ 32

theorem ScripthashIndex.WellKeyed.indexBlockTransactions (h : idx.WellKeyed)
    (ρ : IterOrder OutPoint) (resolve : OutPoint → Option CachedOutput) (b : Block)
    (height : UInt32) : (idx.indexBlockTransactions ρ resolve b height).WellKeyed := by
  intro p hp
  rcases OrderedMap.mem_or_mem_of_mem_putAll hp with hnew | hold
  · obtain ⟨t, -, rfl⟩ := mem_map.mp hnew
    exact ⟨t.1, height, t.2.1, rfl⟩
  · exact h p hold

omit [ScriptCrypto] in
/-- The cache after a block. -/
theorem CacheSound.index (hv : Valid (chain ++ [b]))
    {cache : List (OutPoint × CachedOutput)} (h : CacheSound chain cache)
    (ρ : IterOrder OutPoint) :
    CacheSound (chain ++ [b]) ((ScripthashIndex.seeds ρ b).foldl cachePut cache) := by
  have hseeds : CacheSound (chain ++ [b]) (ScripthashIndex.seeds ρ b) := by
    intro p hp
    obtain ⟨o, -, ho⟩ := mem_filterMap.mp (mem_of_mem_filter hp)
    obtain ⟨out, hout, rfl⟩ := Option.map_eq_some_iff.mp ho
    exact prevout_of_outputMap hv hout
  have hcache : CacheSound (chain ++ [b]) cache := fun p hp => prevout_append (h p hp) [b]
  refine foldlRecOn (motive := CacheSound (chain ++ [b])) _ cachePut hcache
    fun cache' hcache' p hp q hq => ?_
  rcases mem_cons.mp (mem_of_mem_take hq) with rfl | hq
  · exact hseeds q hp
  · exact hcache' q (mem_of_mem_filter hq)

section

variable (h : Replayed idx chain) (hv : Valid (chain ++ [b]))
include h hv

section

variable {resolve : OutPoint → Option CachedOutput}
  (hperm : (idx.attributed resolve b).Perm (b.inputsAt.map (attributeTo (chain ++ [b]))))
  (ρ : IterOrder OutPoint)
include hperm

/-- Indexing a block writes its entries over those of the same height. -/
theorem Replayed.entries_index (scripthash : Hash) (height pos : UInt32) (txid : Hash) :
    (makeKey scripthash height pos, txid) ∈ (idx.indexBlockTransactions ρ resolve b
        (UInt32.ofNat (chain.length + 1))).txids.entries
      ↔ ∃ n b' tx, height.toNat = n + 1 ∧ (chain ++ [b])[n]? = some b'
        ∧ b'.txdata[pos.toNat]? = some tx ∧ txid = tx.computeTxid
        ∧ touches (chain ++ [b]) scripthash tx = true := by
  have hheight : (ofNat (chain.length + 1)).toNat = chain.length + 1 := by
    have hlt := hv.length_lt
    rw [length_append, length_singleton] at hlt
    rw [toNat_ofNat', Nat.mod_eq_of_lt hlt]
  have hcreated : ∀ o ∈ spent [b], (prevout (chain ++ [b]) o).isSome := fun o ho =>
    hv.spent_created o (by rw [spent_append]; exact mem_append_right _ ho)
  have hlen : b.txdata.length ≤ 2 ^ 32 :=
    hv.txs_le b (mem_append_right _ mem_cons_self)
  have hagree : ∀ p ∈ (idx.touches resolve b).map (fun t =>
      (makeKey t.1 (ofNat (chain.length + 1)) t.2.1, t.2.2)),
      ∀ q ∈ (idx.touches resolve b).map (fun t =>
        (makeKey t.1 (ofNat (chain.length + 1)) t.2.1, t.2.2)), p.1 = q.1 → p = q := by
    intro p hp q hq heq
    obtain ⟨⟨sh, i, t⟩, ht, rfl⟩ := mem_map.mp hp
    obtain ⟨⟨sh', i', t'⟩, ht', rfl⟩ := mem_map.mp hq
    obtain ⟨rfl, -, rfl⟩ := makeKey_inj heq
    obtain ⟨tx, htx, rfl, -⟩ := (mem_touches hlen hcreated hperm).mp ht
    obtain ⟨tx', htx', rfl, -⟩ := (mem_touches hlen hcreated hperm).mp ht'
    rw [Option.mem_unique htx htx']
  refine (OrderedMap.mem_putAll hagree).trans ?_
  constructor
  · rintro (hnew | ⟨-, hold⟩)
    · obtain ⟨⟨sh, i, t⟩, ht, heq⟩ := mem_map.mp hnew
      obtain ⟨hkey, rfl⟩ := Prod.mk.inj heq
      obtain ⟨rfl, rfl, rfl⟩ := makeKey_inj hkey
      obtain ⟨tx, htx, htxid, hsh⟩ := (mem_touches hlen hcreated hperm).mp ht
      exact ⟨chain.length, b, tx, hheight, getElem?_concat_length, htx, htxid, hsh⟩
    · obtain ⟨n, b', tx, hn, hb', htx, htxid, hsh⟩ := (h.entries _ _ _ _).mp hold
      have hmem : tx ∈ txs chain :=
        mem_flatMap.mpr ⟨b', mem_of_getElem? hb', mem_of_getElem? htx⟩
      refine ⟨n, b', tx, hn, ?_, htx, htxid, (touches_append h.closed [b] _ hmem).trans hsh⟩
      rw [List.getElem?_append_left (List.getElem?_eq_some_iff.mp hb').1]
      exact hb'
  · rintro ⟨n, b', tx, hn, hb', htx, htxid, hsh⟩
    rcases Nat.lt_or_ge n chain.length with hlt | hge
    · -- an entry of a lower block, under another key
      rw [getElem?_append_left hlt] at hb'
      have hmem : tx ∈ txs chain :=
        mem_flatMap.mpr ⟨b', mem_of_getElem? hb', mem_of_getElem? htx⟩
      refine Or.inr ⟨fun hkey => ?_, (h.entries _ _ _ _).mpr ⟨n, b', tx, hn, hb', htx, htxid,
        (touches_append h.closed [b] _ hmem).symm.trans hsh⟩⟩
      obtain ⟨p, hp, heq⟩ := mem_map.mp hkey
      obtain ⟨t, -, rfl⟩ := mem_map.mp hp
      have hsame := (makeKey_inj heq).2.1
      rw [← hsame] at hn
      omega
    · obtain rfl : n = chain.length := by
        have hlt := (List.getElem?_eq_some_iff.mp hb').1
        rw [List.length_append, List.length_singleton] at hlt
        omega
      rw [getElem?_concat_length] at hb'
      obtain rfl := Option.some.inj hb'
      have hh : height = UInt32.ofNat (chain.length + 1) :=
        UInt32.toNat_inj.mp (hn.trans hheight.symm)
      refine Or.inl (mem_map.mpr ⟨(scripthash, pos, txid),
        (mem_touches hlen hcreated hperm).mpr ⟨tx, htx, htxid, hsh⟩, ?_⟩)
      rw [hh]

/-- The balance after a block. -/
theorem Replayed.balance_index (height : UInt32) (scripthash : Hash) :
    ((idx.indexBlockTransactions ρ resolve b height).getBalance scripthash).confirmed.toNat
      = ActiveChain.balance (chain ++ [b]) scripthash := by
  have hstep := balance_append hv h.closed scripthash
  have hdelta := balanceDeltas_changes hperm scripthash
  have hbefore := h.balance scripthash
  have hlt : ActiveChain.balance (chain ++ [b]) scripthash < 2 ^ 63 := by
    refine Nat.lt_of_le_of_lt ?_ hv.worth_lt
    exact List.Sublist.sum_le_sum (filter_sublist.map _) fun _ _ => Nat.zero_le _
  -- the old balance and the change make the new one, up to wrapping
  have hsum : (idx.getBalance scripthash).confirmed.toInt64
      + (balanceDeltas (idx.changes resolve b) scripthash).getD 0
        = Int64.ofInt (ActiveChain.balance (chain ++ [b]) scripthash) := by
    rw [hdelta, toInt64_eq_ofInt, ← Int64.ofInt_add]
    congr 1
    omega
  unfold ScripthashIndex.getBalance ScripthashIndex.indexBlockTransactions
  cases hchange : balanceDeltas (idx.changes resolve b) scripthash with
  | some delta =>
    rw [hchange] at hsum
    simp only [hchange, readBalance_serialize]
    exact toNat_change hlt hsum
  | none =>
    rw [hchange, Option.getD_none, Int64.add_zero] at hsum
    simp only [hchange]
    have hsame := congrArg (fun n => n.toUInt64.toNat) hsum
    simp only [UInt64.toUInt64_toInt64, toNat_toUInt64_ofInt hlt] at hsame
    exact hsame

end

/-- **Indexing the next block of a valid chain.** -/
theorem Replayed.index (hresolver : idx.haveResolver = true) {txIndex : TxIndex}
    {blocks : Hash → Option Block} (hfind : Findable txIndex blocks chain)
    (ρ : IterOrder OutPoint) :
    Replayed (idx.indexBlockTransactions ρ (resolveSpentOutput txIndex blocks) b
      (UInt32.ofNat (chain.length + 1))) (chain ++ [b]) := by
  obtain ⟨hperm, hcache⟩ := ScripthashIndex.attributed_perm hv hresolver h.cache
    fun o out hout => resolveSpentOutput_eq hfind hout
  refine ⟨h.wellKeyed.indexBlockTransactions ρ _ b _, h.entries_index hv hperm ρ,
    h.balance_index hv hperm ρ _, hv.spent_created, ?_, ?_, hv.length_lt, hv.txs_le⟩
  · simp only [ScripthashIndex.indexBlockTransactions, hresolver, if_true]
    exact hcache.index hv ρ
  · have hlt := hv.length_lt
    rw [length_append, length_singleton] at hlt ⊢
    unfold ScripthashIndex.getIndexedHeight ScripthashIndex.indexBlockTransactions
    simp only [Option.bind_some, length_leBytes, Nat.le_refl, if_true, Option.getD_some]
    rw [take_of_length_le (Nat.le_of_eq (length_leBytes 4 _)), toNat_ofNat',
      Nat.mod_eq_of_lt hlt, ofLeBytes_leBytes (Nat.lt_of_lt_of_eq hlt (by norm_num))]

end

/-- What is in a history. -/
theorem ActiveChain.mem_history {start : Nat} {scripthash : Hash} {e : ScripthashTxEntry} :
    e ∈ history chain start scripthash
      ↔ ∃ n b tx, e.height = n + start ∧ chain[n]? = some b ∧ b.txdata[e.txIndex]? = some tx
        ∧ e.txid = tx.computeTxid ∧ touches chain scripthash tx = true := by
  unfold history
  simp only [mem_flatMap, mem_map, mem_filter]
  constructor
  · rintro ⟨⟨b, k⟩, hb, ⟨tx, i⟩, ⟨htx, htouches⟩, rfl⟩
    obtain ⟨hle, hb⟩ := mem_zipIdx_iff_le_and_getElem?_sub.mp hb
    exact ⟨k - start, b, tx, (Nat.sub_add_cancel hle).symm, hb,
      mem_zipIdx_iff_getElem?.mp htx, rfl, htouches⟩
  · rintro ⟨n, b, tx, hheight, hb, htx, htxid, htouches⟩
    refine ⟨(b, e.height), mem_zipIdx_iff_le_and_getElem?_sub.mpr ⟨by omega, ?_⟩,
      (tx, e.txIndex), ⟨mem_zipIdx_iff_getElem?.mpr htx, htouches⟩, ?_⟩
    · rw [hheight, Nat.add_sub_cancel]
      exact hb
    · rw [← htxid]

omit [Hashing] [ScriptCrypto] in
/-- Indices increase. -/
theorem pairwise_zipIdx {α : Type} (l : List α) (start : Nat) :
    (l.zipIdx start).Pairwise fun a b => a.2 < b.2 := by
  have hrange : ((l.zipIdx start).map Prod.snd).Pairwise (· < ·) := by
    rw [zipIdx_map_snd]
    exact pairwise_lt_range'
  exact pairwise_map.mp hrange

/-- **A history is in the order of the chain.** -/
theorem ActiveChain.pairwise_history (chain : List Block) (start : Nat) (scripthash : Hash) :
    (history chain start scripthash).Pairwise fun a b => a.height < b.height
      ∨ (a.height = b.height ∧ a.txIndex < b.txIndex) := by
  refine pairwise_flatMap.mpr ⟨fun b _ => ?_, ?_⟩
  · refine pairwise_map.mpr (((pairwise_zipIdx b.1.txdata 0).filter _).imp fun hlt => ?_)
    exact Or.inr ⟨rfl, hlt⟩
  · refine (pairwise_zipIdx chain start).imp fun hlt x hx y hy => ?_
    obtain ⟨p, -, rfl⟩ := mem_map.mp hx
    obtain ⟨q, -, rfl⟩ := mem_map.mp hy
    exact Or.inl hlt

/-- **The history that is read** is that of the blocks. -/
theorem Replayed.getTxHistory_eq (h : Replayed idx chain) (scripthash : Hash) :
    idx.getTxHistory scripthash = history chain 1 scripthash := by
  refine ScripthashIndex.getTxHistory_eq h.wellKeyed (pairwise_history chain 1 scripthash)
    (fun e he => ?_) fun height txIndex txid => (h.entries _ _ _ _).trans
      (mem_history (e := ⟨txid, height.toNat, txIndex.toNat⟩)).symm
  obtain ⟨n, b, tx, hn, hb, htx, -⟩ := mem_history.mp he
  have hlt := (List.getElem?_eq_some_iff.mp hb).1
  have hpos := (List.getElem?_eq_some_iff.mp htx).1
  have hlen := h.txs_le b (mem_of_getElem? hb)
  have hlength := h.length_lt
  omega

/-- The cache can be dropped. -/
theorem Replayed.clear (h : Replayed idx chain) : Replayed idx.clearResolverCache chain :=
  ⟨h.wellKeyed, h.entries, h.balance, h.closed, fun p hp => (by cases hp), h.height, h.length_lt,
    h.txs_le⟩

/-! ### The first block -/

/-- A first block does not matter to a script it does not pay to: it spends
nothing, and nothing has its ids. -/
structure ActiveChain.Untouched (genesis : Block) (chain : List Block) (scripthash : Hash) :
    Prop where
  coinbase : ∀ tx ∈ genesis.txdata, tx.isCoinbase = true
  pays : ∀ tx ∈ genesis.txdata, tx.output.any (paysTo scripthash) = false
  apart : ∀ tx ∈ txs chain, tx.computeTxid ∉ genesis.txids

variable {genesis : Block} {scripthash : Hash}

section

variable (h : Untouched genesis chain scripthash)
include h

theorem ActiveChain.Untouched.prevout_cons {o : OutPoint} (ho : (prevout chain o).isSome) :
    prevout (genesis :: chain) o = prevout chain o := by
  obtain ⟨out, hout⟩ := Option.isSome_iff_exists.mp ho
  obtain ⟨tx, htx, hget⟩ := Option.bind_eq_some_iff.mp hout
  have htxid : tx.computeTxid = o.txid := by simpa using find?_some htx
  have hnone : genesis.txdata.find? (fun t => t.computeTxid == o.txid) = none := by
    refine find?_eq_none.mpr fun t ht heq => ?_
    have hmem : t.computeTxid ∈ genesis.txids := mem_map_of_mem ht
    rw [beq_iff_eq.mp heq, ← htxid] at hmem
    exact h.apart tx (mem_of_find?_eq_some htx) hmem
  unfold prevout txs
  rw [flatMap_cons, find?_append, hnone, Option.none_or]

theorem ActiveChain.Untouched.spends_eq {tx : Tx} (htx : tx ∈ genesis.txdata) : spends tx = [] := by
  unfold spends
  rw [if_pos (h.coinbase tx htx)]

/-- The history with the first block. -/
theorem ActiveChain.Untouched.history_cons (hclosed : ∀ o ∈ spent chain, (prevout chain o).isSome) :
    history (genesis :: chain) 0 scripthash = history chain 1 scripthash := by
  have hfirst : ∀ tx ∈ genesis.txdata, touches (genesis :: chain) scripthash tx = false :=
    fun tx htx => by
      unfold touches
      rw [h.pays tx htx, h.spends_eq htx]
      rfl
  have hrest : ∀ tx ∈ txs chain,
      touches (genesis :: chain) scripthash tx = touches chain scripthash tx := fun tx htx => by
    unfold touches
    congr 1
    rw [Bool.eq_iff_iff, any_eq_true, any_eq_true]
    refine exists_congr fun o => and_congr_right fun ho => ?_
    rw [h.prevout_cons (hclosed o (mem_flatMap.mpr ⟨tx, htx, ho⟩))]
  unfold history
  rw [zipIdx_cons, flatMap_cons]
  have hnone : (genesis.txdata.zipIdx.filter fun tx => touches (genesis :: chain) scripthash tx.1)
      = [] :=
    filter_eq_nil_iff.mpr fun tx htx => by
      rw [hfirst tx.1 (fst_mem_of_mem_zipIdx htx)]
      exact Bool.false_ne_true
  rw [hnone, map_nil]
  refine flatMap_congr fun b hb => ?_
  congr 1
  refine filter_congr fun tx htx => hrest tx.1 ?_
  exact mem_flatMap.mpr ⟨b.1, fst_mem_of_mem_zipIdx hb, fst_mem_of_mem_zipIdx htx⟩

/-- The balance with the first block. -/
theorem ActiveChain.Untouched.balance_cons :
    balance (genesis :: chain) scripthash = balance chain scripthash := by
  have hspent : spent (genesis :: chain) = spent chain := by
    have hnone : genesis.txdata.flatMap spends = [] :=
      flatMap_eq_nil_iff.mpr fun tx htx => h.spends_eq htx
    unfold spent txs
    rw [flatMap_cons, flatMap_append, hnone, nil_append]
  have hcreated : created (genesis :: chain)
      = genesis.txdata.flatMap outputsOf ++ created chain := by
    unfold created txs
    rw [flatMap_cons, flatMap_append]
  have hnone : ((genesis.txdata.flatMap outputsOf).filter fun p =>
      !(spent chain).contains p.1).filter (fun p => paysTo scripthash p.2) = [] := by
    refine filter_eq_nil_iff.mpr fun p hp hpays => ?_
    obtain ⟨tx, htx, hp⟩ := mem_flatMap.mp (mem_of_mem_filter hp)
    obtain ⟨q, hq, rfl⟩ := mem_map.mp hp
    have hany : tx.output.any (paysTo scripthash) = true :=
      any_eq_true.mpr ⟨q.1, fst_mem_of_mem_zipIdx hq, hpays⟩
    rw [h.pays tx htx] at hany
    cases hany
  unfold ActiveChain.balance unspent
  rw [hspent, hcreated, filter_append, filter_append, hnone, nil_append]

end

/-- An empty index. -/
theorem replayed_empty (haveResolver : Bool) : Replayed (.empty haveResolver) [] := by
  refine ⟨fun p hp => (by cases hp), fun _ _ _ _ => ⟨fun hp => (by cases hp), ?_⟩, fun _ => rfl,
    fun o ho => (by cases ho), fun p hp => (by cases hp), rfl, by decide, fun b hb => (by cases hb)⟩
  rintro ⟨n, b, tx, -, hb, -⟩
  cases hb

end Replays
