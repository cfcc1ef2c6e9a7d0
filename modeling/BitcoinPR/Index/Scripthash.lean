import BitcoinPR.Lib.OrderedMap
import BitcoinPR.Script.Machine
import BitcoinPR.Storage.TxIndex

/-!
# The index of addresses

By the hash of an output script, the transactions that fund or spend it and its
balance. The transactions are a column of entries under the keys
`scripthash ‖ height ‖ position`, with numbers big-endian so that the order of
keys is that of the chain; a history is a scan of one beginning. The balance is
a number that every block adds to or takes from.

A block is indexed in two passes. The first takes its outputs. The second finds,
for every input, the output it spends: in the block itself, else in a cache of
recent outputs, else on disk through the transaction index. An input whose
output is not found is left out. Nothing is ever taken back: there is no
operation for a block that leaves the chain, and a block that is indexed twice
is added to the balance twice.
-/

open List

open scoped ByteOrder

/-- A transaction in the history of a script. -/
structure ScripthashTxEntry where
  txid : Hash
  height : Nat
  txIndex : Nat
deriving DecidableEq, Repr

/-- The balance of a script. -/
structure ScripthashBalance where
  confirmed : UInt64
  unconfirmed : UInt64
deriving DecidableEq, Repr

/-- The script of an output and its value. -/
abbrev CachedOutput := Bytes × UInt64

/-- **The index.** The columns are on disk, the cache of outputs not seen spent
is in memory, last used first. -/
structure ScripthashIndex where
  txids : OrderedMap Bytes Hash
  balance : Hash → Option Bytes
  indexedHeight : Option Bytes
  /-- Whether outputs of earlier blocks can be found. -/
  haveResolver : Bool
  resolverCache : List (OutPoint × CachedOutput)

/-- The hash of a script, as clients name it: reversed. -/
def computeScripthash [ScriptCrypto] (script : Bytes) : Hash :=
  BitVec.ofNat 256 (ofLeBytes (ScriptCrypto.sha256 script).reverse)

/-- The 32 bytes of a script hash. -/
def scripthashBytes (scripthash : Hash) : Bytes := leBytes 32 scripthash.toNat

/-- The key of an entry. -/
def makeKey (scripthash : Hash) (height txIndex : UInt32) : Bytes :=
  scripthashBytes scripthash ++ (beBytes 4 height.toNat ++ beBytes 4 txIndex.toNat)

/-! ## The cache of outputs -/

/-- How many outputs are cached. -/
def resolverCacheCapacity : Nat := 2000000

/-- Put an output in front, and drop the last ones. -/
def cachePut (cache : List (OutPoint × CachedOutput)) (p : OutPoint × CachedOutput) :
    List (OutPoint × CachedOutput) :=
  (p :: cache.filter fun q => q.1 != p.1).take resolverCacheCapacity

/-- Take an output out. -/
def cachePop (cache : List (OutPoint × CachedOutput)) (o : OutPoint) :
    Option CachedOutput × List (OutPoint × CachedOutput) :=
  ((cache.find? fun q => q.1 == o).map Prod.snd, cache.filter fun q => q.1 != o)

/-! ## Outputs and inputs of a block -/

/-- An output, with the position of its transaction. -/
structure OutputAt where
  txIndex : UInt32
  outpoint : OutPoint
  out : TxOut
deriving DecidableEq, Repr

/-- An input, with the position and id of its transaction. -/
structure InputAt where
  txIndex : UInt32
  txid : Hash
  outpoint : OutPoint
deriving DecidableEq, Repr

variable [Hashing]

/-- The outputs of a transaction, at a position. -/
def Tx.outputsAt (tx : Tx) (pos : Nat) : List OutputAt :=
  tx.output.zipIdx.map fun p =>
    ⟨UInt32.ofNat pos, ⟨tx.computeTxid, UInt32.ofNat p.2⟩, p.1⟩

/-- The inputs of a transaction; a coinbase spends nothing. -/
def Tx.inputsAt (tx : Tx) (pos : Nat) : List InputAt :=
  if tx.isCoinbase then []
  else tx.input.map fun i => ⟨UInt32.ofNat pos, tx.computeTxid, i.previousOutput⟩

/-- All outputs of a block. -/
def Block.outputsAt (b : Block) : List OutputAt :=
  b.txdata.zipIdx.flatMap fun p => p.1.outputsAt p.2

/-- All inputs of a block that spend something. -/
def Block.inputsAt (b : Block) : List InputAt :=
  b.txdata.zipIdx.flatMap fun p => p.1.inputsAt p.2

/-- The outputs of a block by outpoint. -/
def Block.outputMap (b : Block) : OutPoint → Option CachedOutput :=
  PartialMap.putAll (fun _ => none)
    (b.outputsAt.map fun o => (o.outpoint, (o.out.scriptPubkey, o.out.value)))

/-! ## Attributing inputs -/

/-- An input and the output it is found to spend. -/
abbrev Attributed := InputAt × CachedOutput

/-- The inputs that spend outputs of the block itself. -/
def Block.intraBlock (b : Block) : List Attributed :=
  b.inputsAt.filterMap fun i => (b.outputMap i.outpoint).map (i, ·)

/-- The inputs that spend outputs of earlier blocks. -/
def Block.pending (b : Block) : List InputAt :=
  b.inputsAt.filter fun i => (b.outputMap i.outpoint).isNone

/-- What of a list of inputs is in the cache, what is not, and the cache
afterwards. -/
def takeCached : List InputAt → List (OutPoint × CachedOutput) →
    List Attributed × List InputAt × List (OutPoint × CachedOutput)
  | [], cache => ([], [], cache)
  | i :: inputs, cache =>
    let (found, cache) := cachePop cache i.outpoint
    let (hits, misses, cache) := takeCached inputs cache
    match found with
    | some out => ((i, out) :: hits, misses, cache)
    | none => (hits, i :: misses, cache)

/-- An output of an earlier block, through the transaction index and the blocks
on disk. -/
def resolveSpentOutput (txIndex : TxIndex) (blocks : Hash → Option Block) (o : OutPoint) :
    Option CachedOutput :=
  match txIndex.get o.txid with
  | .ok (some e) =>
    (blocks e.blockHash).bind fun b =>
      (b.txdata[e.txPos.toNat]?).bind fun tx =>
        (tx.output[o.vout.toNat]?).map fun out => (out.scriptPubkey, out.value)
  | _ => none

namespace ScripthashIndex

/-- The inputs of earlier outputs, as far as these are found, and the cache
afterwards. -/
def crossBlock (idx : ScripthashIndex) (resolve : OutPoint → Option CachedOutput) (b : Block) :
    List Attributed × List (OutPoint × CachedOutput) :=
  if idx.haveResolver && !b.pending.isEmpty then
    let (hits, misses, cache) := takeCached b.pending idx.resolverCache
    (hits ++ misses.filterMap fun i => (resolve i.outpoint).map (i, ·), cache)
  else ([], idx.resolverCache)

/-- The inputs of a block that are attributed. -/
def attributed (idx : ScripthashIndex) (resolve : OutPoint → Option CachedOutput) (b : Block) :
    List Attributed :=
  b.intraBlock ++ (idx.crossBlock resolve b).1

variable [ScriptCrypto]

/-- The entries of a block: script, position and id of the transaction. -/
def touches (idx : ScripthashIndex) (resolve : OutPoint → Option CachedOutput) (b : Block) :
    List (Hash × UInt32 × Hash) :=
  (b.outputsAt.map fun o => (computeScripthash o.out.scriptPubkey, o.txIndex, o.outpoint.txid))
    ++ (idx.attributed resolve b).map fun a => (computeScripthash a.2.1, a.1.txIndex, a.1.txid)

/-- What a block adds to and takes from balances. -/
def changes (idx : ScripthashIndex) (resolve : OutPoint → Option CachedOutput) (b : Block) :
    List (Hash × Int64) :=
  (b.outputsAt.map fun o => (computeScripthash o.out.scriptPubkey, o.out.value.toInt64))
    ++ (idx.attributed resolve b).map fun a => (computeScripthash a.2.1, -a.2.2.toInt64)

end ScripthashIndex

/-- Sum changes by script; additions wrap. -/
def balanceDeltas (changes : List (Hash × Int64)) : Hash → Option Int64 :=
  changes.foldl (fun m p => Function.update m p.1 (some ((m p.1).getD 0 + p.2))) fun _ => none

/-- The two numbers of a balance on disk. -/
def readBalance : Option Bytes → ScripthashBalance
  | some data =>
    if 16 ≤ data.length then
      ⟨UInt64.ofNat (ofLeBytes (data.take 8)), UInt64.ofNat (ofLeBytes ((data.drop 8).take 8))⟩
    else ⟨0, 0⟩
  | none => ⟨0, 0⟩

/-- A balance on disk. -/
def ScripthashBalance.serialize (b : ScripthashBalance) : Bytes :=
  leBytes 8 b.confirmed.toNat ++ leBytes 8 b.unconfirmed.toNat

/-- Change a balance; below zero it stays at zero. -/
def ScripthashBalance.change (b : ScripthashBalance) (delta : Int64) : ScripthashBalance :=
  { b with confirmed := (max (b.confirmed.toInt64 + delta) 0).toUInt64 }

namespace ScripthashIndex

/-- An index just created. -/
def empty (haveResolver : Bool) : ScripthashIndex :=
  ⟨OrderedMap.empty, fun _ => none, none, haveResolver, []⟩

/-- What a block puts in the cache: outputs it does not spend itself and that can
be spent, in the order `ρ`. -/
def seeds (ρ : IterOrder OutPoint) (b : Block) : List (OutPoint × CachedOutput) :=
  ((ρ.order (b.outputsAt.map OutputAt.outpoint).dedup).filterMap fun o =>
      (b.outputMap o).map (o, ·)).filter fun p =>
    !(b.intraBlock.any fun a => a.1.outpoint == p.1) && !isOpReturn p.2.1

/-- **Index a block.** -/
def indexBlockTransactions [ScriptCrypto] (idx : ScripthashIndex) (ρ : IterOrder OutPoint)
    (resolve : OutPoint → Option CachedOutput) (b : Block) (height : UInt32) :
    ScripthashIndex where
  txids := idx.txids.putAll ((idx.touches resolve b).map fun t => (makeKey t.1 height t.2.1, t.2.2))
  balance scripthash :=
    match balanceDeltas (idx.changes resolve b) scripthash with
    | some delta => some ((readBalance (idx.balance scripthash)).change delta).serialize
    | none => idx.balance scripthash
  indexedHeight := some (leBytes 4 height.toNat)
  haveResolver := idx.haveResolver
  resolverCache :=
    if idx.haveResolver then (seeds ρ b).foldl cachePut (idx.crossBlock resolve b).2
    else (idx.crossBlock resolve b).2

/-- The height last indexed. -/
def getIndexedHeight (idx : ScripthashIndex) : Option Nat :=
  idx.indexedHeight.bind fun data =>
    if 4 ≤ data.length then some (ofLeBytes (data.take 4)) else none

/-- The balance of a script. -/
def getBalance (idx : ScripthashIndex) (scripthash : Hash) : ScripthashBalance :=
  readBalance (idx.balance scripthash)

/-- Release the memory of the cache. -/
def clearResolverCache (idx : ScripthashIndex) : ScripthashIndex :=
  { idx with resolverCache := [] }

end ScripthashIndex

/-- The first string above all that begin like this one: the last byte that can
be raised is, and those behind it are zero. -/
def upperBound : Bytes → Option Bytes
  | [] => none
  | b :: bs =>
    match upperBound bs with
    | some above => some (b :: above)
    | none => if b ≠ 0xff then some ((b + 1) :: bs.map fun _ => 0) else none

/-- Whether the scan goes on: the key is below the bound, has its length and
begins like the script hash. -/
def inHistory (scripthash : Hash) (key : Bytes) : Bool :=
  (match upperBound (scripthashBytes scripthash) with
    | some above => decide (key < above)
    | none => true)
  && (key.length == 40 && (scripthashBytes scripthash).isPrefixOf key)

/-- The entry under a key. -/
def readEntry (p : Bytes × Hash) : ScripthashTxEntry :=
  ⟨p.2, beNat ((p.1.drop 32).take 4), beNat ((p.1.drop 36).take 4)⟩

/-- **The history of a script.** -/
def ScripthashIndex.getTxHistory (idx : ScripthashIndex) (scripthash : Hash) :
    List ScripthashTxEntry :=
  (idx.txids.scan (scripthashBytes scripthash) (inHistory scripthash)).map readEntry

/-! ## Keys -/

omit [Hashing]

@[simp]
theorem length_scripthashBytes (scripthash : Hash) : (scripthashBytes scripthash).length = 32 :=
  length_leBytes 32 _

theorem length_makeKey (scripthash : Hash) (height txIndex : UInt32) :
    (makeKey scripthash height txIndex).length = 40 := by
  simp [makeKey]

/-- The number behind the script hash. -/
theorem beNat_word (n : UInt32) : beNat (beBytes 4 n.toNat) = n.toNat := by
  rw [beNat_beBytes, Nat.mod_eq_of_lt (Nat.lt_of_lt_of_eq n.toNat_lt (by norm_num))]

/-- **The entry under a key** has the height and the position of the key. -/
theorem readEntry_makeKey (scripthash : Hash) (height txIndex : UInt32) (txid : Hash) :
    readEntry (makeKey scripthash height txIndex, txid)
      = ⟨txid, height.toNat, txIndex.toNat⟩ := by
  have hheight : ((makeKey scripthash height txIndex).drop 32).take 4 = beBytes 4 height.toNat := by
    unfold makeKey
    rw [drop_left' (length_scripthashBytes _), take_left' (length_beBytes 4 _)]
  have hindex : ((makeKey scripthash height txIndex).drop 36).take 4 = beBytes 4 txIndex.toNat := by
    unfold makeKey
    rw [← append_assoc, drop_left' (by simp),
      take_of_length_le (Nat.le_of_eq (length_beBytes 4 _))]
  unfold readEntry
  rw [hheight, hindex, beNat_word, beNat_word]

theorem scripthashBytes_inj {a b : Hash} (h : scripthashBytes a = scripthashBytes b) : a = b := by
  have hofNat := congrArg (fun bytes => BitVec.ofNat 256 (ofLeBytes bytes)) h
  simpa only [scripthashBytes, ofNat_ofLeBytes_hash] using hofNat

theorem makeKey_inj {a b : Hash} {h i h' i' : UInt32} (heq : makeKey a h i = makeKey b h' i') :
    a = b ∧ h = h' ∧ i = i' := by
  have hhash : scripthashBytes a = scripthashBytes b := by
    have htake := congrArg (List.take 32) heq
    unfold makeKey at htake
    rwa [take_left' (length_scripthashBytes _)]
      at htake
  have hentry := congrArg (fun key => readEntry (key, 0)) heq
  simp only [readEntry_makeKey, ScripthashTxEntry.mk.injEq, UInt32.toNat_inj] at hentry
  exact ⟨scripthashBytes_inj hhash, hentry.2.1, hentry.2.2⟩

/-- The number a key spells. -/
theorem beNat_makeKey (scripthash : Hash) (height txIndex : UInt32) :
    beNat (makeKey scripthash height txIndex)
      = beNat (scripthashBytes scripthash) * 2 ^ 64
        + (height.toNat * 2 ^ 32 + txIndex.toNat) := by
  unfold makeKey
  rw [beNat_append, beNat_append, length_append, beNat_word,
    beNat_word]
  norm_num

/-- **The keys of one script are in the order of the chain.** -/
theorem makeKey_lt_makeKey {scripthash : Hash} {h i h' i' : UInt32} :
    makeKey scripthash h i < makeKey scripthash h' i'
      ↔ h.toNat < h'.toNat ∨ (h.toNat = h'.toNat ∧ i.toNat < i'.toNat) := by
  have hi := i.toNat_lt
  have hi' := i'.toNat_lt
  have hlen : (makeKey scripthash h i).length = (makeKey scripthash h' i').length := by
    rw [length_makeKey, length_makeKey]
  refine (lt_iff_beNat_lt hlen).trans ?_
  rw [beNat_makeKey, beNat_makeKey]
  omega

/-! ## Scanning a history -/

/-- What begins like a string is below the bound for it. -/
theorem lt_of_upperBound {p above k : Bytes} (h : upperBound p = some above) (hk : p <+: k) :
    k < above := by
  induction p generalizing above k with
  | nil => cases h
  | cons b p ih =>
    obtain ⟨t, rfl⟩ := hk
    unfold upperBound at h
    cases hup : upperBound p with
    | some rest =>
      rw [hup] at h
      obtain rfl := Option.some.inj h
      exact cons_lt_cons_iff.mpr (Or.inr ⟨rfl, ih hup (prefix_append p t)⟩)
    | none =>
      rw [hup] at h
      by_cases hb : b ≠ 0xff
      · rw [if_pos hb] at h
        obtain rfl := Option.some.inj h
        refine cons_lt_cons_iff.mpr (Or.inl ?_)
        -- the byte is raised without a carry
        have hlt : b.toNat < 255 := by
          have hle := b.toNat_lt
          have hne : b.toNat ≠ (255 : UInt8).toNat := fun heq => hb (UInt8.toNat_inj.mp heq)
          have h255 : (255 : UInt8).toNat = 255 := rfl
          omega
        rw [UInt8.lt_iff_toNat_lt, UInt8.toNat_add]
        have hone : (1 : UInt8).toNat = 1 := rfl
        omega
      · rw [if_neg hb] at h
        cases h

/-- **The scan for a script wants just its keys.** -/
theorem inHistory_makeKey (scripthash scripthash' : Hash) (height txIndex : UInt32) :
    inHistory scripthash (makeKey scripthash' height txIndex) = true
      ↔ scripthash' = scripthash := by
  constructor
  · intro h
    unfold inHistory at h
    simp only [Bool.and_eq_true, isPrefixOf_iff_prefix] at h
    have hbegin : scripthashBytes scripthash = (makeKey scripthash' height txIndex).take 32 := by
      have htake := prefix_iff_eq_take.mp h.2.2
      rwa [length_scripthashBytes] at htake
    unfold makeKey at hbegin
    exact (scripthashBytes_inj hbegin).symm
  · rintro rfl
    have hbegin : scripthashBytes scripthash' <+: makeKey scripthash' height txIndex :=
      prefix_append _ _
    unfold inHistory
    rw [Bool.and_eq_true, Bool.and_eq_true, isPrefixOf_iff_prefix]
    refine ⟨?_, rfl, hbegin⟩
    cases hup : upperBound (scripthashBytes scripthash') with
    | some above => exact decide_eq_true (lt_of_upperBound hup hbegin)
    | none => rfl

namespace ScripthashIndex

/-- Every key was made for an entry. -/
def WellKeyed (idx : ScripthashIndex) : Prop :=
  ∀ p ∈ idx.txids.entries, ∃ scripthash height txIndex, p.1 = makeKey scripthash height txIndex

/-- **A history is all entries of its script**, in the order of their keys. -/
theorem getTxHistory_eq_filter {idx : ScripthashIndex} (h : idx.WellKeyed) (scripthash : Hash) :
    idx.getTxHistory scripthash
      = (idx.txids.entries.filter fun p => inHistory scripthash p.1).map readEntry := by
  have hbegin : ∀ p ∈ idx.txids.entries, inHistory scripthash p.1 = true →
      scripthashBytes scripthash <+: p.1 := fun p _ hp => by
    unfold inHistory at hp
    simp only [Bool.and_eq_true, isPrefixOf_iff_prefix] at hp
    exact hp.2.2
  unfold getTxHistory
  rw [OrderedMap.scan_eq_filter]
  · exact fun p hp hw => not_lt.mp (OrderedMap.not_lt_of_isPrefix (hbegin p hp hw))
  · intro p hp q hq hlo hlt hw
    obtain ⟨scripthash', height, txIndex, hkey⟩ := h p hp
    have hlen : (scripthashBytes scripthash).length ≤ p.1.length := by
      rw [hkey, length_makeKey, length_scripthashBytes]
      norm_num
    have hbegins := OrderedMap.isPrefix_of_between hlen (not_lt.mpr hlo) (lt_asymm hlt)
      (hbegin q hq hw)
    rw [hkey, inHistory_makeKey]
    have htake := prefix_iff_eq_take.mp hbegins
    rw [length_scripthashBytes, hkey, makeKey] at htake
    exact (scripthashBytes_inj htake).symm

/-- **A history from a list of its entries**: if the list is in the order of the
chain and has what the column has, it is the history. -/
theorem getTxHistory_eq {idx : ScripthashIndex} (h : idx.WellKeyed) {scripthash : Hash}
    {l : List ScripthashTxEntry}
    (hsorted : l.Pairwise fun a b => a.height < b.height
      ∨ (a.height = b.height ∧ a.txIndex < b.txIndex))
    (hfit : ∀ e ∈ l, e.height < 2 ^ 32 ∧ e.txIndex < 2 ^ 32)
    (hmem : ∀ (height txIndex : UInt32) txid,
      (makeKey scripthash height txIndex, txid) ∈ idx.txids.entries
        ↔ ⟨txid, height.toNat, txIndex.toNat⟩ ∈ l) :
    idx.getTxHistory scripthash = l := by
  have hword : ∀ {n : Nat}, n < 2 ^ 32 → (UInt32.ofNat n).toNat = n := fun hn => by
    rw [UInt32.toNat_ofNat', Nat.mod_eq_of_lt hn]
  have hl : (l.map fun e => (makeKey scripthash (UInt32.ofNat e.height) (UInt32.ofNat e.txIndex),
      e.txid)).Pairwise fun p q => p.1 < q.1 := by
    refine pairwise_map.mpr (hsorted.imp_of_mem fun ha hb hab => ?_)
    rw [makeKey_lt_makeKey, hword (hfit _ ha).1, hword (hfit _ ha).2, hword (hfit _ hb).1,
      hword (hfit _ hb).2]
    exact hab
  have hfilter := idx.txids.sorted.filter fun p => inHistory scripthash p.1
  have heq : (idx.txids.entries.filter fun p => inHistory scripthash p.1)
      = l.map fun e => (makeKey scripthash (UInt32.ofNat e.height) (UInt32.ofNat e.txIndex),
          e.txid) := by
    -- two sorted lists with the same members
    have hasymm : ∀ p q : Bytes × Hash, p.1 < q.1 → q.1 < p.1 → p = q :=
      fun p q hpq hqp => absurd hqp (lt_asymm hpq)
    refine List.Perm.eq_of_pairwise (fun p q _ _ => hasymm p q) hfilter hl ?_
    refine (perm_ext_iff_of_nodup (hfilter.imp fun hlt heq => ?_)
      (hl.imp fun hlt heq => ?_)).mpr fun p => ?_
    · exact lt_irrefl _ (heq ▸ hlt)
    · exact lt_irrefl _ (heq ▸ hlt)
    · rw [mem_filter, mem_map]
      constructor
      · rintro ⟨hp, hw⟩
        obtain ⟨scripthash', height, txIndex, hkey⟩ := h p hp
        rw [hkey, inHistory_makeKey] at hw
        rw [hw] at hkey
        have hentry : (makeKey scripthash height txIndex, p.2) ∈ idx.txids.entries := by
          rw [← hkey]
          exact hp
        refine ⟨_, (hmem height txIndex p.2).mp hentry, ?_⟩
        rw [UInt32.ofNat_toNat, UInt32.ofNat_toNat, ← hkey]
      · rintro ⟨e, he, rfl⟩
        obtain ⟨hheight, hindex⟩ := hfit e he
        refine ⟨(hmem _ _ _).mpr ?_, (inHistory_makeKey _ _ _ _).mpr rfl⟩
        rw [hword hheight, hword hindex]
        exact he
  rw [getTxHistory_eq_filter h, heq, map_map]
  refine (map_congr_left fun e he => ?_).trans (map_id l)
  obtain ⟨hheight, hindex⟩ := hfit e he
  rw [Function.comp_apply, readEntry_makeKey, hword hheight, hword hindex]
  rfl

end ScripthashIndex
