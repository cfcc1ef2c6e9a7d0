import BitcoinPR.P2P.HeightIndex

/-!
# Asking for headers and serving them

A node that asks for headers names blocks of its best header chain, the locator:
from the best header down, the first ten one by one and those below ever wider
apart, and the first block in any case. The node asked looks for the first of
them that is on its own chain and sends what follows there, at most 2000
headers.

What a reply leaves behind on a branch that is not adopted is not named in any
later locator, so it is the best header that carries a sync on.

Hashes asked for with `getblocks` follow the first block of the locator that is
stored at all, on the chain or beside it.
-/

open List Nat

/-! ## The locator -/

namespace HeaderSync

/-- Name the blocks the height index has at `height`, `height - step` and so on;
from ten names on, the step doubles. -/
def locatorWalk (ix : HeaderIndex) : Nat → Nat → Nat → List Hash → List Hash
  | 0, _, _, locator => locator
  | fuel + 1, height, step, locator =>
    let locator := locator ++ (ix.getHashAtHeight height).toList
    let step := if 10 ≤ locator.length then step * 2 else step
    if height < step then locator else locatorWalk ix fuel (height - step) step locator

/-- The locator for a request. -/
def buildLocator (s : HeaderSync) (genesis : Hash) : List Hash :=
  let locator := locatorWalk s.headerIndex (s.bestHeight + 1) s.bestHeight 1 []
  if locator.getLast? = some genesis then locator else locator ++ [genesis]

end HeaderSync

/-! ## The reply -/

/-- The bound on the headers of a reply. -/
def maxHeadersResults : Nat := 2000

namespace HeaderIndex

/-- The height after the first block of a locator that is canonical. -/
def locatorStart (ix : HeaderIndex) : List Hash → Nat
  | [] => 0
  | hash :: locator =>
    match ix.getHeader hash with
    | some stored =>
      if ix.getHashAtHeight stored.height = some hash then stored.height + 1
      else ix.locatorStart locator
    | none => ix.locatorStart locator

/-- At most `n` canonical headers from a height on, up to the block `stopHash`
unless that is zero. -/
def collectHeaders (ix : HeaderIndex) (stopHash : Hash) : Nat → Nat → List Header
  | 0, _ => []
  | n + 1, height =>
    match ix.getHashAtHeight height with
    | none => []
    | some hash =>
      match ix.getHeader hash with
      | none => []
      | some stored =>
        stored.header :: if stopHash ≠ Hash.allZeros ∧ hash = stopHash then []
          else ix.collectHeaders stopHash n (height + 1)

/-- **The reply to a request for headers.** -/
def serveHeaders (ix : HeaderIndex) (locator : List Hash) (stopHash : Hash) : List Header :=
  ix.collectHeaders stopHash maxHeadersResults (ix.locatorStart locator)

end HeaderIndex

/-! ## A chain that is served -/

/-- The header at height `i` of a chain over the first block. -/
def chainAt (first : StoredHeader) (chain : List Header) (i : Nat) : StoredHeader :=
  (chain.take i).foldl StoredHeader.child first

section

variable {first : StoredHeader} {chain : List Header} {i : Nat}

theorem chainAt_zero (first : StoredHeader) (chain : List Header) : chainAt first chain 0 = first :=
  rfl

theorem chainAt_succ (h : i < chain.length) :
    chainAt first chain (i + 1) = (chainAt first chain i).child chain[i] := by
  rw [chainAt, take_succ_eq_append_getElem h, foldl_append]
  rfl

theorem height_chainAt (hzero : first.height = 0) (h : i ≤ chain.length) :
    (chainAt first chain i).height = i := by
  rw [chainAt, height_foldl_child, hzero, length_take, min_eq_left h, zero_add]

theorem header_chainAt_succ (h : i < chain.length) :
    (chainAt first chain (i + 1)).header = chain[i] := by
  rw [chainAt_succ h]
  rfl

variable [Hashing] (hfollows : HeaderSync.Follows (first.header :: chain)) (h : i < chain.length)
include hfollows h

theorem prevBlockhash_getElem :
    chain[i].prevBlockhash = (chainAt first chain i).header.blockHash := by
  have hrel := isChain_iff_getElem.mp hfollows i (by simpa using h)
  cases i with
  | zero => exact hrel
  | succ i => rwa [header_chainAt_succ (by omega)]

theorem prevBlockhash_chainAt_succ : (chainAt first chain (i + 1)).header.prevBlockhash
      = (chainAt first chain i).header.blockHash := by
  rw [header_chainAt_succ h, prevBlockhash_getElem hfollows h]

end

/-- **The index serves the chain** over the first block: the height index names
its headers and no others, and they are stored at their heights. -/
structure HeaderIndex.Serves [Hashing] (ix : HeaderIndex) (first : StoredHeader)
    (chain : List Header) : Prop where
  named : ∀ i ≤ chain.length, ix.heightIndex i = some (chainAt first chain i).header.blockHash
  above : ∀ i, chain.length < i → ix.heightIndex i = none
  stored : ∀ i ≤ chain.length, ∃ stored,
    ix.headers (chainAt first chain i).header.blockHash = some stored
      ∧ stored.header = (chainAt first chain i).header ∧ stored.height = i

section

variable [Hashing] (first : StoredHeader) (chain : List Header)

/-- The hashes of a chain, lowest first. -/
def chainHashes : List Hash := (first.header :: chain).map Header.blockHash

/-- The hash of the chain right under a height. -/
def hashUnder : Nat → Option Hash
  | 0 => none
  | k + 1 => (chainHashes first chain)[k]?

/-- The first block of a locator that lies on the chain. -/
def firstOnChain (locator : List Hash) : Option Hash :=
  locator.find? fun a => decide (a ∈ chainHashes first chain)

end

namespace HeaderIndex.Serves

variable [Hashing] {ix : HeaderIndex} {first : StoredHeader} {chain : List Header}
  (h : ix.Serves first chain)
include h

/-- The height index names the hashes of the chain. -/
theorem heightIndex_eq (i : Nat) : ix.heightIndex i = (chainHashes first chain)[i]? := by
  rcases lt_or_ge chain.length i with hi | hi
  · rw [h.above i hi, eq_comm, getElem?_eq_none_iff, chainHashes, length_map]
    exact hi
  · rw [h.named i hi, chainHashes, getElem?_map]
    cases i with
    | zero => rfl
    | succ i => rw [header_chainAt_succ hi, getElem?_cons_succ, getElem?_eq_getElem hi]; rfl

theorem le_of_heightIndex {i : Nat} {hash : Hash} (hi : ix.heightIndex i = some hash) :
    i ≤ chain.length := by
  by_contra hlt
  rw [h.above i (Nat.lt_of_not_le hlt)] at hi
  cases hi

/-- A hash of the chain is canonical, and no other is. -/
theorem mem_iff {hash : Hash} : hash ∈ chainHashes first chain ↔
    ∃ stored, ix.headers hash = some stored ∧ ix.heightIndex stored.height = some hash := by
  constructor
  · intro hin
    obtain ⟨i, hi⟩ := mem_iff_getElem?.mp hin
    rw [← h.heightIndex_eq] at hi
    have hle := h.le_of_heightIndex hi
    obtain rfl := Option.mem_unique (h.named i hle) hi
    obtain ⟨stored, hstored, -, hheight⟩ := h.stored i hle
    exact ⟨stored, hstored, by rw [hheight, hi]⟩
  · rintro ⟨stored, -, hnamed⟩
    rw [h.heightIndex_eq] at hnamed
    exact mem_of_getElem? hnamed

/-- **The first block of a locator on the chain** decides where the reply
starts. -/
theorem firstOnChain_eq (locator : List Hash) :
    firstOnChain first chain locator = hashUnder first chain (ix.locatorStart locator) := by
  induction locator with
  | nil => rfl
  | cons hash locator ih =>
    unfold locatorStart
    by_cases hin : hash ∈ chainHashes first chain
    · obtain ⟨stored, hstored, hnamed⟩ := h.mem_iff.mp hin
      simp only [getHeader, hstored, getHashAtHeight, hnamed, if_true, hashUnder]
      rw [← h.heightIndex_eq, hnamed]
      exact find?_cons_of_pos (decide_eq_true hin)
    · rw [firstOnChain, find?_cons_of_neg (by simpa using hin), ← firstOnChain, ih]
      cases hstored : ix.headers hash with
      | none => simp only [getHeader, hstored]
      | some stored =>
        simp only [getHeader, hstored]
        exact congrArg _ (if_neg fun hnamed => hin (h.mem_iff.mpr ⟨stored, hstored, hnamed⟩)).symm

/-- A locator with the first block has a block on the chain. -/
theorem exists_locatorStart {locator : List Hash} (hgenesis : first.header.blockHash ∈ locator) :
    ∃ k ≤ chain.length, (chainAt first chain k).header.blockHash ∈ locator
      ∧ ix.locatorStart locator = k + 1 := by
  have hfirst := h.firstOnChain_eq locator
  cases hstart : ix.locatorStart locator with
  | zero =>
    rw [hstart] at hfirst
    exact absurd (decide_eq_true mem_cons_self) (find?_eq_none.mp hfirst _ hgenesis)
  | succ k =>
    rw [hstart, hashUnder, ← h.heightIndex_eq] at hfirst
    cases hnamed : ix.heightIndex k with
    | none =>
      rw [hnamed] at hfirst
      exact absurd (decide_eq_true mem_cons_self) (find?_eq_none.mp hfirst _ hgenesis)
    | some a =>
      have hle := h.le_of_heightIndex hnamed
      refine ⟨k, hle, ?_, rfl⟩
      rw [Option.mem_unique (h.named k hle) hnamed]
      exact mem_of_find?_eq_some (hfirst.trans hnamed)

/-- Collecting the headers from a height on. -/
theorem collectHeaders_eq (n k : Nat) :
    ix.collectHeaders Hash.allZeros n (k + 1) = (chain.drop k).take n := by
  induction n generalizing k with
  | zero => rfl
  | succ n ih =>
    unfold collectHeaders
    by_cases hk : k < chain.length
    · obtain ⟨stored, hstored, hheader, -⟩ := h.stored (k + 1) hk
      simp only [getHashAtHeight, getHeader, h.named (k + 1) hk, hstored]
      rw [drop_eq_getElem_cons hk, take_succ_cons, hheader, header_chainAt_succ hk]
      simp only [ne_eq, not_true_eq_false, false_and, if_false, ih]
    · rw [drop_eq_nil_of_le (Nat.le_of_not_lt hk), take_nil]
      simp only [getHashAtHeight, h.above (k + 1) (by omega)]

/-- A locator whose first block is on the chain. -/
theorem locatorStart_of_head {k : Nat} (hk : k ≤ chain.length)
    {locator : List Hash}
    (hhead : locator.head? = some (chainAt first chain k).header.blockHash) :
    ix.locatorStart locator = k + 1 := by
  cases locator with
  | nil => cases hhead
  | cons hash locator =>
    obtain rfl := Option.some.inj hhead
    unfold locatorStart
    obtain ⟨stored, hstored, -, hheight⟩ := h.stored k hk
    simp only [getHeader, hstored, getHashAtHeight, hheight, h.named k hk, if_true]

end HeaderIndex.Serves

namespace HeaderSync

/-- One block is named, and then the walk ends or goes on with some step. -/
theorem exists_locatorWalk_succ (ix : HeaderIndex) (fuel height step : Nat) (locator : List Hash) :
    ∃ next, locatorWalk ix (fuel + 1) height step locator
      = if height < next then locator ++ (ix.getHashAtHeight height).toList
        else locatorWalk ix fuel (height - next) next
          (locator ++ (ix.getHashAtHeight height).toList) :=
  ⟨_, rfl⟩

theorem mem_locatorWalk {ix : HeaderIndex} {fuel height step : Nat} {locator : List Hash}
    {hash : Hash} (h : hash ∈ locatorWalk ix fuel height step locator) :
    hash ∈ locator ∨ ∃ i ≤ height, ix.heightIndex i = some hash := by
  induction fuel generalizing height step locator with
  | zero => exact Or.inl h
  | succ fuel ih =>
    -- what this step adds is named by the height index
    have hadded : ∀ a ∈ locator ++ (ix.getHashAtHeight height).toList,
        a ∈ locator ∨ ∃ i ≤ height, ix.heightIndex i = some a := fun a ha =>
      (mem_append.mp ha).imp_right fun hin =>
        ⟨height, le_refl _, Option.mem_toList.mp hin⟩
    obtain ⟨next, heq⟩ := exists_locatorWalk_succ ix fuel height step locator
    rw [heq] at h
    split at h
    · exact hadded hash h
    · rcases ih h with hin | ⟨i, hi, hnamed⟩
      · exact hadded hash hin
      · exact Or.inr ⟨i, hi.trans (sub_le _ _), hnamed⟩

/-- A locator names blocks of the height index up to the best header, and the
first block. -/
theorem mem_buildLocator {s : HeaderSync} {genesis hash : Hash}
    (h : hash ∈ s.buildLocator genesis) :
    hash = genesis ∨ ∃ i ≤ s.bestHeight, s.headerIndex.heightIndex i = some hash := by
  unfold buildLocator at h
  simp only at h
  split at h
  · exact Or.inr ((mem_locatorWalk h).resolve_left not_mem_nil)
  · rcases mem_append.mp h with h | h
    · exact Or.inr ((mem_locatorWalk h).resolve_left not_mem_nil)
    · exact Or.inl (mem_singleton.mp h)

theorem locatorWalk_congr {ix ix' : HeaderIndex} (h : ix'.heightIndex = ix.heightIndex)
    (fuel height step : Nat) (locator : List Hash) :
    locatorWalk ix' fuel height step locator = locatorWalk ix fuel height step locator := by
  induction fuel generalizing height step locator with
  | zero => rfl
  | succ fuel ih =>
    have hget : ix'.getHashAtHeight height = ix.getHashAtHeight height := congrFun h height
    rw [locatorWalk, locatorWalk, hget]
    simp only [ih]

/-- The locator depends on the height index and on the height of the best
header. -/
theorem buildLocator_congr {s s' : HeaderSync}
    (h : s'.headerIndex.heightIndex = s.headerIndex.heightIndex)
    (hheight : s'.bestHeight = s.bestHeight) (genesis : Hash) :
    s'.buildLocator genesis = s.buildLocator genesis := by
  unfold buildLocator
  simp only [hheight, locatorWalk_congr h]

theorem genesis_mem_buildLocator (s : HeaderSync) (genesis : Hash) :
    genesis ∈ s.buildLocator genesis := by
  unfold buildLocator
  simp only
  split
  · exact mem_of_getLast? ‹_›
  · exact mem_append_right _ mem_cons_self

theorem locatorWalk_eq_append (ix : HeaderIndex) (fuel height step : Nat) (locator : List Hash) :
    ∃ more, locatorWalk ix fuel height step locator = locator ++ more := by
  induction fuel generalizing height step locator with
  | zero => exact ⟨[], (append_nil _).symm⟩
  | succ fuel ih =>
    obtain ⟨next, heq⟩ := exists_locatorWalk_succ ix fuel height step locator
    rw [heq]
    split
    · exact ⟨_, rfl⟩
    · obtain ⟨more, hmore⟩ := ih (height - next) next
        (locator ++ (ix.getHashAtHeight height).toList)
      exact ⟨_, hmore.trans (append_assoc _ _ _)⟩

/-- The locator starts with the best header, if the height index names it. -/
theorem head?_buildLocator {s : HeaderSync} {hash : Hash}
    (h : s.headerIndex.heightIndex s.bestHeight = some hash) (genesis : Hash) :
    (s.buildLocator genesis).head? = some hash := by
  have hwalk : ∃ more, locatorWalk s.headerIndex (s.bestHeight + 1) s.bestHeight 1 []
      = hash :: more := by
    obtain ⟨next, heq⟩ := exists_locatorWalk_succ s.headerIndex s.bestHeight s.bestHeight 1 []
    rw [heq, HeaderIndex.getHashAtHeight, h]
    split
    · exact ⟨[], rfl⟩
    · exact locatorWalk_eq_append _ _ _ _ _
  obtain ⟨more, hmore⟩ := hwalk
  unfold buildLocator
  rw [hmore]
  simp only
  split <;> rfl

end HeaderSync

/-! ## Replies to locators -/

/-- The bound on the hashes of a reply to `getblocks`. -/
def maxBlocksResults : Nat := 500

namespace HeaderIndex

/-- The height after the first block of a locator that is stored. -/
def blocksLocatorStart (ix : HeaderIndex) (locator : List Hash) : Nat :=
  ((locator.findSome? ix.getHeader).map fun stored => stored.height + 1).getD 0

/-- At most `n` canonical hashes from a height on, up to the block `stopHash`
unless that is zero. -/
def collectHashes (ix : HeaderIndex) (stopHash : Hash) : Nat → Nat → List Hash
  | 0, _ => []
  | n + 1, height =>
    match ix.getHashAtHeight height with
    | none => []
    | some hash =>
      hash :: if stopHash ≠ Hash.allZeros ∧ hash = stopHash then []
        else ix.collectHashes stopHash n (height + 1)

/-- **The reply to a request for blocks.** -/
def serveBlocks (ix : HeaderIndex) (locator : List Hash) (stopHash : Hash) : List Hash :=
  ix.collectHashes stopHash maxBlocksResults (ix.blocksLocatorStart locator)

section

variable [Hashing] (first : StoredHeader) (chain : List Header) (locator : List Hash)
  (ix : HeaderIndex)

/-- **A reply connects**: its hashes are consecutive blocks of the chain, no more
than the bound and none after the stop hash; if it starts with the first block,
no block of the locator lies on the chain, and else the first that does is the
parent of the first block sent. -/
structure Connects (stopHash : Hash) (bound : Nat) (reply : List Hash) : Prop where
  consecutive : ∃ start, reply <+: (chainHashes first chain).drop start
  bounded : reply.length ≤ bound
  stop : stopHash ≠ Hash.allZeros → stopHash ∉ reply.dropLast
  parent : ∀ hash stored, reply.head? = some hash → ix.headers hash = some stored →
    firstOnChain first chain locator
      = if hash = first.header.blockHash then none else some stored.header.prevBlockhash

/-- **The first stored block of a locator leads on**: it is not below the tip of
the chain, or the block of the chain at its height is the first of the locator
that lies on the chain. -/
def LeadsOn : Prop :=
  ∀ stored, locator.findSome? ix.getHeader = some stored → chain.length ≤ stored.height
    ∨ firstOnChain first chain locator = (chainHashes first chain)[stored.height]?

end

/-- Both replies to every locator connect. -/
def RepliesConnect : Prop :=
  ∀ [Hashing] (ix : HeaderIndex) (first : StoredHeader) (chain : List Header)
    (locator : List Hash) (stopHash : Hash), ix.Serves first chain →
    HeaderSync.Follows (first.header :: chain) →
    Connects first chain locator ix stopHash maxHeadersResults
        ((ix.serveHeaders locator stopHash).map Header.blockHash)
      ∧ Connects first chain locator ix stopHash maxBlocksResults (ix.serveBlocks locator stopHash)

section

variable [Hashing] {ix : HeaderIndex} {first : StoredHeader} {chain : List Header}
  (h : ix.Serves first chain)
include h

/-- What is collected from a height on. -/
theorem Serves.collectHashes_spec (stopHash : Hash) (n k : Nat) :
    ix.collectHashes stopHash n k <+: (chainHashes first chain).drop k
      ∧ (ix.collectHashes stopHash n k).length ≤ n
      ∧ (stopHash ≠ Hash.allZeros → stopHash ∉ (ix.collectHashes stopHash n k).dropLast)
      ∧ (0 < n → (ix.collectHashes stopHash n k).head? = ix.heightIndex k)
      ∧ (ix.collectHeaders stopHash n k).map Header.blockHash = ix.collectHashes stopHash n k := by
  induction n generalizing k with
  | zero => exact ⟨List.nil_prefix, le_refl 0, fun _ => not_mem_nil, fun hn => (by cases hn), rfl⟩
  | succ n ih =>
    unfold collectHashes collectHeaders
    by_cases hk : k ≤ chain.length
    · obtain ⟨hlt, hget⟩ := List.getElem?_eq_some_iff.mp
        ((h.heightIndex_eq k).symm.trans (h.named k hk))
      obtain ⟨hsub, hlen, hstop, -, hmap⟩ := ih (k + 1)
      obtain ⟨stored, hstored, hheader, -⟩ := h.stored k hk
      simp only [getHashAtHeight, getHeader, h.named k hk, hstored, hheader, map_cons,
        drop_eq_getElem_cons hlt, hget, head?_cons, prefix_cons_inj, length_cons]
      by_cases hend : stopHash ≠ Hash.allZeros ∧ (chainAt first chain k).header.blockHash = stopHash
      · simp only [if_pos hend]
        exact ⟨List.nil_prefix, le_add_left _ _, fun _ => not_mem_nil, fun _ => trivial, rfl⟩
      · simp only [if_neg hend, hmap]
        refine ⟨hsub, succ_le_succ hlen, fun hne hin => ?_, fun _ => trivial, trivial⟩
        -- the hash is met before the last one only if it is met further on
        by_cases hnil : ix.collectHashes stopHash n (k + 1) = []
        · rw [hnil] at hin
          cases hin
        · rw [dropLast_cons_of_ne_nil hnil, mem_cons] at hin
          exact hin.elim (fun heq => hend ⟨hne, heq.symm⟩) (hstop hne)
    · simp only [getHashAtHeight, h.above k (Nat.lt_of_not_le hk)]
      exact ⟨List.nil_prefix, Nat.zero_le _, fun _ => not_mem_nil, fun _ => rfl, rfl⟩

variable (hfollows : HeaderSync.Follows (first.header :: chain))
include hfollows

/-- The block under a height is the parent of the block there. -/
theorem Serves.hashUnder_eq {start : Nat} (hle : start ≤ chain.length) :
    hashUnder first chain start =
      if (chainAt first chain start).header.blockHash = first.header.blockHash then none
      else some (chainAt first chain start).header.prevBlockhash := by
  cases start with
  | zero => exact (if_pos rfl).symm
  | succ k =>
    have hother : (chainAt first chain (k + 1)).header.blockHash ≠ first.header.blockHash := by
      intro heq
      obtain ⟨root, hroot, -, hzero⟩ := h.stored 0 (zero_le _)
      obtain ⟨stored, hstored, -, hheight⟩ := h.stored (k + 1) hle
      rw [heq] at hstored
      obtain rfl := Option.mem_unique hroot hstored
      omega
    rw [if_neg hother, prevBlockhash_chainAt_succ hfollows hle, hashUnder, ← h.heightIndex_eq,
      h.named k (le_of_succ_le hle)]

variable (locator : List Hash) (stopHash : Hash)

/-- **A reply that starts at a height** connects if and only if it is empty or
that is the height after the first block of the locator on the chain. -/
theorem Serves.connects_iff {n start : Nat} (hn : 0 < n) :
    Connects first chain locator ix stopHash n (ix.collectHashes stopHash n start)
      ↔ chain.length < start ∨ firstOnChain first chain locator = hashUnder first chain start := by
  obtain ⟨hsub, hlen, hstop, hhead, -⟩ := h.collectHashes_spec stopHash n start
  specialize hhead hn
  rcases lt_or_ge chain.length start with hlt | hle
  · refine iff_of_true ⟨⟨start, hsub⟩, hlen, hstop, fun hash stored hhash => ?_⟩ (Or.inl hlt)
    rw [hhead, h.above _ hlt] at hhash
    cases hhash
  · rw [h.named _ hle] at hhead
    obtain ⟨served, hserved, hheader, -⟩ := h.stored _ hle
    rw [h.hashUnder_eq hfollows hle, or_iff_right (not_lt.mpr hle)]
    constructor
    · rw [← hheader] at hhead hserved ⊢
      exact fun hconnects => hconnects.parent _ _ hhead hserved
    · refine fun hfirst => ⟨⟨start, hsub⟩, hlen, hstop, fun hash stored hhash hstored => ?_⟩
      obtain rfl := Option.mem_unique hhead hhash
      obtain rfl := Option.mem_unique hserved hstored
      exact hheader ▸ hfirst

/-- **Replies to locators**: a reply to `getheaders` connects; one to `getblocks`
does if and only if the first stored block of the locator leads on. -/
theorem connects_replies :
    Connects first chain locator ix stopHash maxHeadersResults
        ((ix.serveHeaders locator stopHash).map Header.blockHash)
      ∧ (Connects first chain locator ix stopHash maxBlocksResults (ix.serveBlocks locator stopHash)
        ↔ LeadsOn first chain locator ix) := by
  constructor
  · rw [serveHeaders, (h.collectHashes_spec stopHash _ _).2.2.2.2]
    exact (h.connects_iff hfollows _ _ (by decide)).mpr (Or.inr (h.firstOnChain_eq locator))
  · rw [serveBlocks, h.connects_iff hfollows _ _ (by decide), LeadsOn, blocksLocatorStart]
    cases hfirst : locator.findSome? ix.getHeader with
    | none =>
      -- no block of the locator is stored, so none lies on the chain
      refine iff_of_true (Or.inr (find?_eq_none.mpr fun a ha hin => ?_)) fun _ heq => by cases heq
      obtain ⟨stored, hstored, -⟩ := h.mem_iff.mp (of_decide_eq_true hin)
      cases (findSome?_eq_none_iff.mp hfirst a ha).symm.trans hstored
    | some stored =>
      constructor
      · rintro hright stored' heq
        obtain rfl := Option.some.inj heq
        exact hright.imp_left le_of_lt_succ
      · exact fun hleads => (hleads stored rfl).imp_left lt_succ_of_le

end

section Sample

attribute [local instance] sampleHashing

/-- Blocks 1, 2 and 3 in a row. -/
def rowFirst : StoredHeader := ⟨sampleHeader 0 1 0 0, 0, zeroWork⟩

@[inherit_doc rowFirst]
def rowChain : List Header := [sampleHeader 1 2 1 0, sampleHeader 2 3 2 0]

/-- Block 4, on block 1, is stored beside them. -/
def sideIndex : HeaderIndex :=
  { HeaderIndex.empty with
    headers := fun hash => (rowFirst.child (sampleHeader 1 4 1 0)
      :: (List.range 3).map (chainAt rowFirst rowChain)).find? (·.header.blockHash = hash)
    heightIndex := fun i => (chainHashes rowFirst rowChain)[i]? }

theorem serves_sideIndex : sideIndex.Serves rowFirst rowChain where
  named := by decide
  above := fun i hi => getElem?_eq_none hi
  stored := by
    intro i hi
    change i ≤ 2 at hi
    obtain rfl | rfl | rfl : i = 0 ∨ i = 1 ∨ i = 2 := by omega
    all_goals exact ⟨_, rfl, rfl, rfl⟩

theorem follows_rowChain : HeaderSync.Follows (rowFirst.header :: rowChain) :=
  .cons_cons rfl (.cons_cons rfl (.singleton _))

/-- Block 2 of a locator leads on to block 3. -/
theorem connects_serveBlocks_sideIndex : Connects rowFirst rowChain [2#256] sideIndex
    Hash.allZeros maxBlocksResults (sideIndex.serveBlocks [2#256] Hash.allZeros) := by
  refine (connects_replies serves_sideIndex follows_rowChain _ _).2.mpr fun stored heq => ?_
  obtain rfl := Option.some.inj heq
  exact Or.inr (by decide)

/-- **A block beside the chain leads astray**: for block 4 and block 1 the reply
to `getblocks` starts with block 3, whose parent is neither. -/
theorem not_repliesConnect : ¬ RepliesConnect := by
  intro h
  have hparent := (h sideIndex _ _ [4#256, 1#256] Hash.allZeros serves_sideIndex
    follows_rowChain).2.parent 3#256 (chainAt rowFirst rowChain 2) rfl rfl
  exact absurd hparent (by decide)

end Sample

end HeaderIndex
