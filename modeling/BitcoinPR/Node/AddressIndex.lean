import BitcoinPR.Index.Replay
import BitcoinPR.Node.Indexed

/-!
# Who writes the index of addresses

Three parts of the node index blocks by address. The loop that drains received
blocks indexes each block it connects, unless a backfill is running or the
initial download is not over. A block that is mined here is indexed when it is
connected, whatever else is running. And background tasks fill gaps: one is
started with the node, one when the initial download ends, and every ten seconds
one is started if the index is behind.

They are kept apart by two flags, one for the task of the start and one for the
others, and the check that is made every ten seconds looks at the second alone.
So while the task of the start runs, another is started over the same blocks,
and these are indexed twice (`not_alwaysReplays`). And nothing is done about
blocks that leave the chain.

`AddressNode` is the node with its index of addresses. If every block that is
indexed is the one above those indexed before, and no indexed block leaves the
chain, then an index that has caught up is a replay of the chain
(`AddressNode.index_eq_replay`).
-/

open List ActiveChain

/-- The two flags. -/
inductive BackfillFlag where
  /-- The task of the start. -/
  | startup
  /-- All other tasks. -/
  | catchup
deriving DecidableEq, Repr

/-- A background task: the flag it clears, the next height and the last. -/
structure Backfill where
  flag : BackfillFlag
  next : Nat
  toHeight : Nat
deriving DecidableEq, Repr

/-- **A node that indexes addresses.** -/
structure AddressNode where
  chain : IndexedChain
  index : ScripthashIndex
  /-- The initial download is not over. -/
  isIbd : Bool
  backfillRunning : Bool
  catchupRunning : Bool
  tasks : List Backfill

/-- What happens to the node. Blocks on disk and the order of a hash map are
given where they are read. -/
inductive AddressEvent where
  /-- The chain changes without the index: a block is connected by a replay or a
  call, disconnected, or rolled back. -/
  | chain (e : IndexEvent)
  /-- A received block is connected; `ibdDone` if it ends the initial download. -/
  | drain (env : Env) (blocks : Hash → Option Block) (ρ : IterOrder OutPoint) (block : Block)
      (height : UInt32) (ibdDone : Bool)
  /-- A block mined here is connected. -/
  | mined (env : Env) (blocks : Hash → Option Block) (ρ : IterOrder OutPoint) (block : Block)
      (height : UInt32)
  /-- The initial download ends without a block; not in every place is a task
  started. -/
  | ibdComplete (backfill : Bool)
  /-- The check every ten seconds. -/
  | catchUp
  /-- A task goes on by one height. -/
  | tick (task : Nat) (blocks : Hash → Option Block) (ρ : IterOrder OutPoint)
  /-- The node is started again, in the initial download. -/
  | restart (cacheCapacity writeBufferBudget : Nat) (catchingUp : Bool)

namespace AddressNode

/-- A node at the first block, with an empty index. -/
def start (s : ChainState) : AddressNode :=
  ⟨.start s, .empty true, true, false, false, []⟩

/-- The height last indexed. -/
def indexedHeight (n : AddressNode) : Nat := n.index.getIndexedHeight.getD 0

/-- The blocks of the active chain above the first, lowest first. -/
def active (n : AddressNode) : List Block := n.chain.connected.reverse

/-- **The index has caught up** with the tip. -/
def CaughtUp (n : AddressNode) : Prop := n.indexedHeight = n.chain.state.bestHeight

/-- Set a flag. -/
def setFlag (n : AddressNode) (flag : BackfillFlag) (running : Bool) : AddressNode :=
  match flag with
  | .startup => { n with backfillRunning := running }
  | .catchup => { n with catchupRunning := running }

/-- Start a task if the index is behind a height. -/
def spawnScripthashBackfill (n : AddressNode) (flag : BackfillFlag) (toHeight : Nat) :
    AddressNode :=
  if n.indexedHeight < toHeight then
    { n.setFlag flag true with tasks := n.tasks ++ [⟨flag, n.indexedHeight + 1, toHeight⟩] }
  else n

/-- The initial download ends, at a height. -/
def endIbd (n : AddressNode) (backfill : Bool) (height : Nat) : AddressNode :=
  if n.isIbd && backfill then
    { n with isIbd := false }.spawnScripthashBackfill .catchup height
  else { n with isIbd := false }

variable [Hashing] [ScriptCrypto]

/-- Index a block. -/
def indexBlock (n : AddressNode) (blocks : Hash → Option Block) (ρ : IterOrder OutPoint)
    (block : Block) (height : UInt32) : AddressNode :=
  { n with
    index := n.index.indexBlockTransactions ρ (resolveSpentOutput n.chain.txIndex blocks) block
      height }

/-- Whether the drain loop indexes the block it has connected. -/
def indexesInline (n : AddressNode) : Bool :=
  !(n.backfillRunning || n.catchupRunning) && !n.isIbd

/-- The block a task reads for a height. -/
def storedAt (n : AddressNode) (blocks : Hash → Option Block) (height : Nat) : Option Block :=
  (n.chain.state.headerIndex.getHashAtHeight height).bind blocks

/-- A task goes on: it indexes a block or skips it, or ends. -/
def tickTask (n : AddressNode) (task : Nat) (t : Backfill) (blocks : Hash → Option Block)
    (ρ : IterOrder OutPoint) : AddressNode :=
  if t.next ≤ t.toHeight then
    let n := match n.storedAt blocks t.next with
      | some block => n.indexBlock blocks ρ block (UInt32.ofNat t.next)
      | none => n
    { n with tasks := n.tasks.set task { t with next := t.next + 1 } }
  else
    { n.setFlag t.flag false with
      index := n.index.clearResolverCache
      tasks := n.tasks.eraseIdx task }

variable [ScriptEngine]

/-- Connect a block; the flag says whether it was. -/
def connect (genesis : Block) (n : AddressNode) (env : Env) (block : Block) (height : UInt32) :
    Bool × AddressNode :=
  ((n.chain.state.connectBlock env block height.toNat).1.isOk,
    { n with chain := n.chain.step genesis (.connect env block height) })

/-- The node after a received block has been connected and before it may be
indexed. -/
def drained (genesis : Block) (n : AddressNode) (env : Env) (block : Block) (height : UInt32)
    (ibdDone : Bool) : AddressNode :=
  if ibdDone then (n.connect genesis env block height).2.endIbd true height.toNat
  else (n.connect genesis env block height).2

/-- One event; `genesis` is the first block. -/
def step (genesis : Block) (n : AddressNode) : AddressEvent → AddressNode
  | .chain e => { n with chain := n.chain.step genesis e }
  | .drain env blocks ρ block height ibdDone =>
    if (n.connect genesis env block height).1 then
      let n := n.drained genesis env block height ibdDone
      if n.indexesInline then n.indexBlock blocks ρ block height else n
    else (n.connect genesis env block height).2
  | .mined env blocks ρ block height =>
    if (n.connect genesis env block height).1 then
      (n.connect genesis env block height).2.indexBlock blocks ρ block height
    else (n.connect genesis env block height).2
  | .ibdComplete backfill => n.endIbd backfill n.chain.state.bestHeight
  | .catchUp =>
    if !n.isIbd && !n.catchupRunning then
      n.spawnScripthashBackfill .catchup n.chain.state.bestHeight
    else n
  | .tick task blocks ρ =>
    match n.tasks[task]? with
    | some t => n.tickTask task t blocks ρ
    | none => n
  | .restart cacheCapacity writeBufferBudget catchingUp =>
    let n : AddressNode :=
      ⟨n.chain.step genesis (.restart cacheCapacity writeBufferBudget),
        n.index.clearResolverCache, true, false, false, []⟩
    if catchingUp then n else n.spawnScripthashBackfill .startup n.chain.state.bestHeight

/-- A run of events. -/
def run (genesis : Block) (n : AddressNode) (events : List AddressEvent) : AddressNode :=
  events.foldl (step genesis) n

/-- The event can happen to the chain. A restart is one of the node. -/
def Possible (n : AddressNode) : AddressEvent → Prop
  | .chain (.restart _ _) => False
  | .chain e => n.chain.Possible e
  | .drain env _ _ block height _ => n.chain.Possible (.connect env block height)
  | .mined env _ _ block height => n.chain.Possible (.connect env block height)
  | _ => True

/-- **The block is the next to be indexed**: it is the block of the active chain
above those indexed, the chain up to it is valid and does not repeat an id of
the first block, and what is below it can be found. -/
structure IsNext (genesis : Block) (n : AddressNode) (blocks : Hash → Option Block) (block : Block)
    (height : Nat) : Prop where
  height_eq : height = n.indexedHeight + 1
  active : n.active[n.indexedHeight]? = some block
  valid : Valid (n.active.take (n.indexedHeight + 1))
  apart : ∀ tx ∈ txs (n.active.take (n.indexedHeight + 1)),
    tx.computeTxid ∉ genesis.txids
  findable : Findable n.chain.txIndex blocks (n.active.take n.indexedHeight)

/-- **Blocks are indexed in order and stay.** -/
def Keeps (genesis : Block) (n : AddressNode) : AddressEvent → Prop
  | .chain (.disconnect _ _ _) => n.indexedHeight < n.chain.connected.length
  | .chain .rollback => n.indexedHeight < n.chain.connected.length
  | .chain _ => True
  | .drain env blocks _ block height ibdDone =>
    (n.connect genesis env block height).1 = true →
      (n.drained genesis env block height ibdDone).indexesInline = true →
      (n.drained genesis env block height ibdDone).IsNext genesis blocks block height.toNat
  | .mined env blocks _ block height =>
    (n.connect genesis env block height).1 = true →
      (n.connect genesis env block height).2.IsNext genesis blocks block height.toNat
  | .tick task blocks _ => ∀ t block, n.tasks[task]? = some t → t.next ≤ t.toHeight →
      n.storedAt blocks t.next = some block → n.IsNext genesis blocks block t.next
  | .restart _ _ _ => n.indexedHeight ≤ n.chain.flushed.length
      ∧ n.chain.flushed.reverse.take n.indexedHeight = n.active.take n.indexedHeight
  | _ => True

/-- Every event of a run can happen. -/
def AllPossible (genesis : Block) : AddressNode → List AddressEvent → Prop
  | _, [] => True
  | n, e :: events => n.Possible e ∧ AllPossible genesis (n.step genesis e) events

/-- In a run blocks are indexed in order and stay. -/
def AllKeep (genesis : Block) : AddressNode → List AddressEvent → Prop
  | _, [] => True
  | n, e :: events => n.Keeps genesis e ∧ AllKeep genesis (n.step genesis e) events

end AddressNode

/-! ## Replays along runs -/

namespace AddressNode

variable [Hashing] [ScriptCrypto] {genesis : Block} {n n' : AddressNode}

/-- **The index is a replay** of the chain up to the height last indexed. -/
structure Follows (genesis : Block) (n : AddressNode) : Prop where
  haveResolver : n.index.haveResolver = true
  le : n.indexedHeight ≤ n.active.length
  replayed : Replayed n.index (n.active.take n.indexedHeight)
  apart : ∀ tx ∈ txs (n.active.take n.indexedHeight), tx.computeTxid ∉ genesis.txids

variable (h : n.Follows genesis)
include h

/-- The chain changes above what is indexed. -/
theorem Follows.of_take (hindex : n'.index = n.index)
    (hle : n.indexedHeight ≤ n'.active.length)
    (htake : n'.active.take n.indexedHeight = n.active.take n.indexedHeight) :
    n'.Follows genesis := by
  have hheight : n'.indexedHeight = n.indexedHeight := by
    unfold indexedHeight
    rw [hindex]
  refine ⟨?_, ?_, ?_, ?_⟩
  · rw [hindex]
    exact h.haveResolver
  · rw [hheight]
    exact hle
  · rw [hheight, hindex, htake]
    exact h.replayed
  · rw [hheight, htake]
    exact h.apart

/-- Flags and tasks do not matter. -/
theorem Follows.of_eq (hindex : n'.index = n.index)
    (hchain : n'.chain = n.chain) : n'.Follows genesis := by
  have hactive : n'.active = n.active := by
    unfold active
    rw [hchain]
  exact h.of_take hindex (hactive ▸ h.le) (hactive ▸ rfl)

/-- The cache does not matter. -/
theorem Follows.clear
    (hindex : n'.index = n.index.clearResolverCache) (hchain : n'.chain = n.chain) :
    n'.Follows genesis := by
  have hheight : n'.indexedHeight = n.indexedHeight := by
    unfold indexedHeight
    rw [hindex]
    rfl
  have hactive : n'.active = n.active := by
    unfold active
    rw [hchain]
  refine ⟨?_, ?_, ?_, ?_⟩
  · rw [hindex]
    exact h.haveResolver
  · rw [hheight, hactive]
    exact h.le
  · rw [hheight, hactive, hindex]
    exact h.replayed.clear
  · rw [hheight, hactive]
    exact h.apart

/-- **Indexing the next block.** -/
theorem Follows.indexBlock {blocks : Hash → Option Block} {block : Block}
    {height : UInt32} (hnext : n.IsNext genesis blocks block height.toNat)
    (ρ : IterOrder OutPoint) : (n.indexBlock blocks ρ block height).Follows genesis := by
  have hlt : n.indexedHeight < n.active.length := (List.getElem?_eq_some_iff.mp hnext.active).1
  have htake : n.active.take (n.indexedHeight + 1) = n.active.take n.indexedHeight ++ [block] := by
    rw [take_add_one, hnext.active]
    rfl
  have hlength : (n.active.take n.indexedHeight).length = n.indexedHeight :=
    length_take_of_le h.le
  have hheight : UInt32.ofNat ((n.active.take n.indexedHeight).length + 1) = height := by
    rw [hlength, ← hnext.height_eq, UInt32.ofNat_toNat]
  have hreplayed := h.replayed.index (htake ▸ hnext.valid) h.haveResolver hnext.findable ρ
  rw [hheight] at hreplayed
  have hnew : (n.indexBlock blocks ρ block height).indexedHeight = n.indexedHeight + 1 := by
    have heq := hreplayed.height
    rw [length_append, hlength] at heq
    exact heq
  refine ⟨h.haveResolver, ?_, ?_, ?_⟩
  · rw [hnew]
    exact hlt
  · rw [hnew]
    show Replayed _ (n.active.take (n.indexedHeight + 1))
    rw [htake]
    exact hreplayed
  · rw [hnew]
    exact hnext.apart

theorem Follows.spawn (flag : BackfillFlag) (toHeight : Nat) :
    (n.spawnScripthashBackfill flag toHeight).Follows genesis := by
  unfold spawnScripthashBackfill
  split
  · cases flag <;> exact h.of_eq rfl rfl
  · exact h

theorem Follows.endIbd (backfill : Bool) (height : Nat) :
    (n.endIbd backfill height).Follows genesis := by
  have hended : ({ n with isIbd := false } : AddressNode).Follows genesis := h.of_eq rfl rfl
  unfold AddressNode.endIbd
  split
  · exact hended.spawn _ _
  · exact hended

/-- **A task goes on.** -/
theorem Follows.tickTask {task : Nat} {t : Backfill}
    {blocks : Hash → Option Block}
    (hnext : ∀ block, t.next ≤ t.toHeight → n.storedAt blocks t.next = some block →
      n.IsNext genesis blocks block t.next) (ρ : IterOrder OutPoint) :
    (n.tickTask task t blocks ρ).Follows genesis := by
  unfold AddressNode.tickTask
  split
  · rename_i hle
    cases hstored : n.storedAt blocks t.next with
    | none => exact h.of_eq rfl rfl
    | some block =>
      have hblock := hnext block hle hstored
      have hlt : t.next < 2 ^ 32 := by
        have hlength := hblock.valid.length_lt
        rw [List.length_take_of_le (List.getElem?_eq_some_iff.mp hblock.active).1] at hlength
        rw [hblock.height_eq]
        exact hlength
      have hword : (UInt32.ofNat t.next).toNat = t.next := by
        rw [UInt32.toNat_ofNat', Nat.mod_eq_of_lt hlt]
      rw [← hword] at hblock
      exact (h.indexBlock hblock ρ).of_eq rfl rfl
  · cases t.flag <;> exact h.clear rfl rfl

variable [ScriptEngine]

/-- **The chain changes** and the blocks indexed stay. -/
theorem Follows.chain {e : IndexEvent}
    (hpossible : n.Possible (.chain e)) (hkeeps : n.Keeps genesis (.chain e)) :
    ({ n with chain := n.chain.step genesis e } : AddressNode).Follows genesis := by
  have hstep := IndexedChain.stepped_step genesis n.chain e
  have hle : n.indexedHeight ≤ n.chain.connected.length := by
    have hle := h.le
    unfold active at hle
    rwa [length_reverse] at hle
  -- the blocks below the last are as they were
  have htail : n.indexedHeight < n.chain.connected.length →
      n.indexedHeight ≤ n.chain.connected.tail.reverse.length
        ∧ n.chain.connected.tail.reverse.take n.indexedHeight
          = n.chain.connected.reverse.take n.indexedHeight := fun hlt => by
    rw [← dropLast_reverse, dropLast_eq_take, length_take, take_take, length_reverse]
    constructor
    · omega
    · congr 1
      omega
  generalize n.chain.step genesis e = c' at hstep ⊢
  cases hstep with
  | connected hconnect =>
    refine h.of_take rfl ?_ ?_
    · show n.indexedHeight ≤ (_ :: n.chain.connected).reverse.length
      rw [length_reverse, length_cons]
      omega
    · show (_ :: n.chain.connected).reverse.take n.indexedHeight = _
      rw [reverse_cons, take_append_of_le_length (by rw [length_reverse]; exact hle)]
      rfl
  | refused hrej => exact h.of_take rfl h.le rfl
  | disconnected hdisconnect => exact h.of_take rfl (htail hkeeps).1 (htail hkeeps).2
  | rolledBack hroll => exact h.of_take rfl (htail hkeeps).1 (htail hkeeps).2
  | flushed => exact h.of_take rfl h.le rfl
  | restarted => exact hpossible.elim
  | backfilled hhash hblock => exact h.of_take rfl h.le rfl
  | unchanged => exact h.of_take rfl h.le rfl

/-- **One event.** -/
theorem Follows.step {e : AddressEvent} (hpossible : n.Possible e)
    (hkeeps : n.Keeps genesis e) : (n.step genesis e).Follows genesis := by
  cases e with
  | chain e => exact h.chain hpossible hkeeps
  | drain env blocks ρ block height ibdDone =>
    have hconnect : (n.connect genesis env block height).2.Follows genesis :=
      h.chain (e := .connect env block height) hpossible trivial
    have hdrained : (n.drained genesis env block height ibdDone).Follows genesis := by
      unfold drained
      split
      · exact hconnect.endIbd _ _
      · exact hconnect
    simp only [AddressNode.step]
    split
    · rename_i hok
      split
      · rename_i hinline
        exact hdrained.indexBlock (hkeeps hok hinline) ρ
      · exact hdrained
    · exact hconnect
  | mined env blocks ρ block height =>
    have hconnect : (n.connect genesis env block height).2.Follows genesis :=
      h.chain (e := .connect env block height) hpossible trivial
    simp only [AddressNode.step]
    split
    · rename_i hok
      exact hconnect.indexBlock (hkeeps hok) ρ
    · exact hconnect
  | ibdComplete backfill => exact h.endIbd _ _
  | catchUp =>
    simp only [AddressNode.step]
    split
    · exact h.spawn _ _
    · exact h
  | tick task blocks ρ =>
    simp only [AddressNode.step]
    split
    · rename_i t ht
      exact h.tickTask (fun block => hkeeps t block ht) ρ
    · exact h
  | restart cacheCapacity writeBufferBudget catchingUp =>
    have hrestarted : (⟨n.chain.step genesis (.restart cacheCapacity writeBufferBudget), n.index,
        true, false, false, []⟩ : AddressNode).Follows genesis :=
      h.of_take rfl (by rw [active, length_reverse]; exact hkeeps.1) hkeeps.2
    have hcleared : (⟨n.chain.step genesis (.restart cacheCapacity writeBufferBudget),
        n.index.clearResolverCache, true, false, false, []⟩ : AddressNode).Follows genesis :=
      hrestarted.clear rfl rfl
    simp only [AddressNode.step]
    split
    · exact hcleared
    · exact hcleared.spawn _ _

/-! ## The chain below the index -/

omit h

/-- What an event is to the chain. -/
def onChain : AddressEvent → Option IndexEvent
  | .chain e => some e
  | .drain env _ _ block height _ => some (.connect env block height)
  | .mined env _ _ block height => some (.connect env block height)
  | .restart cacheCapacity writeBufferBudget _ => some (.restart cacheCapacity writeBufferBudget)
  | _ => none

omit [Hashing] [ScriptCrypto] [ScriptEngine] in
@[simp]
theorem chain_spawnScripthashBackfill (n : AddressNode) (flag : BackfillFlag) (toHeight : Nat) :
    (n.spawnScripthashBackfill flag toHeight).chain = n.chain := by
  unfold spawnScripthashBackfill
  split
  · cases flag <;> rfl
  · rfl

omit [Hashing] [ScriptCrypto] [ScriptEngine] in
@[simp]
theorem chain_endIbd (n : AddressNode) (backfill : Bool) (height : Nat) :
    (n.endIbd backfill height).chain = n.chain := by
  unfold AddressNode.endIbd
  split
  · rw [chain_spawnScripthashBackfill]
  · rfl

omit [ScriptCrypto] in
theorem chain_drained (n : AddressNode) (env : Env) (block : Block) (height : UInt32)
    (ibdDone : Bool) : (n.drained genesis env block height ibdDone).chain
      = n.chain.step genesis (.connect env block height) := by
  unfold drained
  split
  · rw [chain_endIbd]
    rfl
  · rfl

/-- **The index does not change the chain.** -/
theorem chain_step (n : AddressNode) (e : AddressEvent) :
    (n.step genesis e).chain = (onChain e).elim n.chain (n.chain.step genesis) := by
  cases e with
  | chain e => rfl
  | drain env blocks ρ block height ibdDone =>
    simp only [AddressNode.step]
    split
    · split <;> exact n.chain_drained env block height ibdDone
    · rfl
  | mined env blocks ρ block height =>
    simp only [AddressNode.step]
    split <;> rfl
  | ibdComplete backfill => exact chain_endIbd _ _ _
  | catchUp =>
    simp only [AddressNode.step]
    split
    · exact chain_spawnScripthashBackfill _ _ _
    · rfl
  | tick task blocks ρ =>
    simp only [AddressNode.step]
    split
    · rename_i t _
      unfold AddressNode.tickTask
      split
      · cases n.storedAt blocks t.next <;> rfl
      · cases t.flag <;> rfl
    · rfl
  | restart cacheCapacity writeBufferBudget catchingUp =>
    simp only [AddressNode.step]
    split
    · rfl
    · rw [chain_spawnScripthashBackfill]
      rfl

omit [Hashing] [ScriptCrypto] [ScriptEngine] in
theorem Possible.onChain {e : AddressEvent} (h : n.Possible e) {e' : IndexEvent}
    (he : onChain e = some e') : n.chain.Possible e' := by
  cases e with
  | chain e =>
    cases he
    cases e' with
    | restart cacheCapacity writeBufferBudget => exact h.elim
    | _ => exact h
  | drain env blocks ρ block height ibdDone =>
    cases he
    exact h
  | mined env blocks ρ block height =>
    cases he
    exact h
  | ibdComplete backfill => cases he
  | catchUp => cases he
  | tick task blocks ρ => cases he
  | restart cacheCapacity writeBufferBudget catchingUp =>
    cases he
    trivial

/-- Along a run the blocks are those of the chain. -/
theorem tracks_run (h : n.chain.Tracks genesis) {events : List AddressEvent}
    (hpossible : AllPossible genesis n events) :
    (n.run genesis events).chain.Tracks genesis := by
  induction events generalizing n with
  | nil => exact h
  | cons e events ih =>
    refine ih ?_ hpossible.2
    rw [chain_step]
    cases he : onChain e with
    | none => exact h
    | some e' => exact h.stepped (IndexedChain.stepped_step _ _ _) (hpossible.1.onChain he)

/-! ## An index that has caught up -/

/-- **Along a run** in which blocks are indexed in order and stay. -/
theorem Follows.run (h : n.Follows genesis) {events : List AddressEvent}
    (hpossible : AllPossible genesis n events) (hkeep : AllKeep genesis n events) :
    (n.run genesis events).Follows genesis := by
  induction events generalizing n with
  | nil => exact h
  | cons e events ih => exact ih (h.step hpossible.1 hkeep.1) hpossible.2 hkeep.2

/-- **An index that has caught up is a replay of the chain**: the history of a
script is that of the active chain, and its balance what its unspent outputs are
worth, after any run in which blocks are indexed in order and stay. The first
block is not indexed and does not pay to the script. -/
theorem index_eq_replay {network : Network} {s : ChainState} (hs : s.Fresh network)
    (hbest : s.bestHash = genesis.blockHash) {events : List AddressEvent}
    (hpossible : AllPossible genesis (start s) events)
    (hkeep : AllKeep genesis (start s) events)
    (hcaught : ((start s).run genesis events).CaughtUp)
    (hcoinbase : ∀ tx ∈ genesis.txdata, tx.isCoinbase = true) {scripthash : Hash}
    (hpays : ∀ tx ∈ genesis.txdata, tx.output.any (ActiveChain.paysTo scripthash) = false) :
    ((start s).run genesis events).index.getTxHistory scripthash
        = ActiveChain.history (genesis :: ((start s).run genesis events).active) 0 scripthash
      ∧ (((start s).run genesis events).index.getBalance scripthash).confirmed.toNat
        = ActiveChain.balance (genesis :: ((start s).run genesis events).active) scripthash := by
  have hstart : (start s).Follows genesis :=
    ⟨rfl, Nat.zero_le _, replayed_empty true, fun tx htx => (by cases htx)⟩
  have hfollows := hstart.run hpossible hkeep
  have htracks := tracks_run (n := start s) (IndexedChain.tracks_start hs hbest) hpossible
  generalize (start s).run genesis events = n at *
  have hall : n.active.take n.indexedHeight = n.active := by
    refine take_of_length_le ?_
    rw [hcaught, htracks.placed.bestHeight, active, length_reverse]
  have hreplayed := hfollows.replayed
  have hapart := hfollows.apart
  rw [hall] at hreplayed hapart
  have huntouched : Untouched genesis n.active scripthash :=
    ⟨hcoinbase, hpays, hapart⟩
  constructor
  · rw [hreplayed.getTxHistory_eq, huntouched.history_cons hreplayed.closed]
  · rw [hreplayed.balance, huntouched.balance_cons]

end AddressNode

/-- The index answers from the active chain, however blocks are connected and
indexed, tasks are started, and the chain changes. -/
def AlwaysReplays : Prop :=
  ∀ [Hashing] [ScriptEngine] [ScriptCrypto] (network : Network) (genesis : Block) (s : ChainState)
    (events : List AddressEvent), s.Fresh network → s.bestHash = genesis.blockHash →
    AddressNode.AllPossible genesis (.start s) events →
    ((AddressNode.start s).run genesis events).CaughtUp → ∀ scripthash,
    ((AddressNode.start s).run genesis events).index.getTxHistory scripthash
        = history (genesis :: ((AddressNode.start s).run genesis events).active) 0
          scripthash
      ∧ (((AddressNode.start s).run genesis events).index.getBalance scripthash).confirmed.toNat
        = balance (genesis :: ((AddressNode.start s).run genesis events).active)
          scripthash

section Sample

attribute [local instance] sampleHashing sampleScripts Script.sampleCrypto

/-- A first block without transactions. -/
def emptyGenesis : Block := ⟨sampleHeader 0 1 0 0, []⟩

/-- The block above it. -/
def minedBlock : Block := sampleBlock 1 2 10 1 1001 []

/-- The only block on disk. -/
def minedOnDisk (hash : Hash) : Option Block :=
  if hash = 2 then some minedBlock else none

/-- A block is connected in the initial download, and the node is started
again. The download ends at the tip, where no task is started, and the task of
the start and that of the next check both index the block. -/
def twoTasks : List AddressEvent :=
  [.drain sampleEnv minedOnDisk .id minedBlock 1 false, .restart 0 0 false, .ibdComplete false,
    .catchUp, .tick 0 minedOnDisk .id, .tick 1 minedOnDisk .id]

/-- The reward of the block is counted twice. -/
theorem not_alwaysReplays : ¬ AlwaysReplays := by
  intro h
  have hpossible : AddressNode.AllPossible emptyGenesis (.start emptyChain) twoTasks :=
    ⟨⟨by decide +kernel, by decide +kernel⟩, trivial, trivial, trivial, trivial, trivial, trivial⟩
  have hcaught : ((AddressNode.start emptyChain).run emptyGenesis twoTasks).CaughtUp := by
    unfold AddressNode.CaughtUp
    decide +kernel
  obtain ⟨-, hbalance⟩ := h .regtest emptyGenesis emptyChain twoTasks fresh_emptyChain
    (by decide +kernel) hpossible hcaught 0
  exact absurd hbalance (by decide +kernel)

/-- A block with its reward alone is a valid chain. -/
theorem valid_minedBlock : Valid [minedBlock] := by
  refine ⟨⟨by decide +kernel, ?_⟩, by decide, ?_, by decide +kernel, ?_, by decide +kernel⟩
  · intro tx htx
    obtain rfl := mem_singleton.mp htx
    decide
  · intro b hb
    obtain rfl := mem_singleton.mp hb
    decide
  · intro o ho
    cases ho

/-- The initial download ends, and a block is connected and indexed before the node
is started again. -/
def minedNode : AddressNode :=
  (AddressNode.start emptyChain).run emptyGenesis
    [.ibdComplete true, .drain sampleEnv minedOnDisk .id minedBlock 1 false, .restart 0 0 false]

theorem index_eq_replay_minedBlock :
    minedNode.index.getTxHistory 0 = ActiveChain.history (emptyGenesis :: minedNode.active) 0 0
    ∧ (minedNode.index.getBalance 0).confirmed.toNat
      = ActiveChain.balance (emptyGenesis :: minedNode.active) 0 := by
  refine AddressNode.index_eq_replay fresh_emptyChain (by decide +kernel) ?_ ?_ ?_
    (fun tx htx => by cases htx) (fun tx htx => by cases htx)
  · exact ⟨trivial, ⟨by decide +kernel, by decide +kernel⟩, trivial, trivial⟩
  · refine ⟨trivial, fun hok hinline => ⟨by decide +kernel, by decide +kernel, ?_, ?_, ?_⟩,
      ⟨by decide +kernel, by decide +kernel⟩, trivial⟩
    · exact valid_minedBlock
    · intro tx htx hin
      cases hin
    · intro tx htx
      cases htx
  · unfold AddressNode.CaughtUp
    decide +kernel

end Sample
