import BitcoinPR.Node.Recovery
import Mathlib.Data.Finset.Card

/-!
# Blocks between download and validation

A block that has been downloaded waits in a buffer under the hash of its parent
until that parent is the validated tip. Apart from the buffer the node keeps the
set of the blocks received, and does not schedule a block that is in the set:
the set is to hold the hashes of buffered blocks and no others.

The two are kept in step by hand. Eviction and connection take a block out of
both. The other ways out of the buffer – a block that is stale or fails, the end
of a reorganisation, recovery, the clearing of an orphaned pipeline, an
abandoned parent – leave the set alone, and so does the block that is dropped
before it gets in because it is connected already. `Kept` says of an event and
the state it finds that none of this happens to a block of the set; then the set
stays within the buffer.
-/

open List

/-! ## The state -/

/-- The serialized length of a block. -/
def Block.totalSize (b : Block) : Nat :=
  80 + varintSize b.txdata.length + (b.txdata.map Tx.totalSize).sum

/-- A block in the buffer, with the bytes it came in. -/
structure PendingBlock where
  block : Block
  raw : Option Bytes

/-- Buffered blocks by parent, oldest first. -/
abbrev PendingBlocks := AList fun _ : Hash => List PendingBlock

def pendingEntrySize (p : PendingBlock) : Nat := (p.raw.map List.length).getD p.block.totalSize

def pendingTotalBytes (pending : PendingBlocks) : Nat :=
  (pending.entries.map fun e => (e.2.map pendingEntrySize).sum).sum

/-- The bound on the buffer, in bytes. -/
def maxPendingBytes : Nat := 256 * 1024 * 1024

/-- How many times a block may fail. -/
def maxBlockRetries : Nat := 5

/-- How far ahead blocks are fetched. -/
def blockFetchHeightSpan : Nat := 96

/-- Block downloads. Which peer a block is in flight from does not matter
here. -/
structure BlockSync where
  queue : List Hash
  inFlight : Finset Hash
  /-- The blocks asked of each peer. -/
  peerRequests : List (Nat × Finset Hash)
  /-- The peers that do not have a block. -/
  blockNotfoundPeers : Hash → Finset Nat
  /-- The blocks received. -/
  received : Finset Hash

namespace BlockSync

def new : BlockSync := ⟨[], ∅, [], fun _ => ∅, ∅⟩

/-- Queue the blocks that are neither in flight nor received. -/
def schedule (s : BlockSync) (hashes : List Hash) : BlockSync :=
  { s with queue := s.queue ++ hashes.filter fun h => decide (h ∉ s.inFlight ∧ h ∉ s.received) }

/-- Forget what was asked of whom about a block. -/
def dropRequests (s : BlockSync) (hash : Hash) : List (Nat × Finset Hash) :=
  s.peerRequests.map fun p => (p.1, p.2.erase hash)

def blockReceived (s : BlockSync) (hash : Hash) : BlockSync :=
  { s with
    inFlight := s.inFlight.erase hash
    peerRequests := s.dropRequests hash
    received := insert hash s.received
    blockNotfoundPeers := Function.update s.blockNotfoundPeers hash ∅ }

def blockConnected (s : BlockSync) (hash : Hash) : BlockSync :=
  { s with received := s.received.erase hash }

/-- Clear what is queued and in flight. -/
def clearRequests (s : BlockSync) : BlockSync := { s with queue := [], inFlight := ∅ }

/-- Another peer is asked for the block. -/
def outstanding (s : BlockSync) (hash : Hash) : Bool :=
  s.peerRequests.any fun p => decide (hash ∈ p.2)

/-- One block a peer does not have: once `live` peers do not have it, it is
abandoned. -/
def blockNotFound (s : BlockSync) (peer live : Nat) (hash : Hash) : BlockSync × Option Hash :=
  if s.peerRequests.any fun p => p.1 == peer && decide (hash ∈ p.2) then
    let declined := insert peer (s.blockNotfoundPeers hash)
    let s : BlockSync := { s with
      peerRequests := s.peerRequests.map fun p => (p.1, if p.1 = peer then p.2.erase hash else p.2)
      blockNotfoundPeers := Function.update s.blockNotfoundPeers hash declined }
    if hash ∈ s.received then (s, none)
    else if max live 1 ≤ declined.card then
      ({ s with
        inFlight := s.inFlight.erase hash
        queue := s.queue.filter fun h => h != hash
        peerRequests := s.dropRequests hash
        blockNotfoundPeers := Function.update s.blockNotfoundPeers hash ∅ }, some hash)
    else if s.outstanding hash then ({ s with inFlight := insert hash s.inFlight }, none)
    else ({ s with inFlight := s.inFlight.erase hash, queue := hash :: s.queue }, none)
  else (s, none)

/-- The blocks a peer does not have; those to be abandoned come back. -/
def blocksNotFound (s : BlockSync) (peer live : Nat) :
    List Hash → BlockSync × List Hash
  | [] => (s, [])
  | hash :: hashes =>
    let (s, abandoned) := s.blockNotFound peer live hash
    let (s, rest) := s.blocksNotFound peer live hashes
    (s, abandoned.toList ++ rest)

end BlockSync

/-- The node loop: the node, the buffer and the downloads. -/
structure NodeLoop where
  node : Node
  pending : PendingBlocks
  blockSync : BlockSync
  /-- How many times a block has failed. -/
  blockFailureCounts : Hash → Nat

namespace NodeLoop

/-- The block at its height on the chain the height index names. -/
def onBestChain (l : NodeLoop) (hash : Hash) : Bool :=
  match l.node.index.getHeader hash with
  | some stored => decide (l.node.index.getHashAtHeight stored.height = some hash)
  | none => false

/-- The block is on that chain, at or below the validated tip. -/
def alreadyConnected (l : NodeLoop) (hash : Hash) : Bool :=
  match l.node.index.getHeader hash with
  | some stored => decide (stored.height ≤ l.node.chain.bestHeight)
      && decide (l.node.index.getHashAtHeight stored.height = some hash)
  | none => false

/-! ## A block arrives -/

/-- The order of eviction: parents below the tip, unknown ones, then the
highest. -/
def evictionRank (l : NodeLoop) (key : Hash) : Nat :=
  match l.node.index.getHeader key with
  | some stored =>
    if stored.height < l.node.chain.bestHeight then 0 else 2 * 2 ^ 32 + (2 ^ 32 - 1 - stored.height)
  | none => 2 ^ 32

variable [Hashing]

/-- Evict the blocks over the given parents, until no more than `target` bytes
remain. -/
def evictKeys (target : Nat) : List Hash → Nat → NodeLoop → NodeLoop
  | [], _, l => l
  | key :: keys, remaining, l =>
    if remaining ≤ target then l
    else
      match l.pending.lookup key with
      | none => evictKeys target keys remaining l
      | some queue =>
        evictKeys target keys (remaining - (queue.map pendingEntrySize).sum)
          { l with
            pending := l.pending.erase key
            blockSync := { l.blockSync with
              received := l.blockSync.received \ (queue.map fun p => p.block.blockHash).toFinset } }

/-- The parents with blocks to evict, in order; the validated tip is spared. -/
def evictionKeys (l : NodeLoop) (ρ : IterOrder Hash) : List Hash :=
  ((ρ.order l.pending.keys).filter fun k => k != l.node.chain.bestHash).mergeSort
    fun a b => decide (l.evictionRank a ≤ l.evictionRank b)

/-- Buffer a block unless a copy is there already; a buffer that is too large is
cut down to three quarters. -/
def bufferBlock (l : NodeLoop) (block : Block) (raw : Option Bytes) (ρ : IterOrder Hash) :
    NodeLoop :=
  let prev := block.header.prevBlockhash
  let queue := (l.pending.lookup prev).getD []
  if queue.any fun p => decide (p.block.blockHash = block.blockHash) then l
  else
    let l := { l with pending := l.pending.insert prev (queue ++ [⟨block, raw⟩]) }
    let total := pendingTotalBytes l.pending
    if maxPendingBytes < total then
      evictKeys (maxPendingBytes * 3 / 4) (l.evictionKeys ρ) total l
    else l

/-- **A block from a peer**: it is marked as received, dropped if it is
connected already, and buffered otherwise. -/
def handleReceivedBlock (l : NodeLoop) (block : Block) (raw : Option Bytes)
    (ρ : IterOrder Hash) : NodeLoop :=
  let marked := { l with blockSync := l.blockSync.blockReceived block.blockHash }
  if l.alreadyConnected block.blockHash then marked else marked.bufferBlock block raw ρ

/-! ## A block is drained -/

variable [ScriptEngine]

/-- What is left when a block has failed. It is asked for again while there is a
peer to ask and it has not failed too often. -/
def blockFailed (l : NodeLoop) (hash : Hash) (e : CoreError) (retryPeer : Option Nat) :
    NodeLoop :=
  if e.isConsensusInvalid then
    { l with
      pending := ∅
      blockSync := l.blockSync.clearRequests
      blockFailureCounts := Function.update l.blockFailureCounts hash 0 }
  else
    let count := l.blockFailureCounts hash + 1
    let l := { l with blockFailureCounts := Function.update l.blockFailureCounts hash count }
    if maxBlockRetries ≤ count ∨ retryPeer = none then l
    else { l with
      blockSync := { l.blockSync with inFlight := insert hash l.blockSync.inFlight } }

/-- Take the first block over the validated tip out of the buffer. -/
def popBlock (l : NodeLoop) : Option (PendingBlock × NodeLoop) :=
  let tip := l.node.chain.bestHash
  match l.pending.lookup tip with
  | some (entry :: rest) =>
    some (entry, { l with
      pending := if rest.isEmpty then l.pending.erase tip else l.pending.insert tip rest })
  | _ => none

/-- **Drain a block.** -/
def drain (l : NodeLoop) (envs : Nat → Env) (env : Env) (retryPeer : Option Nat) : NodeLoop :=
  match l.popBlock with
  | none => l
  | some (entry, l) =>
    let hash := entry.block.blockHash
    match l.node.drainBlock envs env entry.block with
    | (.stale, node) => { l with node := node }
    | (.connected _, node) =>
      { l with node := node, blockSync := l.blockSync.blockConnected hash }
    | (.failed e, node) => { l with node := node }.blockFailed hash e retryPeer

/-! ## Headers arrive -/

omit [ScriptEngine]

/-- The blocks to fetch, from the one over the validated tip on: those the
height index names, else those of a given map. -/
def fetchHashes (l : NodeLoop) (known : Nat → Option Hash) : List Hash :=
  let start := l.node.chain.bestHeight + 1
  let stop := min l.node.sync.bestHeight (start + blockFetchHeightSpan)
  (List.range (stop + 1 - start)).filterMap fun i =>
    (l.node.index.getHashAtHeight (start + i)).or (known (start + i))

/-- The end of a reorganisation. -/
def finishReorg (l : NodeLoop) (bestChain : List (Nat × Hash)) : NodeLoop :=
  let l := { l with pending := ∅, blockSync := l.blockSync.clearRequests }
  let hashes := l.fetchHashes (PartialMap.putAll (fun _ => none) bestChain)
  { l with blockSync := l.blockSync.schedule hashes }

/-- **A message of headers.** -/
def handleHeaders (l : NodeLoop) (headers : List Header) (envs : Nat → Env)
    (ρ : IterOrder (Nat × Hash)) : NodeLoop :=
  let (result, sync) := l.node.sync.processHeaders headers l.node.chain.bestHeight
  let l := { l with node := l.node.withSync sync }
  match result with
  | .error _ => l
  | .ok accepted =>
    match l.node.headersAccepted accepted with
    | (.stay, node) => { l with node := node }
    | (.reset, node) => { l with
        node := node
        blockSync := { l.blockSync with inFlight := ∅ } }
    | (.reorg, node) =>
      let (ok, node') := node.reorg envs ρ
      let l := { l with node := node', blockSync := { l.blockSync with inFlight := ∅ } }
      if ok then l.finishReorg node.bestChain else l

/-! ## Blocks are not found, downloads stall -/

omit [Hashing]

/-- A block that no peer has: it is asked for again if it is on the best header
chain, and else what is buffered over it goes. -/
def abandonBlock (l : NodeLoop) (hash : Hash) : NodeLoop :=
  if l.onBestChain hash then { l with blockSync := l.blockSync.schedule [hash] }
  else { l with pending := l.pending.erase hash }

def handleNotfound (l : NodeLoop) (peer live : Nat) (hashes : List Hash) : NodeLoop :=
  let (sync, abandoned) := l.blockSync.blocksNotFound peer live hashes
  abandoned.foldl abandonBlock { l with blockSync := sync }

/-- The height of the header tip on disk. -/
def headerTipHeight (l : NodeLoop) : Nat := l.node.index.getHeaderTipHeight.getD 0

/-- Block download is stuck below the header tip: start over from the validated
tip. -/
def resetForkTip (l : NodeLoop) : NodeLoop :=
  if l.node.chain.bestHeight < l.headerTipHeight then
    { l with
      node := l.node.withSync { l.node.sync with
        headerIndex := l.node.index.resetForkHeaderTip l.node.chain.bestHeight
          l.node.chain.bestHash
        bestHeight := l.node.chain.bestHeight
        bestHash := l.node.chain.bestHash
        synced := false }
      pending := ∅
      blockSync := { l.blockSync.clearRequests with received := ∅ } }
  else l

/-- The validated tip is at the header tip, but something is left in the
pipeline. -/
def orphaned (l : NodeLoop) : Bool :=
  (!l.blockSync.queue.isEmpty || decide (l.blockSync.inFlight ≠ ∅) || !l.pending.keys.isEmpty)
    && decide (l.headerTipHeight ≤ l.node.chain.bestHeight) && decide (0 < l.headerTipHeight)

def clearOrphaned (l : NodeLoop) : NodeLoop :=
  if l.orphaned then
    { l with
      pending := ∅
      blockSync := { l.blockSync.clearRequests with
        peerRequests := l.blockSync.peerRequests.map fun p => (p.1, ∅)
        blockNotfoundPeers := fun _ => ∅ } }
  else l

/-- Nothing has been connected for long: forget what was received. -/
def clearReceived (l : NodeLoop) : NodeLoop :=
  if l.blockSync.received = ∅ then l
  else
    let sync := { l.blockSync with received := ∅ }
    { l with blockSync := sync.schedule (l.fetchHashes fun _ => none) }

end NodeLoop

/-! ## Runs -/

/-- What happens to the node loop. Assignment to peers, timeouts and
disconnections only change what is queued, in flight and asked of whom. -/
inductive LoopEvent where
  | block (block : Block) (raw : Option Bytes) (ρ : IterOrder Hash)
  | drain (envs : Nat → Env) (env : Env) (retryPeer : Option Nat)
  | headers (headers : List Header) (envs : Nat → Env) (ρ : IterOrder (Nat × Hash))
  | notfound (peer live : Nat) (hashes : List Hash)
  | schedule (hashes : List Hash)
  | assign (queue : List Hash) (inFlight : Finset Hash) (peerRequests : List (Nat × Finset Hash))
  | resetForkTip
  | clearOrphaned
  | clearReceived

namespace NodeLoop

variable [Hashing] [ScriptEngine]

def step (l : NodeLoop) : LoopEvent → NodeLoop
  | .block block raw ρ => l.handleReceivedBlock block raw ρ
  | .drain envs env retryPeer => l.drain envs env retryPeer
  | .headers headers envs ρ => l.handleHeaders headers envs ρ
  | .notfound peer live hashes => l.handleNotfound peer live hashes
  | .schedule hashes => { l with blockSync := l.blockSync.schedule hashes }
  | .assign queue inFlight peerRequests => { l with blockSync := { l.blockSync with
      queue := queue, inFlight := inFlight, peerRequests := peerRequests } }
  | .resetForkTip => l.resetForkTip
  | .clearOrphaned => l.clearOrphaned
  | .clearReceived => l.clearReceived

def run (l : NodeLoop) (events : List LoopEvent) : NodeLoop := events.foldl step l

end NodeLoop

/-! ## The set of received blocks stays within the buffer -/

/-- A block of this hash is in the buffer. -/
def PendingBlocks.Buffered [Hashing] (pending : PendingBlocks) (hash : Hash) : Prop :=
  ∃ prev queue, pending.lookup prev = some queue ∧ ∃ p ∈ queue, p.block.blockHash = hash

namespace PendingBlocks.Buffered

variable [Hashing] {pending : PendingBlocks} {hash key : Hash} {queue : List PendingBlock}

/-- Replacing the queue of one parent. -/
theorem insert (h : pending.Buffered hash)
    (hkeep : ∀ old, pending.lookup key = some old → ∀ p ∈ old, p.block.blockHash = hash →
      p ∈ queue) : PendingBlocks.Buffered (pending.insert key queue) hash := by
  obtain ⟨prev, old, hlookup, p, hp, hhash⟩ := h
  by_cases hprev : prev = key
  · subst hprev
    exact ⟨prev, queue, AList.lookup_insert pending, p, hkeep old hlookup p hp hhash, hhash⟩
  · exact ⟨prev, old, (AList.lookup_insert_ne hprev).trans hlookup, p, hp, hhash⟩

/-- Dropping the queue of one parent, without a block of the hash. -/
theorem erase (h : pending.Buffered hash)
    (hnot : ∀ old, pending.lookup key = some old → ∀ p ∈ old, p.block.blockHash ≠ hash) :
    PendingBlocks.Buffered (pending.erase key) hash := by
  obtain ⟨prev, old, hlookup, p, hp, hhash⟩ := h
  by_cases hprev : prev = key
  · subst hprev
    exact absurd hhash (hnot old hlookup p hp)
  · exact ⟨prev, old, (AList.lookup_erase_ne hprev).trans hlookup, p, hp, hhash⟩

end PendingBlocks.Buffered

namespace NodeLoop

variable [Hashing] {l : NodeLoop}

/-- **Every block received is buffered.** -/
def ReceivedBuffered (l : NodeLoop) : Prop :=
  ∀ hash ∈ l.blockSync.received, l.pending.Buffered hash

theorem ReceivedBuffered.of_empty (h : l.blockSync.received = ∅) : l.ReceivedBuffered := by
  intro hash hmem
  rw [h] at hmem
  exact absurd hmem (Finset.notMem_empty hash)

theorem receivedBuffered_evictKeys (target : Nat) (keys : List Hash) (remaining : Nat)
    (h : l.ReceivedBuffered) : (evictKeys target keys remaining l).ReceivedBuffered := by
  induction keys generalizing l remaining with
  | nil => exact h
  | cons key keys ih =>
    unfold evictKeys
    split
    · exact h
    · cases hlookup : l.pending.lookup key with
      | none => exact ih remaining h
      | some queue =>
        refine ih _ fun hash hmem => ?_
        obtain ⟨hin, hout⟩ := Finset.mem_sdiff.mp hmem
        refine (h hash hin).erase fun old hold p hp hhash => hout ?_
        obtain rfl := Option.mem_unique hlookup hold
        exact mem_toFinset.mpr (mem_map.mpr ⟨p, hp, hhash⟩)

/-- Buffering the one block that is not buffered yet. -/
theorem receivedBuffered_bufferBlock {block : Block}
    (h : ∀ hash ∈ l.blockSync.received, hash ≠ block.blockHash →
      l.pending.Buffered hash) (raw : Option Bytes) (ρ : IterOrder Hash) :
    (l.bufferBlock block raw ρ).ReceivedBuffered := by
  unfold bufferBlock
  simp only
  split
  · -- a copy of it is buffered
    rename_i hcopy
    obtain ⟨p, hp, hhash⟩ := any_eq_true.mp hcopy
    intro hash hmem
    by_cases hne : hash = block.blockHash
    · subst hne
      cases hlookup : l.pending.lookup block.header.prevBlockhash with
      | none =>
        rw [hlookup] at hp
        cases hp
      | some queue =>
        rw [hlookup] at hp
        exact ⟨_, queue, hlookup, p, hp, of_decide_eq_true hhash⟩
    · exact h hash hmem hne
  · have hinsert : NodeLoop.ReceivedBuffered { l with
        pending := l.pending.insert block.header.prevBlockhash
          ((l.pending.lookup block.header.prevBlockhash).getD [] ++ [⟨block, raw⟩]) } := by
      intro hash hmem
      by_cases hne : hash = block.blockHash
      · subst hne
        exact ⟨_, _, AList.lookup_insert _, ⟨block, raw⟩, mem_append_right _ mem_cons_self, rfl⟩
      · refine (h hash hmem hne).insert fun old hold p hp _ => mem_append_left _ ?_
        rw [hold]
        exact hp
    split
    · exact receivedBuffered_evictKeys _ _ _ hinsert
    · exact hinsert

/-- **A block that arrives** and is not connected yet. -/
theorem receivedBuffered_handleReceivedBlock (h : l.ReceivedBuffered) {block : Block}
    (hnew : l.alreadyConnected block.blockHash = false) (raw : Option Bytes)
    (ρ : IterOrder Hash) : (l.handleReceivedBlock block raw ρ).ReceivedBuffered := by
  unfold handleReceivedBlock
  rw [hnew]
  refine receivedBuffered_bufferBlock (fun hash hmem hne => ?_) raw ρ
  exact h hash ((Finset.mem_insert.mp hmem).resolve_left hne)

/-- Taking a block out leaves the others. -/
theorem popBlock_eq_some {entry : PendingBlock} {l' : NodeLoop}
    (hpop : l.popBlock = some (entry, l')) :
    l'.node = l.node ∧ l'.blockSync = l.blockSync
      ∧ ∀ hash, hash ≠ entry.block.blockHash → l.pending.Buffered hash →
        l'.pending.Buffered hash := by
  unfold popBlock at hpop
  simp only at hpop
  split at hpop
  · rename_i first rest hlookup
    obtain ⟨rfl, rfl⟩ := Prod.mk.inj (Option.some.inj hpop)
    refine ⟨rfl, rfl, fun hash hne hbuf => ?_⟩
    have hqueue : ∀ old, l.pending.lookup l.node.chain.bestHash = some old → ∀ p ∈ old,
        p.block.blockHash = hash → p ∈ rest := by
      intro old hold p hp hhash
      obtain rfl := Option.mem_unique hlookup hold
      exact (mem_cons.mp hp).resolve_left fun heq => hne (heq ▸ hhash.symm)
    split
    · rename_i hempty
      rw [List.isEmpty_iff] at hempty
      subst hempty
      refine hbuf.erase fun old hold p hp hhash => ?_
      cases hqueue old hold p hp hhash
    · exact hbuf.insert hqueue
  · cases hpop

/-- Whether a message makes the node reorganise. -/
def reorganises (l : NodeLoop) (headers : List Header) : Bool :=
  match l.node.sync.processHeaders headers l.node.chain.bestHeight with
  | (.ok accepted, sync) => decide (((l.node.withSync sync).headersAccepted accepted).1 = .reorg)
  | (.error _, _) => false

variable [ScriptEngine]

/-- **An event that keeps the set within the buffer**, by the state it finds. -/
def Kept (l : NodeLoop) : LoopEvent → Prop
  | .block block _ _ => l.alreadyConnected block.blockHash = false
  | .drain _ env _ => ∀ entry l', l.popBlock = some (entry, l') →
      ((∃ txids, (l.node.drainStep env entry.block).1 = .connected txids) ∨
        entry.block.blockHash ∉ l.blockSync.received) ∧
      ∀ e, (l.node.drainStep env entry.block).1 = .failed e → e.isConsensusInvalid = true →
        l.blockSync.received = ∅
  | .headers headers _ _ => l.reorganises headers = true → l.blockSync.received = ∅
  | .notfound _ _ hashes => ∀ hash ∈ hashes, l.onBestChain hash = false → ∀ queue,
      l.pending.lookup hash = some queue → ∀ p ∈ queue, p.block.blockHash ∉ l.blockSync.received
  | .clearOrphaned => l.orphaned = true → l.blockSync.received = ∅
  | .schedule _ | .assign _ _ _ | .resetForkTip | .clearReceived => True

/-- **A block that is drained**: it is connected, or not in the set; and the set
is empty if it fails for good. -/
theorem receivedBuffered_drain (h : l.ReceivedBuffered) (envs : Nat → Env) (env : Env)
    (retryPeer : Option Nat) (hkept : l.Kept (.drain envs env retryPeer)) :
    (l.drain envs env retryPeer).ReceivedBuffered := by
  unfold drain
  cases hpop : l.popBlock with
  | none => exact h
  | some popped =>
    obtain ⟨entry, l'⟩ := popped
    obtain ⟨hconnected, hfailed⟩ := hkept entry l' hpop
    obtain ⟨hnode, hsync, hothers⟩ := popBlock_eq_some hpop
    simp only [hnode]
    -- the block is out of the buffer, and out of the set unless it connects
    have hrest : ∀ hash ∈ l.blockSync.received, hash ≠ entry.block.blockHash →
        l'.pending.Buffered hash :=
      fun hash hmem hne => hothers hash hne (h hash hmem)
    have hstep : (l.node.drainBlock envs env entry.block).1
        = (l.node.drainStep env entry.block).1 := by
      unfold Node.drainBlock
      rcases l.node.drainStep env entry.block with ⟨step, s⟩
      cases step <;> rfl
    rcases hdrain : l.node.drainBlock envs env entry.block with ⟨step, node⟩
    rw [hdrain] at hstep
    have hall : (∃ txids, step = .connected txids) ∨ ∀ hash ∈ l.blockSync.received,
        l'.pending.Buffered hash := by
      rw [← hstep] at hconnected
      refine hconnected.imp_right fun hout hash hmem => hrest hash hmem ?_
      rintro rfl
      exact hout hmem
    cases step with
    | stale =>
      intro hash hmem
      have hbuf := hall.resolve_left fun hc => by obtain ⟨_, hc⟩ := hc; cases hc
      exact hbuf hash (by rw [← hsync]; exact hmem)
    | connected txids =>
      intro hash hmem
      obtain ⟨hne, hin⟩ := Finset.mem_erase.mp hmem
      exact hrest hash (by rw [← hsync]; exact hin) hne
    | failed e =>
      have hbuf := hall.resolve_left fun hc => by obtain ⟨_, hc⟩ := hc; cases hc
      simp only [blockFailed]
      split
      · rename_i hinvalid
        exact ReceivedBuffered.of_empty
          ((congrArg BlockSync.received hsync).trans (hfailed e hstep.symm hinvalid))
      · split <;> exact fun hash hmem => hbuf hash (by rw [← hsync]; exact hmem)

omit [ScriptEngine] in
/-- **A message of headers** that does not make the node reorganise, or comes
while nothing is in the set. -/
theorem receivedBuffered_handleHeaders (h : l.ReceivedBuffered) {headers : List Header}
    (hkeeps : l.reorganises headers = true → l.blockSync.received = ∅) (envs : Nat → Env)
    (ρ : IterOrder (Nat × Hash)) : (l.handleHeaders headers envs ρ).ReceivedBuffered := by
  unfold handleHeaders
  unfold reorganises at hkeeps
  rcases hwalk : l.node.sync.processHeaders headers l.node.chain.bestHeight with ⟨result, sync⟩
  rw [hwalk] at hkeeps
  cases result with
  | error e => exact h
  | ok accepted =>
    simp only at hkeeps ⊢
    rcases haccepted : (l.node.withSync sync).headersAccepted accepted with ⟨step, node⟩
    rw [haccepted] at hkeeps
    cases step with
    | stay => exact h
    | reset => exact h
    | reorg =>
      simp only
      rcases node.reorg envs ρ with ⟨ok, node'⟩
      cases ok with
      | false => exact h
      | true => exact ReceivedBuffered.of_empty (hkeeps rfl)

omit [Hashing] [ScriptEngine] in
theorem received_blockNotFound (s : BlockSync) (peer live : Nat) (hash : Hash) :
    (s.blockNotFound peer live hash).1.received = s.received
      ∧ ∀ a, (s.blockNotFound peer live hash).2 = some a → a = hash := by
  unfold BlockSync.blockNotFound
  split
  · simp only
    split
    · exact ⟨rfl, fun a ha => by cases ha⟩
    · split
      · exact ⟨rfl, fun a ha => (Option.some.inj ha).symm⟩
      · split <;> exact ⟨rfl, fun a ha => by cases ha⟩
  · exact ⟨rfl, fun a ha => by cases ha⟩

omit [Hashing] [ScriptEngine] in
/-- Blocks that are not found stay in the set, if they are; what is abandoned
was asked for. -/
theorem received_blocksNotFound (s : BlockSync) (peer live : Nat) (hashes : List Hash) :
    (s.blocksNotFound peer live hashes).1.received = s.received
      ∧ ∀ a ∈ (s.blocksNotFound peer live hashes).2, a ∈ hashes := by
  induction hashes generalizing s with
  | nil => exact ⟨rfl, fun a ha => by cases ha⟩
  | cons hash hashes ih =>
    obtain ⟨hreceived, habandoned⟩ := received_blockNotFound s peer live hash
    obtain ⟨hrest, hmem⟩ := ih (s.blockNotFound peer live hash).1
    refine ⟨hrest.trans hreceived, fun a ha => ?_⟩
    rcases mem_append.mp ha with ha | ha
    · rw [habandoned a (Option.mem_toList.mp ha)]
      exact mem_cons_self
    · exact mem_cons_of_mem _ (hmem a ha)

section

variable {hashes : List Hash} (h : l.ReceivedBuffered) (peer live : Nat)
  (hkept : l.Kept (.notfound peer live hashes))
include h hkept

/-- Abandoning blocks of which nothing in the set is a child. -/
theorem receivedBuffered_abandon :
    (hashes.foldl abandonBlock l).ReceivedBuffered := by
  induction hashes generalizing l with
  | nil => exact h
  | cons hash hashes ih =>
    rw [foldl_cons]
    by_cases hbest : l.onBestChain hash = true
    · rw [show l.abandonBlock hash = { l with blockSync := l.blockSync.schedule [hash] } from
        if_pos hbest]
      exact ih h fun a ha => hkept a (mem_cons_of_mem _ ha)
    · rw [show l.abandonBlock hash = { l with pending := l.pending.erase hash } from if_neg hbest]
      refine ih (fun a ha => (h a ha).erase fun old hold p hp hhash => ?_)
        fun a ha hoff queue hlookup => ?_
      · exact hkept hash mem_cons_self (eq_false_of_ne_true hbest) old hold p hp (hhash ▸ ha)
      · refine hkept a (mem_cons_of_mem _ ha) hoff queue ?_
        by_cases heq : a = hash
        · subst heq
          have hnone : (l.pending.erase a).lookup a = none := AList.lookup_erase a l.pending
          rw [hnone] at hlookup
          cases hlookup
        · rwa [AList.lookup_erase_ne heq] at hlookup

theorem receivedBuffered_handleNotfound :
    (l.handleNotfound peer live hashes).ReceivedBuffered := by
  obtain ⟨hreceived, hmem⟩ := received_blocksNotFound l.blockSync peer live hashes
  unfold handleNotfound
  rcases hfound : l.blockSync.blocksNotFound peer live hashes with ⟨sync, abandoned⟩
  rw [hfound] at hreceived hmem
  refine receivedBuffered_abandon (fun hash hin => h hash (hreceived ▸ hin)) peer live ?_
  intro hash hin hoff queue hlookup p hp
  rw [hreceived]
  exact hkept hash (hmem hash hin) hoff queue hlookup p hp

end

/-- **One event.** -/
theorem receivedBuffered_step (h : l.ReceivedBuffered) {event : LoopEvent}
    (hkept : l.Kept event) : (l.step event).ReceivedBuffered := by
  cases event with
  | block block raw ρ => exact receivedBuffered_handleReceivedBlock h hkept raw ρ
  | drain envs env retryPeer => exact receivedBuffered_drain h envs env retryPeer hkept
  | headers headers envs ρ => exact receivedBuffered_handleHeaders h hkept envs ρ
  | notfound peer live hashes => exact receivedBuffered_handleNotfound h peer live hkept
  | schedule hashes => exact h
  | assign queue inFlight peerRequests => exact h
  | resetForkTip =>
    show l.resetForkTip.ReceivedBuffered
    unfold resetForkTip
    split
    · exact ReceivedBuffered.of_empty rfl
    · exact h
  | clearOrphaned =>
    show l.clearOrphaned.ReceivedBuffered
    unfold clearOrphaned
    split
    · rename_i horphaned
      exact ReceivedBuffered.of_empty (hkept horphaned)
    · exact h
  | clearReceived =>
    show l.clearReceived.ReceivedBuffered
    unfold clearReceived
    split
    · exact h
    · exact ReceivedBuffered.of_empty rfl

/-- Every event of a run is kept. -/
def AllKept : NodeLoop → List LoopEvent → Prop
  | _, [] => True
  | l, event :: events => l.Kept event ∧ (l.step event).AllKept events

theorem receivedBuffered_run {events : List LoopEvent} (h : l.ReceivedBuffered)
    (hkept : l.AllKept events) : (l.run events).ReceivedBuffered := by
  induction events generalizing l with
  | nil => exact h
  | cons event events ih => exact ih (receivedBuffered_step h hkept.1) hkept.2

omit [ScriptEngine]

/-- The loop when the node starts. -/
def start (n : Node) : NodeLoop := ⟨n, ∅, BlockSync.new, fun _ => 0⟩

/-- **No block is lost**: every block received is buffered, and a block that is
not queued when it is scheduled is on its way or buffered. -/
structure NoneLost (l : NodeLoop) : Prop where
  buffered : l.ReceivedBuffered
  scheduled : ∀ hash, hash ∉ (l.blockSync.schedule [hash]).queue →
    hash ∈ l.blockSync.inFlight ∨ l.pending.Buffered hash

/-- A block that is not queued is in flight or received. -/
theorem ReceivedBuffered.noneLost (h : l.ReceivedBuffered) : l.NoneLost := by
  refine ⟨h, fun hash hout => ?_⟩
  by_contra hnot
  rw [not_or] at hnot
  refine hout (mem_append_right _ (mem_filter.mpr ⟨mem_cons_self, ?_⟩))
  exact decide_eq_true ⟨hnot.1, fun hmem => hnot.2 (h hash hmem)⟩

/-- **No block is lost in a run whose events are all kept.** -/
theorem noneLost_run [ScriptEngine] (n : Node) (events : List LoopEvent)
    (hkept : (start n).AllKept events) : ((start n).run events).NoneLost :=
  (receivedBuffered_run (ReceivedBuffered.of_empty rfl) hkept).noneLost

end NodeLoop

/-- **No block is lost in any run** of the node loop. -/
def RunsLoseNothing : Prop :=
  ∀ [Hashing] [ScriptEngine] (n : Node) (events : List LoopEvent),
    ((NodeLoop.start n).run events).NoneLost

section Sample

attribute [local instance] sampleHashing sampleScripts

/-- A block arrives and is drained. -/
def deliver (block : Block) : List LoopEvent :=
  [.block block none IterOrder.id, .drain (fun _ => sampleEnv) sampleEnv none]

/-- A good copy of block 5 is connected. -/
theorem noneLost_deliver :
    ((NodeLoop.start (rivalNode 1 0 3 2)).run (deliver (sampleBlock 1 5 1 1 0 []))).NoneLost := by
  have hnew : (NodeLoop.start (rivalNode 1 0 3 2)).alreadyConnected
      (sampleBlock 1 5 1 1 0 []).blockHash = false := by decide
  have hconnect : ((rivalNode 1 0 3 2).drainStep sampleEnv (sampleBlock 1 5 1 1 0 [])).1
      = .connected [0#256] := by decide
  refine NodeLoop.noneLost_run _ _ ⟨hnew, fun entry l' hpop => ?_, trivial⟩
  obtain ⟨rfl, -⟩ := Prod.ext_iff.mp (Option.some.inj hpop)
  refine ⟨Or.inl ⟨[0#256], hconnect⟩, fun e he => ?_⟩
  cases hconnect.symm.trans he

/-- **A corrupted copy of block 5**, without its transactions, is drained and
fails: it is gone from the buffer, but cannot be scheduled again. -/
theorem not_runsLoseNothing : ¬ RunsLoseNothing := by
  intro h
  have hlost := (h (rivalNode 1 0 3 2) (deliver ⟨sampleHeader 1 5 1 0, []⟩)).scheduled 5#256
    (by decide)
  obtain ⟨prev, queue, hlookup, -⟩ := hlost.resolve_left (by decide)
  have hkey := AList.lookup_isSome.mp (Option.isSome_of_mem hlookup)
  have hempty : ((NodeLoop.start (rivalNode 1 0 3 2)).run
      (deliver ⟨sampleHeader 1 5 1 0, []⟩)).pending.keys = [] := by decide
  exact absurd hkey not_mem_nil

end Sample
