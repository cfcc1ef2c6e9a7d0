import BitcoinPR.Core.Path
import BitcoinPR.Core.Runs

/-!
# One path of blocks

The blocks a chain state has connected and not disconnected again are meant to
be one path: each on the one below, the lowest on the block the state started
from, and the coins what comes of connecting them one by one to nothing.
`ChainState.connectBlock` does not see to it – it asks that the parent is in
the header index, not that it is the tip, and takes the height from its
caller. Whether the blocks are a path is up to the calls.

One of the callers is the local replay, which reads the height from the tip
and the block from the height index: its height is right by construction, its
block as good as the height index is.
-/

/-! ## Stacks are paths -/

namespace Built

variable [Hashing] {p : ConsensusParams} {genesis tip : Hash}
  {levels : List (Block × UtxoBatch)} {view : OutPoint → Option UtxoEntry}

theorem linear (h : Built p genesis levels view tip) :
    Linear genesis (levels.map Prod.fst) tip := by
  induction h with
  | nil => rfl
  | cons _ _ _ _ _ ih => exact ⟨rfl, ih⟩

/-- What a stack holds is the replay of its blocks. -/
theorem view_eq_replayPath (h : Built p genesis levels view tip) :
    view = replayPath (levels.map Prod.fst) := by
  induction h with
  | nil => rfl
  | @cons levels base block batch _ committed _ _ _ ih =>
    rw [committed.accepted.inserts, committed.accepted.removals, ih, List.map_cons, replayPath,
      List.length_map]

end Built

/-! ## The local replay -/

namespace ChainState

/-- One round of the local replay: the call it makes, if there is a block to
connect. The height is the one above the tip, and the block is whatever
`blocks` holds under the hash the height index gives for it. -/
def replayCall (s : ChainState) (env : Env) (blocks : Hash → Option Block) (endHeight : Nat) :
    Option ChainCall :=
  let h := s.bestHeight + 1
  if endHeight < h then none
  else match s.headerIndex.getHashAtHeight h with
    | none => none
    | some hash => (blocks hash).map fun block => .connect env block h

end ChainState

/-- What moves the chain state: a call, or a round of the local replay over
the blocks on disk. -/
inductive ChainEvent where
  | call (c : ChainCall)
  | replay (env : Env) (blocks : Hash → Option Block) (endHeight : Nat)

namespace History

/-- The call an event comes down to. -/
def resolve (h : History) : ChainEvent → Option ChainCall
  | .call c => some c
  | .replay env blocks endHeight => h.state.replayCall env blocks endHeight

variable [Hashing] [ScriptEngine]

def advance (h : History) (e : ChainEvent) : History :=
  match h.resolve e with
  | some c => h.step c
  | none => h

def advanceAll (h : History) (events : List ChainEvent) : History := events.foldl advance h

/-- **Every call of a run is one of a linear chain.** -/
def EventsAdmissible (h : History) : List ChainEvent → Prop
  | [] => True
  | e :: es => (∀ c ∈ h.resolve e, h.Admissible c) ∧ EventsAdmissible (h.advance e) es

/-- A round of the replay is a call of a linear chain if the height index leads
to a block on the tip. -/
theorem admissible_replayCall {h : History} {env : Env} {blocks : Hash → Option Block}
    {endHeight : Nat} (hlt : h.state.bestHeight + 1 < 2 ^ 31)
    (hblocks : ∀ hash block, h.state.headerIndex.getHashAtHeight (h.state.bestHeight + 1)
        = some hash → blocks hash = some block →
      block.header.prevBlockhash = h.state.bestHash
        ∧ (∀ o ∈ ChainState.createdOutpoints block, h.state.utxoSet.contains o = false)
        ∧ block.blockHash ∉ h.connected.map Block.blockHash) :
    ∀ c ∈ h.resolve (.replay env blocks endHeight), h.Admissible c := by
  intro c hc
  simp only [resolve, ChainState.replayCall] at hc
  split at hc
  · cases hc
  · split at hc
    · cases hc
    · obtain ⟨block, hblock, rfl⟩ := Option.map_eq_some_iff.mp hc
      obtain ⟨hprev, hnew, hunique⟩ := hblocks _ _ ‹_› hblock
      exact fun _ => ⟨hprev, rfl, hlt, hnew, hunique⟩

/-- **The connected blocks are one path** from `genesis` to the tip, as long as
the chain is high, and a lookup answers what the replay of the path says. -/
structure OnPath (genesis : Hash) (h : History) : Prop where
  linear : Linear genesis h.connected h.state.bestHash
  bestHeight : h.state.bestHeight = h.connected.length
  coins : ∀ o, (h.state.utxoSet.get o).1 = .ok (replayPath h.connected o)

variable {n : Network} {h : History}

omit [ScriptEngine] in
theorem onPath_of_tracked {p : ConsensusParams} {genesis : Hash}
    {levels : List (Block × UtxoBatch)} (ht : h.state.Tracked p genesis levels)
    (hl : levels.map Prod.fst = h.connected) : OnPath genesis h := by
  refine ⟨?_, ?_, fun o => ?_⟩
  · rw [← hl]
    exact ht.built.linear
  · rw [ht.bestHeight, ← hl, List.length_map]
  · rw [ht.consistent.get_eq, ht.built.view_eq_replayPath, hl]

section

variable {genesis : Hash} {levels : List (Block × UtxoBatch)}
  (ht : h.state.Tracked (ConsensusParams.forNetwork n) genesis levels)
  (hl : levels.map Prod.fst = h.connected)
include ht hl

theorem exists_tracked_advance {e : ChainEvent} (he : ∀ c ∈ h.resolve e, h.Admissible c) :
    ∃ levels', (h.advance e).state.Tracked (ConsensusParams.forNetwork n) genesis levels'
      ∧ levels'.map Prod.fst = (h.advance e).connected := by
  unfold advance
  cases hc : h.resolve e with
  | none => exact ⟨levels, ht, hl⟩
  | some c => exact exists_tracked_step ht hl (he c hc)

theorem exists_tracked_advanceAll {events : List ChainEvent} (hevents : h.EventsAdmissible events) :
    ∃ levels', (h.advanceAll events).state.Tracked (ConsensusParams.forNetwork n) genesis levels'
      ∧ levels'.map Prod.fst = (h.advanceAll events).connected := by
  induction events generalizing h levels with
  | nil => exact ⟨levels, ht, hl⟩
  | cons e es ih =>
    obtain ⟨levels', ht', hl'⟩ := exists_tracked_advance ht hl hevents.1
    exact ih ht' hl' hevents.2

end

/-- **Calls of a linear chain connect one path**: from an empty store at height
0, in every state reached, whether the calls come from peers or from the local
replay. -/
theorem onPath_of_eventsAdmissible {s : ChainState} (hs : s.Fresh n) {events : List ChainEvent}
    (hevents : EventsAdmissible ⟨s, []⟩ events) :
    OnPath s.bestHash (advanceAll ⟨s, []⟩ events) := by
  have ht : (⟨s, []⟩ : History).state.Tracked (ConsensusParams.forNetwork n) s.bestHash [] :=
    hs.tracked
  obtain ⟨levels, hrun, hl⟩ := exists_tracked_advanceAll ht rfl hevents
  exact onPath_of_tracked hrun hl

end History

/-- Blocks are connected to the tip only, one above it. -/
def ConnectsOnlyToTip : Prop :=
  ∀ [Hashing] [ScriptEngine] (s s' : ChainState) (env : Env) (block : Block) (height : Nat)
    (txids : List Hash), s.connectBlock env block height = (.ok txids, s') →
    block.header.prevBlockhash = s.bestHash ∧ height = s.bestHeight + 1

/-- Every run from an empty store at height 0 connects one path. -/
def RunsConnectOnePath : Prop :=
  ∀ [Hashing] [ScriptEngine] (n : Network) (s : ChainState) (events : List ChainEvent),
    s.Fresh n → History.OnPath s.bestHash (History.advanceAll ⟨s, []⟩ events)

section Sample

attribute [local instance] sampleHashing sampleScripts

/-- An empty store, with the headers of a branch of two blocks, 4 and 5, on the
first block. -/
def branchChain : ChainState :=
  sampleState (sampleIndex [(5, 4, 2), (4, 1, 1), (1, 0, 0)]) (UtxoSet.openDb UtxoDb.empty 0 0) 1 0

theorem fresh_branchChain : branchChain.Fresh .regtest := ⟨rfl, ⟨0, 0, rfl⟩, rfl⟩

/-- Block 5 on disk. -/
def branchBlocks : Hash → Option Block :=
  fun hash => if hash = 5 then some (sampleBlock 4 5 11 2 1002 []) else none

/-- Block 4 is connected, and the replay connects block 5 to it. -/
theorem onPath_replayed :
    History.OnPath branchChain.bestHash (History.advanceAll ⟨branchChain, []⟩
      [.call (.connect sampleEnv (sampleBlock 1 4 10 1 1001 []) 1),
        .replay sampleEnv branchBlocks 2]) :=
  History.onPath_of_eventsAdmissible fresh_branchChain ⟨fun c hc => by
        obtain rfl := Option.some.inj hc
        exact fun _ => ⟨by decide, by decide, by decide, by decide, by decide⟩,
      History.admissible_replayCall (by decide) (fun hash block hhash hblock => by
        obtain rfl := Option.some.inj (hhash.symm.trans (show _ = some (5#256) by decide))
        obtain rfl := Option.some.inj hblock
        exact ⟨by decide, by decide, by decide⟩), trivial⟩

/-- Block 2 is connected on the first block, while the height index still names
block 5 at height 2. -/
def staleRun : List ChainEvent :=
  [.call (.connect sampleEnv (sampleBlock 1 2 10 1 1001 []) 1), .replay sampleEnv branchBlocks 2]

/-- **A block is connected beside its parent**: the replay connects block 5,
whose parent is block 4, on top of block 2. -/
theorem not_connectsOnlyToTip : ¬ ConnectsOnlyToTip ∧ ¬ RunsConnectOnePath := by
  constructor
  · intro h
    have hprev := (h (branchChain.connectBlock sampleEnv (sampleBlock 1 2 10 1 1001 []) 1).2 _
      sampleEnv (sampleBlock 4 5 11 2 1002 []) 2 [1002#256]
      (Prod.ext (by decide +kernel) rfl)).1
    exact absurd hprev (by decide +kernel)
  · intro h
    have hpath := (h .regtest branchChain staleRun fresh_branchChain).linear
    have hconnected : (History.advanceAll ⟨branchChain, []⟩ staleRun).connected
        = [sampleBlock 4 5 11 2 1002 [], sampleBlock 1 2 10 1 1001 []] := by decide +kernel
    exact absurd hpath.2.1 (by decide)

end Sample
