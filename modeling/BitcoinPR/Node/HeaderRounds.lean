import BitcoinPR.Node.Pipeline
import BitcoinPR.Node.MostWork
import BitcoinPR.P2P.Convergence

/-!
# Header sync reaches the chain it is served

A node asks a peer for headers again and again, and handles every reply; the
peer serves a chain of valid headers with more work than the best header of the
node. Does the best header get to the tip of that chain?

The first reply decides. If it is taken and does not end below the validated
tip, every further one is taken as well: between two of them the handler may
disconnect blocks towards the new best header, which leaves that header and the
locator where they are. If it is not taken, nothing changes that matters, and
the same reply comes however often the node asks. A reply that is taken but ends
below the validated tip is in between: the handler puts the best header back.
-/

open Branches (Ancestor)
open HeaderSync (replyEnd)

/-! ## Rounds -/

namespace NodeLoop

variable [Hashing] (server : HeaderIndex) (genesis : Hash)

/-- **One round**: the node asks for headers and handles the reply. -/
def headersRound (envs : Nat → Env) (ρ : IterOrder (Nat × Hash)) (l : NodeLoop) : NodeLoop :=
  l.handleHeaders (server.serveHeaders (l.node.sync.buildLocator genesis) Hash.allZeros) envs ρ

/-- The node after a number of rounds. -/
def headersRounds (envs : Nat → Nat → Env) (ρ : Nat → IterOrder (Nat × Hash)) (l : NodeLoop) :
    Nat → NodeLoop
  | 0 => l
  | n + 1 => (l.headersRounds envs ρ n).headersRound server genesis (envs n) (ρ n)

end NodeLoop

/-- The node once the headers handler is through. -/
def Node.afterHeaders [Hashing] (n : Node) (accepted : Nat) (envs : Nat → Env)
    (ρ : IterOrder (Nat × Hash)) : Node :=
  match n.headersAccepted accepted with
  | (.reorg, n') => (n'.reorg envs ρ).2
  | (_, n') => n'

theorem NodeLoop.node_handleHeaders [Hashing] {l : NodeLoop} {headers : List Header}
    {accepted : Nat} {sync : HeaderSync}
    (h : l.node.sync.processHeaders headers l.node.chain.bestHeight = (.ok accepted, sync))
    (envs : Nat → Env) (ρ : IterOrder (Nat × Hash)) :
    (l.handleHeaders headers envs ρ).node
      = (l.node.withSync sync).afterHeaders accepted envs ρ := by
  unfold handleHeaders Node.afterHeaders
  simp only [h]
  rcases (l.node.withSync sync).headersAccepted accepted with ⟨step, node⟩
  cases step with
  | stay => rfl
  | reset => rfl
  | reorg =>
    simp only
    split <;> rfl

/-! ## The height index under a reorganisation -/

/-- **The height index is in order**: it names stored headers at their heights,
and `hash` at `height`; headers and markers are as they were. -/
structure HeaderIndex.Tidy (ix₀ : HeaderIndex) (height : Nat) (hash : Hash) (ix : HeaderIndex) :
    Prop extends ix₀.Reindexed ix where
  named : ∀ i a, ix.heightIndex i = some a → ∃ stored, ix₀.headers a = some stored
    ∧ stored.height = i
  top : ix.heightIndex height = some hash

namespace HeaderIndex.Tidy

variable {ix₀ ix : HeaderIndex} {height : Nat} {hash : Hash}

theorem insertHeader (h : ix₀.Tidy height hash ix) {a : Hash} {stored : StoredHeader}
    (hstored : ix₀.headers a = some stored) (htop : stored.height = height → a = hash) :
    ix₀.Tidy height hash (ix.insertHeader a stored) := by
  refine ⟨⟨?_, h.invalidSet, h.generation⟩, fun i b hb => ?_, ?_⟩
  · rw [← h.headers] at hstored ⊢
    exact Function.update_eq_self_iff.mpr hstored.symm
  · change Function.update ix.heightIndex stored.height (some a) i = _ at hb
    rw [Function.update_apply] at hb
    split at hb
    · obtain rfl := Option.some.inj hb
      exact ⟨stored, hstored, Eq.symm ‹_›⟩
    · exact h.named i b hb
  · show Function.update ix.heightIndex stored.height (some a) height = _
    rw [Function.update_apply]
    split
    · rw [htop (Eq.symm ‹_›)]
    · exact h.top

/-- Repairing heights along a branch that ends in `hash`. -/
theorem repairHeights (h : ix₀.Tidy height hash ix) {entries : List (Nat × Hash)}
    (hentries : ∀ p ∈ entries, ∀ stored, ix₀.headers p.2 = some stored →
      stored.height = height → p.2 = hash) : ix₀.Tidy height hash (repairHeights ix entries) := by
  induction entries generalizing ix with
  | nil => exact h
  | cons p entries ih =>
    refine ih ?_ fun q hq => hentries q (List.mem_cons_of_mem _ hq)
    simp only
    split
    · exact h
    · cases hp : ix.getHeader p.2 with
      | none => exact h
      | some stored =>
        have hstored : ix₀.headers p.2 = some stored := h.headers ▸ hp
        exact h.insertHeader hstored (hentries p List.mem_cons_self stored hstored)

theorem unindexHeight (h : ix₀.Tidy height hash ix) (i : Nat) {tip : Hash}
    (hne : i = height → tip ≠ hash) : ix₀.Tidy height hash (ChainState.unindexHeight ix tip i) := by
  unfold ChainState.unindexHeight
  have hdelete : i ≠ height → ix₀.Tidy height hash (ix.deleteHeightEntry i) := by
    refine fun hi => ⟨⟨h.headers, h.invalidSet, h.generation⟩, fun j b hb => ?_,
      (Function.update_of_ne hi.symm ..).trans h.top⟩
    change Function.update ix.heightIndex i none j = _ at hb
    rw [Function.update_apply] at hb
    split at hb
    · cases hb
    · exact h.named j b hb
  cases hget : ix.getHashAtHeight i with
  | none =>
    refine hdelete fun hi => ?_
    subst hi
    cases hget.symm.trans h.top
  | some a =>
    simp only
    split
    · exact h
    · rename_i heq
      refine hdelete fun hi => ?_
      subst hi
      exact hne rfl ((not_not.mp heq).symm.trans (Option.some.inj (hget.symm.trans h.top)))

variable [Hashing] {s s' : ChainState} {env : Env} (blocks : Hash → Option Block)

/-- Taking off a tip other than `hash`. -/
theorem removeTip (h : ix₀.Tidy height hash s.headerIndex)
    (hne : s.bestHeight = height → s.bestHash ≠ hash) (hremove : s.removeTip env blocks = some s') :
    ix₀.Tidy height hash s'.headerIndex ∧ s'.bestHeight ≤ s.bestHeight := by
  unfold ChainState.removeTip at hremove
  split at hremove
  · rename_i t hstored
    obtain rfl := Option.some.inj hremove
    unfold ChainState.disconnectStored at hstored
    split at hstored
    · cases hstored
    · split at hstored
      · cases hstored
      · split at hstored
        · rename_i block _ _ _ _ hdis
          obtain rfl := Option.some.inj hstored
          obtain ⟨hhash, -, undo, -, rfl⟩ := ChainState.disconnectBlock_eq_ok.mp hdis
          have hout := h.unindexHeight s.bestHeight fun hi => hhash ▸ hne hi
          exact ⟨⟨⟨hout.headers, hout.invalidSet, hout.generation⟩, hout.named, hout.top⟩,
            Nat.sub_le ..⟩
        · cases hstored
  · unfold ChainState.rollbackTip at hremove
    split at hremove
    · cases hremove
    · obtain rfl := Option.some.inj hremove
      exact ⟨h, Nat.sub_le ..⟩

/-- **Disconnecting towards `hash`.** -/
theorem disconnectLoop (h : ix₀.Tidy height hash s.headerIndex) {onBest : Nat → Option Hash}
    (hbest : onBest height = some hash) (envs : Nat → Env) (fuel : Nat) :
    ix₀.Tidy height hash (s.disconnectLoop onBest envs blocks fuel).2.headerIndex
      ∧ (s.disconnectLoop onBest envs blocks fuel).2.bestHeight ≤ s.bestHeight := by
  induction fuel generalizing s with
  | zero => exact ⟨h, Nat.le_refl _⟩
  | succ fuel ih =>
    unfold ChainState.disconnectLoop
    split
    · exact ⟨h, Nat.le_refl _⟩
    · rename_i hgo
      cases hremove : s.removeTip (envs s.bestHeight) blocks with
      | none => exact ⟨h, Nat.le_refl _⟩
      | some s' =>
        obtain ⟨h', hle⟩ := h.removeTip blocks
          (fun hheight heq => hgo (Or.inr (by rw [hheight, heq, hbest]))) hremove
        obtain ⟨hend, hlower⟩ := ih h'
        exact ⟨hend, hlower.trans hle⟩

end HeaderIndex.Tidy

/-- What the map of the best chain names is the best header, or lower. -/
theorem height_lt_of_mem_bestChainHashes {genesis : Hash} {ix : HeaderIndex}
    (hlinked : Linked genesis ix.headers) {floor n : Nat} {a : Hash} {stored : StoredHeader}
    (ha : ix.headers a = some stored) (hn : stored.height = n) {p : Nat × Hash}
    (hp : p ∈ bestChainHashes ix floor n a) :
    p.2 = a ∨ ∀ st, ix.headers p.2 = some st → st.height < n := by
  induction n generalizing a stored with
  | zero => exact Or.inl (by rw [List.mem_singleton.mp hp])
  | succ n ih =>
    have hget : ix.getHeader a = some stored := ha
    obtain ⟨parent, hparent, hheight⟩ := hlinked.graded.exists_up ha
    rw [StoredHeader.up_eq ha (by omega)] at hparent
    rw [bestChainHashes, hget] at hp
    rcases List.mem_cons.mp hp with rfl | hp
    · exact Or.inl rfl
    · split at hp
      · right
        rcases ih hparent (by omega) hp with heq | hlt
        · intro st hst
          rw [heq, hparent] at hst
          obtain rfl := Option.some.inj hst
          omega
        · exact fun st hst => Nat.lt_succ_of_lt (hlt st hst)
      · cases hp

section

variable [Hashing] {S : Set Header} {first : StoredHeader} {chain : List Header}

/-- A node whose height index is put in order is served as before. -/
theorem HeaderSync.Served.withIndex {s : HeaderSync} (hs : s.Served S first chain)
    {ix : HeaderIndex} (h : s.headerIndex.Tidy s.bestHeight s.bestHash ix) :
    HeaderSync.Served S first chain { s with headerIndex := ix } where
  collisionless := hs.collisionless
  valid := hs.valid
  anchored := ⟨h.headers ▸ hs.anchored.linked, h.headers ▸ hs.anchored.best⟩
  shared := h.headers ▸ hs.shared
  named := h.headers ▸ h.named
  top := h.top
  unmarked := h.invalidSet ▸ hs.unmarked
  unjudged := fun hgeneration => hs.unjudged (h.generation ▸ hgeneration)
  remembered := h.headers ▸ hs.remembered

namespace Node

variable {n : Node} {i : Nat}

/-! ## A node on the chain -/

/-- **A node on the chain**: its best header is the one of the chain at height
`i`, and its validated tip is not above. -/
structure OnChain (S : Set Header) (first : StoredHeader) (chain : List Header) (i : Nat)
    (n : Node) : Prop where
  served : n.sync.Served S first chain
  best : n.sync.bestHash = (chainAt first chain i).header.blockHash
  height : n.sync.bestHeight = i
  le : n.chain.bestHeight ≤ i

/-- **A reorganisation leaves the best header**, and lowers the validated tip. -/
theorem OnChain.reorg (h : n.OnChain S first chain i) (envs : Nat → Env)
    (ρ : IterOrder (Nat × Hash)) : (n.reorg envs ρ).2.OnChain S first chain i := by
  have hindex : n.sync.headerIndex = n.index := n.shared
  have hlinked : Linked first.header.blockHash n.index.headers :=
    hindex ▸ h.served.anchored.linked.linked
  obtain ⟨best, hbest, hheight⟩ := h.served.anchored.best
  rw [hindex] at hbest
  have htidy : n.index.Tidy n.sync.bestHeight n.sync.bestHash n.index :=
    ⟨.refl _, hindex ▸ h.served.named, hindex ▸ h.served.top⟩
  have hprepared : n.index.Tidy n.sync.bestHeight n.sync.bestHash
      (n.prepareReorg (envs n.chain.bestHeight) ρ).headerIndex := by
    refine htidy.repairHeights fun p hp stored hstored htop => ?_
    rcases height_lt_of_mem_bestChainHashes hlinked hbest hheight
      ((ρ.perm n.bestChain).mem_iff.mp hp) with heq | hlt
    · exact heq
    · exact absurd (hlt stored hstored) (by omega)
  have hon : PartialMap.putAll (fun _ => none) n.bestChain n.sync.bestHeight
      = some n.sync.bestHash := by
    rw [bestChain, putAll_bestChainHashes hlinked _ _ hbest hheight, if_pos (Or.inl rfl),
      Nat.sub_self]
    rfl
  obtain ⟨hend, hlower⟩ := hprepared.disconnectLoop n.blocks hon envs n.chain.bestHeight
  have hle : (n.prepareReorg (envs n.chain.bestHeight) ρ).bestHeight ≤ i := h.le
  unfold Node.reorg
  generalize ChainState.disconnectLoop _ _ _ _ _ = out at hend hlower
  obtain ⟨ok, out⟩ := out
  rw [← hindex] at hend
  cases ok <;> exact ⟨h.served.withIndex hend, h.best, h.height, hlower.trans hle⟩

/-- **The handler leaves the best header** on the chain. -/
theorem OnChain.afterHeaders (h : n.OnChain S first chain i) (hi : i ≤ chain.length)
    (accepted : Nat) (envs : Nat → Env) (ρ : IterOrder (Nat × Hash)) :
    (n.afterHeaders accepted envs ρ).OnChain S first chain i := by
  have hlocal : n.followLocalTip = n := if_neg (by rw [h.height]; exact Nat.not_lt.mpr h.le)
  -- no ancestor of the best header is marked
  obtain ⟨best, hbest, -⟩ := h.served.anchored.best
  rw [h.best] at hbest
  have hclean := HeaderIndex.firstInvalidAncestor_of_unmarked (fun b hb => by
    obtain ⟨j, hj, rfl⟩ := exists_of_ancestor_chainAt h.served.valid.follows h.served.low hi
      (HeaderSync.stored_chainAt h.served hi hbest) hb
    exact decide_eq_false (h.served.unmarked j (hj.trans hi))) n.chain.bestHeight invalidWalkMax
  rw [← h.best, n.shared] at hclean
  have hstep : n.headersAccepted accepted = (.stay, n)
      ∨ n.headersAccepted accepted = (.reorg, n) := by
    unfold headersAccepted
    rw [hlocal, chooseStep, index, hclean]
    split
    · exact Or.inl rfl
    · split
      · exact Or.inl rfl
      · exact Or.inr rfl
  unfold Node.afterHeaders
  rcases hstep with hstep | hstep <;> rw [hstep]
  · exact h
  · exact h.reorg envs ρ

/-! ## A node that is not moved -/

/-- **Validated chain and headers are in step**: the validated tip, stored at its
height, is an ancestor of the best header. -/
structure InStep (n : Node) : Prop where
  tip : ∃ stored, n.sync.headerIndex.headers n.chain.bestHash = some stored
    ∧ stored.height = n.chain.bestHeight
  onBest : Ancestor StoredHeader.parent n.sync.headerIndex.headers n.sync.bestHash
    n.chain.bestHash

/-- The handler does nothing. -/
theorem InStep.afterHeaders_eq (h : n.InStep) (hs : n.sync.Served S first chain) (accepted : Nat)
    (envs : Nat → Env) (ρ : IterOrder (Nat × Hash)) : n.afterHeaders accepted envs ρ = n := by
  obtain ⟨tip, htip, htipHeight⟩ := h.tip
  obtain ⟨best, hbest, hheight⟩ := hs.anchored.best
  have hlinked := hs.anchored.linked.linked
  obtain ⟨hle, hup⟩ := (hlinked.graded.ancestor_iff hbest htip).mp h.onBest
  rw [htipHeight, hheight] at hle hup
  have hon : n.onBestChain = true := by
    unfold onBestChain
    rw [if_pos hle, index, ← n.shared, onBestWalk_eq hlinked _ hbest (by omega)]
    exact decide_eq_true hup
  have hstep : n.headersAccepted accepted = (.stay, n) := by
    unfold headersAccepted
    rw [followLocalTip, if_neg (Nat.not_lt.mpr hle), chooseStep, hon, Bool.true_or, if_pos rfl,
      ite_self]
  unfold Node.afterHeaders
  rw [hstep]

theorem InStep.withSync (h : n.InStep) {sync : HeaderSync} {blockHeight k : Nat}
    (hignores : n.sync.Ignores first chain blockHeight k sync) : (n.withSync sync).InStep := by
  obtain ⟨tip, htip, hheight⟩ := h.tip
  refine ⟨⟨tip, hignores.extend _ _ htip, hheight⟩, ?_⟩
  show Ancestor _ _ sync.bestHash _
  rw [hignores.bestHash]
  exact h.onBest.mono hignores.extend

end Node

/-! ## All rounds -/

namespace NodeLoop

/-- **A chain with more work is offered**: valid headers, by a peer on their tip. -/
structure Offered (S : Set Header) (first : StoredHeader) (chain : List Header)
    (server : HeaderIndex) (l : NodeLoop) : Prop where
  serves : server.Serves first chain
  served : l.node.sync.Served S first chain
  more : ∀ best, l.node.sync.headerIndex.headers l.node.sync.bestHash = some best →
    best.chainWork < (chainAt first chain chain.length).chainWork

/-- In some round the best header is the tip of the chain. -/
def Reaches (server : HeaderIndex) (first : StoredHeader) (chain : List Header)
    (envs : Nat → Nat → Env) (ρ : Nat → IterOrder (Nat × Hash)) (l : NodeLoop) : Prop :=
  ∃ n, (l.headersRounds server first.header.blockHash envs ρ n).node.sync.bestHash
    = (chainAt first chain chain.length).header.blockHash

variable {server : HeaderIndex} {l : NodeLoop} {k : Nat} {envs : Nat → Nat → Env}
  {ρ : Nat → IterOrder (Nat × Hash)} (hserves : server.Serves first chain)

include hserves in
/-- **One round**: the reply is processed, and the handler does the rest. -/
theorem exists_headersRound (hs : l.node.sync.Served S first chain)
    (hstart : server.locatorStart (l.node.sync.buildLocator first.header.blockHash) = k + 1)
    (envs : Nat → Env) (ρ : IterOrder (Nat × Hash)) :
    ∃ accepted sync, l.node.sync.AfterReply S first chain l.node.chain.bestHeight k sync
      ∧ (l.headersRound server first.header.blockHash envs ρ).node
        = (l.node.withSync sync).afterHeaders accepted envs ρ := by
  obtain ⟨hk, hmeets⟩ := hs.meetsAt hserves hstart
  obtain ⟨accepted, sync, hprocess, hafter⟩ :=
    hmeets.exists_processHeaders hs hk l.node.chain.bestHeight
  refine ⟨accepted, sync, hafter, node_handleHeaders ?_ envs ρ⟩
  rw [HeaderIndex.serveHeaders, hstart, hserves.collectHeaders_eq]
  exact hprocess

/-- **A node that is not moved**: it has the best header of another, and the reply
to its next request is not taken. -/
structure Unmoved (S : Set Header) (first : StoredHeader) (chain : List Header)
    (server : HeaderIndex) (k : Nat) (l l' : NodeLoop) : Prop where
  served : l'.node.sync.Served S first chain
  inStep : l'.node.InStep
  bestHash : l'.node.sync.bestHash = l.node.sync.bestHash
  start : server.locatorStart (l'.node.sync.buildLocator first.header.blockHash) = k + 1
  again : ¬ l'.node.sync.TakesReply first chain l'.node.chain.bestHeight k

include hserves in
theorem Unmoved.headersRound {l' : NodeLoop} (h : Unmoved S first chain server k l l')
    (envs : Nat → Env) (ρ : IterOrder (Nat × Hash)) :
    Unmoved S first chain server k l (l'.headersRound server first.header.blockHash envs ρ) := by
  obtain ⟨accepted, sync, hafter, hnode⟩ :=
    exists_headersRound hserves h.served h.start envs ρ
  have hignores := hafter.keeps h.again
  have hstep := h.inStep.withSync hignores
  rw [hstep.afterHeaders_eq hafter.served] at hnode
  refine ⟨hnode ▸ hafter.served, hnode ▸ hstep, ?_, ?_, ?_⟩ <;> rw [hnode]
  · exact hignores.bestHash.trans h.bestHash
  · rw [← h.start]
    exact congrArg _ (HeaderSync.buildLocator_congr hignores.heights hignores.bestHeight _)
  · exact hignores.again

include hserves in
/-- **If the first reply is not taken**, the best header stays for ever. -/
theorem Unmoved.headersRounds (h : Unmoved S first chain server k l l) (n : Nat) :
    Unmoved S first chain server k l
      (l.headersRounds server first.header.blockHash envs ρ n) := by
  induction n with
  | zero => exact h
  | succ n ih => exact ih.headersRound hserves (envs n) (ρ n)

include hserves in
/-- **If a reply is taken** and does not end below the validated tip, the node
reaches the tip of the chain: from the chain on, every round gets further. -/
theorem exists_reached {n : Nat} {l' : NodeLoop}
    (hl : l.headersRounds server first.header.blockHash envs ρ n = l')
    (hs : l'.node.sync.Served S first chain)
    (hstart : server.locatorStart (l'.node.sync.buildLocator first.header.blockHash) = k + 1)
    (htakes : l'.node.sync.TakesReply first chain l'.node.chain.bestHeight k)
    (hle : l'.node.chain.bestHeight ≤ replyEnd chain k) :
    l.Reaches server first chain envs ρ := by
  -- what is left of the chain gets shorter
  induction hleft : chain.length - replyEnd chain k using Nat.strong_induction_on
    generalizing n l' k with
  | _ left ih =>
    obtain ⟨accepted, sync, hafter, hnode⟩ :=
      exists_headersRound hserves hs hstart (envs n) (ρ n)
    obtain ⟨hbest, hheight⟩ := hafter.takes htakes
    have hend : replyEnd chain k ≤ chain.length := Nat.min_le_right ..
    have hon : (l'.node.withSync sync).OnChain S first chain (replyEnd chain k) :=
      ⟨hafter.served, hbest, hheight, hle⟩
    have hon' := hon.afterHeaders hend accepted (envs n) (ρ n)
    rw [← hnode] at hon'
    have hl' : l.headersRounds server first.header.blockHash envs ρ (n + 1)
        = l'.headersRound server first.header.blockHash (envs n) (ρ n) := by
      rw [headersRounds, hl]
    rcases Nat.lt_or_eq_of_le hend with hlt | heq
    · obtain ⟨hstart', -, hmore, htakes'⟩ := hon'.served.takesReply hserves hlt hon'.best _
      exact ih _ (by omega) hl' hon'.served hstart' htakes' (hon'.le.trans hmore.le) rfl
    · exact ⟨n + 1, by rw [hl', hon'.best, heq]⟩

/-- **A node reaches the tip of a chain with more work** that it is offered if the
first reply is taken and does not end below the validated tip, and, if validated
chain and headers are in step, it does not if the reply is not taken. -/
theorem reached_of_first_reply (h : l.Offered S first chain server)
    (hstart : server.locatorStart (l.node.sync.buildLocator first.header.blockHash) = k + 1)
    (envs : Nat → Nat → Env) (ρ : Nat → IterOrder (Nat × Hash)) :
    (l.node.sync.TakesReply first chain l.node.chain.bestHeight k →
        l.node.chain.bestHeight ≤ replyEnd chain k → l.Reaches server first chain envs ρ)
      ∧ (l.node.InStep → l.Reaches server first chain envs ρ →
        l.node.sync.TakesReply first chain l.node.chain.bestHeight k) := by
  obtain ⟨hserves, hs, hmore⟩ := h
  refine ⟨exists_reached (n := 0) hserves rfl hs hstart, fun hstep ⟨n, hn⟩ => ?_⟩
  by_contra hnot
  have hstays : Unmoved S first chain server k l l := ⟨hs, hstep, rfl, hstart, hnot⟩
  -- the best header is not the tip of the chain
  rw [(hstays.headersRounds hserves n).bestHash] at hn
  obtain ⟨best, hstored, -⟩ := hs.anchored.best
  have htip := HeaderSync.stored_chainAt hs (Nat.le_refl _) (hn ▸ hstored) _
    (Nat.le_refl _)
  exact absurd (hmore _ (hn ▸ htip)) (List.lt_irrefl _)

end NodeLoop

end

/-- Headers offered with more work than the node's best header are synced to their
tip, for every fork depth and all lengths. -/
def HeaderSyncConverges : Prop :=
  ∀ [Hashing] (S : Set Header) (first : StoredHeader) (chain : List Header)
    (server : HeaderIndex) (l : NodeLoop) (envs : Nat → Nat → Env)
    (ρ : Nat → IterOrder (Nat × Hash)), l.Offered S first chain server → l.node.InStep →
    l.Reaches server first chain envs ρ

section Sample

attribute [local instance] sampleHashing

def signetFirst : StoredHeader := ⟨sampleHeader 0 1 0 0, 0, zeroWork⟩

/-- A header 7 on the first block, heavier than the headers 2 and 3 together. -/
def heavyHeader : Header := { weighedHeader 1 7 0x1d00ffff with time := 1 }

/-- A peer on the heavy header. -/
def heavyServer : HeaderIndex :=
  { HeaderIndex.empty with
    headers := PartialMap.putAll (fun _ => none)
      [(1#256, signetFirst), (7#256, signetFirst.child heavyHeader)]
    heightIndex := fun i => [1#256, 7#256][i]? }

theorem serves_heavyServer : heavyServer.Serves signetFirst [heavyHeader] where
  named := by decide
  above := fun i hi => List.getElem?_eq_none hi
  stored := by
    intro i hi
    change i ≤ 1 at hi
    obtain rfl | rfl : i = 0 ∨ i = 1 := by omega
    all_goals exact ⟨_, rfl, rfl, rfl⟩

def roundHeaders : List Header := heavyHeader :: weighedHeaders

/-- Targets are not checked on a signet. -/
theorem validChain_heavyHeader {params : ConsensusParams} {bip110 : Option Bip110Deployment}
    (hsignet : params.signetChallenge.isSome) (hdep : bip110.isSome = false) :
    ValidChain { h | h ∈ roundHeaders } params bip110 signetFirst [heavyHeader] where
  mem := fun a ha => List.mem_cons.mpr (Or.inl (List.mem_singleton.mp ha))
  follows := .cons_cons rfl (.singleton _)
  pow := by decide +kernel
  bits := fun h => by rw [h] at hsignet; cases hsignet
  timed := by
    refine ⟨fun mtp h => ?_, fun mtp h => ?_, trivial⟩
    · obtain rfl := Option.some.inj h
      decide
    · cases h
  signals := fun dep h => by rw [h] at hdep; cases hdep
  rises := by decide +kernel

/-- A node with header sync at header 3, and the first `height` blocks below
validated; the height index is written out. -/
def lightLoop (s : HeaderSync) (height : Nat) : NodeLoop where
  node := validatedAt { s with headerIndex := { s.headerIndex with
    heightIndex := fun i => [1#256, 2#256, 3#256][i]? } } (height + 1) height
  pending := ∅
  blockSync := BlockSync.new
  blockFailureCounts := fun _ => 0

/-- Header sync with two light headers. -/
@[mk_iff]
structure TwoLight (s : HeaderSync) : Prop where
  bestHash : s.bestHash = 3#256
  bestHeight : s.bestHeight = 2
  signet : s.params.signetChallenge.isSome
  dep : s.bip110.isSome = false
  unmarked : s.headerIndex.invalidSet = []
  clears : ∀ i ≤ 1, s.branchTainted.lookup
    (chainAt signetFirst [heavyHeader] i).header.blockHash ≠ some true
  first : s.headerIndex.headers 1#256 = some signetFirst
  two : s.headerIndex.headers 2#256
    = some ⟨weighedHeader 1 2 0x1e0377ae, 1, List.replicate 29 0 ++ [73, 212, 20]⟩
  three : s.headerIndex.headers 3#256
    = some ⟨weighedHeader 2 3 0x1e0377ae, 2, List.replicate 29 0 ++ [147, 168, 40]⟩
  heavy : s.headerIndex.headers 7#256 = none

theorem twoLight_lightSync : TwoLight lightSync := (twoLight_iff _).mpr (by decide +kernel)

variable {s : HeaderSync} (hs : TwoLight s)

include hs

theorem served_lightLoop (ha : s.Anchored { h | h ∈ weighedHeaders } 1#256) (height : Nat) :
    (lightLoop s height).node.sync.Served { h | h ∈ roundHeaders } signetFirst [heavyHeader] := by
  refine ⟨collisionless_of_list (by decide), validChain_heavyHeader hs.signet hs.dep,
    ⟨⟨ha.linked.linked, fun hash stored hm => ?_, ha.linked.keyed, ha.linked.root⟩, ha.best⟩,
    hs.first, fun i hash hi => ?_, ?_, ?_, fun _ => hs.clears, fun dep hdep => ?_⟩
  · exact List.mem_cons_of_mem _ (ha.linked.mem hash stored hm)
  · change [1#256, 2#256, 3#256][i]? = some hash at hi
    obtain ⟨hlt, rfl⟩ := List.getElem?_eq_some_iff.mp hi
    obtain rfl | rfl | rfl : i = 0 ∨ i = 1 ∨ i = 2 := by
      change i < 3 at hlt
      omega
    · exact ⟨_, hs.first, rfl⟩
    · exact ⟨_, hs.two, rfl⟩
    · exact ⟨_, hs.three, rfl⟩
  · show [1#256, 2#256, 3#256][s.bestHeight]? = some s.bestHash
    rw [hs.bestHeight, hs.bestHash]
    rfl
  · intro i _
    show _ ∉ s.headerIndex.invalidSet
    rw [hs.unmarked]
    exact List.not_mem_nil
  · cases (congrArg Option.isSome (show s.bip110 = some dep from hdep)).symm.trans hs.dep

/-- With both light blocks validated, the validated tip is the best header. -/
theorem inStep_lightLoop : (lightLoop s 2).node.InStep := by
  refine ⟨⟨_, hs.three, rfl⟩, ?_⟩
  show Ancestor _ s.headerIndex.headers s.bestHash 3#256
  rw [hs.bestHash]
  exact Branches.Ancestor.refl _

/-- The heavy header has more work. -/
theorem lt_heavyHeader {best : StoredHeader}
    (hbest : s.headerIndex.headers s.bestHash = some best) :
    best.chainWork < (chainAt signetFirst [heavyHeader] 1).chainWork := by
  rw [hs.bestHash, hs.three] at hbest
  obtain rfl := Option.some.inj hbest
  decide +kernel

theorem offered_lightLoop (ha : s.Anchored { h | h ∈ weighedHeaders } 1#256) (height : Nat) :
    (lightLoop s height).Offered { h | h ∈ roundHeaders } signetFirst [heavyHeader]
      heavyServer where
  serves := serves_heavyServer
  served := served_lightLoop hs ha height
  more := fun _ hbest => lt_heavyHeader hs hbest

theorem takesReply_lightLoop :
    (lightLoop s 1).node.sync.TakesReply signetFirst [heavyHeader] 1 0 := by
  refine ⟨Or.inr (Or.inr ?_), fun hlow => ?_, fun best hbest =>
    List.le_of_lt (lt_heavyHeader hs hbest)⟩
  · show isCatchingUp 1 s.bestHeight = false
    rw [hs.bestHeight]
    decide
  · have hsome : (s.headerIndex.headers 7#256).isSome := hlow.1
    rw [hs.heavy] at hsome
    cases hsome

omit hs

theorem sync_headersRound_of_nil {server : HeaderIndex} {genesis : Hash} {l : NodeLoop}
    (h : server.serveHeaders (l.node.sync.buildLocator genesis) Hash.allZeros = [])
    (envs : Nat → Env) (ρ : IterOrder (Nat × Hash)) :
    (l.headersRound server genesis envs ρ).node.sync = l.node.sync := by
  unfold NodeLoop.headersRound
  rw [h]
  rfl

/-- With one light block validated, the node gets to the heavy header. -/
theorem reached_lightLoop_one :
    (lightLoop lightSync 1).Reaches heavyServer signetFirst [heavyHeader] (fun _ _ => sampleEnv)
      fun _ => IterOrder.id :=
  (NodeLoop.reached_of_first_reply
    (offered_lightLoop twoLight_lightSync anchored_lightSync 1) (by decide +kernel)
    (fun _ _ => sampleEnv) fun _ => IterOrder.id).1
    (takesReply_lightLoop twoLight_lightSync) (by decide)

/-- The first round of a node that has validated both light blocks. -/
def lightRound : NodeLoop :=
  (lightLoop lightSync 2).headersRound heavyServer 1#256 (fun _ => sampleEnv) IterOrder.id

/-- **A validated tip that is higher ends the sync**: with both light blocks
validated the heavy header is adopted, and at once the best header is put back. The
next reply is empty. -/
theorem not_headerSyncConverges : ¬ HeaderSyncConverges := by
  intro h
  obtain ⟨n, hn⟩ := h { h | h ∈ roundHeaders } signetFirst [heavyHeader] heavyServer
    (lightLoop lightSync 2) (fun _ _ => sampleEnv) (fun _ => IterOrder.id)
    (offered_lightLoop twoLight_lightSync anchored_lightSync 2)
    (inStep_lightLoop twoLight_lightSync)
  have hfirst : (fun s : HeaderSync => (s.bestHash,
      heavyServer.serveHeaders (s.buildLocator 1#256) Hash.allZeros)) lightRound.node.sync
        = (3#256, []) := by
    decide +kernel
  obtain ⟨hhash, hnil⟩ := Prod.mk.inj hfirst
  -- from the first round on nothing changes
  have hstays : ∀ n, ((lightLoop lightSync 2).headersRounds heavyServer 1#256
      (fun _ _ => sampleEnv) (fun _ => IterOrder.id) (n + 1)).node.sync = lightRound.node.sync := by
    intro n
    induction n with
    | zero => rfl
    | succ n ih =>
      rw [NodeLoop.headersRounds, sync_headersRound_of_nil (by rw [ih]; exact hnil), ih]
  cases n with
  | zero => exact absurd (twoLight_lightSync.bestHash.symm.trans hn) (by decide)
  | succ n =>
    exact absurd (hhash.symm.trans ((congrArg HeaderSync.bestHash (hstays n)).symm.trans hn))
      (by decide)

end Sample
