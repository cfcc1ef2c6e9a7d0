import BitcoinPR.Node.Fork
import BitcoinPR.P2P.HeightIndex

/-!
# Recovery from an invalid branch

A block that turns out to be invalid for good is marked, and the node goes back
to its own chain: the header index is repointed at a target, and the blocks a
reorganisation has taken off are connected again from disk. The target is the
tip before the reorganisation if that is higher than the validated tip, and the
validated tip otherwise; how much work they have does not matter. And blocks are
connected again only if the target descends from the validated tip – which it
does not as soon as one block of the abandoned branch has been connected. Then
the header tip is at the target, and the validated chain stays where it is.
-/

open StoredHeader ChainState

open Branches (Ancestor Graded Indexes path up)

/-- Whether an error is a rejection for good. -/
def CoreError.isConsensusInvalid : CoreError → Bool
  | .invalidProofOfWork => true
  | .invalidTimestamp _ => true
  | .invalidDifficultyTarget _ => true
  | .invalidBlock _ => true
  | .invalidTransaction _ => true
  | .invalidScript _ => true
  | .invalidCoinbase _ => true
  | .blockWeightExceeded _ _ => true
  | .invalidSubsidy _ _ => true
  | _ => false

/-! ## Going back -/

namespace ChainState

/-- Where to go back to: the tip before a reorganisation, if it is higher. -/
def recoveryTarget (s : ChainState) (reorgFrom : Option (Hash × Nat)) : Hash × Nat :=
  match reorgFrom with
  | some pre => if s.bestHeight < pre.2 then pre else (s.bestHash, s.bestHeight)
  | none => (s.bestHash, s.bestHeight)

/-- Repoint the height index and the header tip at a target. -/
def retarget (s : ChainState) (target : Hash × Nat) : ChainState :=
  { s with
    headerIndex := ((s.headerIndex.restoreBranchHeightIndex target.1).getD
      s.headerIndex).resetForkHeaderTip target.2 target.1 }

/-- Walk down from `walkHash`, at height `base + k`, to height `base`, and list
the blocks passed, lowest first. -/
def replayWalk (ix : HeaderIndex) (base : Nat) :
    Nat → Hash → List Hash → Option (List Hash × Hash)
  | 0, walkHash, replay => some (replay, walkHash)
  | k + 1, walkHash, replay =>
    match ix.getHeader walkHash with
    | some stored =>
      if stored.height = base + (k + 1) then
        replayWalk ix base k stored.header.prevBlockhash (walkHash :: replay)
      else none
    | none => none

variable [Hashing] [ScriptEngine]

/-- Connect blocks from disk, until one is missing or fails. -/
def replayBlocks (envs : Nat → Env) (blocks : Hash → Option Block) :
    List Hash → ChainState → ChainState
  | [], s => s
  | hash :: hashes, s =>
    match blocks hash with
    | none => s
    | some block =>
      match s.connectBlock (envs (s.bestHeight + 1)) block (s.bestHeight + 1) with
      | (.ok _, s') => replayBlocks envs blocks hashes s'
      | (.error _, s') => s'

/-- **Put the node back on its own chain.** -/
def recoverFromInvalidBranch (s : ChainState) (envs : Nat → Env) (blocks : Hash → Option Block)
    (reorgFrom : Option (Hash × Nat)) : ChainState :=
  let target := s.recoveryTarget reorgFrom
  let s := s.retarget target
  if s.bestHeight < target.2 then
    match replayWalk s.headerIndex s.bestHeight (target.2 - s.bestHeight) target.1 [] with
    | some (replay, reached) =>
      if reached = s.bestHash then s.replayBlocks envs blocks replay else s
    | none => s
  else s

end ChainState

/-! ## Draining a block -/

/-- What comes of a block taken from the buffer. -/
inductive DrainStep where
  /-- It is not on the best header chain, or marked. -/
  | stale
  | connected (txids : List Hash)
  | failed (error : CoreError)
deriving DecidableEq, Repr

namespace Node

variable [Hashing] [ScriptEngine]

/-- Try to connect a block to the validated tip. -/
def drainStep (n : Node) (env : Env) (block : Block) : DrainStep × ChainState :=
  let expectedHash := n.index.getHashAtHeight (n.chain.bestHeight + 1)
  if expectedHash.isSome ∧ expectedHash ≠ some block.blockHash then (.stale, n.chain)
  else if n.index.isInvalid block.blockHash then (.stale, n.chain)
  else
    match n.chain.connectBlock env block (n.chain.bestHeight + 1) with
    | (.ok txids, s) => (.connected txids, s)
    | (.error e, s) => (.failed e, s)

/-- The validated tip becomes the best header. -/
def mirrorTip (n : Node) : Node :=
  n.withSync { n.sync with
    bestHash := n.chain.bestHash
    bestHeight := n.chain.bestHeight
    bestChainWork :=
      ((n.index.getHeader n.chain.bestHash).map StoredHeader.chainWork).getD zeroWork }

/-- Mark a block and abandon its branch. -/
def abandonBranch (n : Node) (envs : Nat → Env) (hash : Hash) : Node :=
  let marked : ChainState := { n.chain with headerIndex := n.index.markInvalid hash }
  let chain := marked.recoverFromInvalidBranch envs n.blocks n.lastReorgFrom
  { (n.withChain chain).mirrorTip with lastReorgFrom := none }

/-- **Drain a block**: a failure for good abandons its branch; blocks connected
then are worked on in `envs`, by height. -/
def drainBlock (n : Node) (envs : Nat → Env) (env : Env) (block : Block) : DrainStep × Node :=
  match n.drainStep env block with
  | (.stale, _) => (.stale, n)
  | (.connected txids, s) => (.connected txids, (n.withChain s).followLocalTip)
  | (.failed e, s) =>
    (.failed e, if e.isConsensusInvalid then (n.withChain s).abandonBranch envs block.blockHash
      else n.withChain s)

end Node

/-! ## Connecting again -/

namespace ChainState

/-- **The walk passes the branch of the target**, and reaches its ancestor at
the height of the tip. -/
theorem replayWalk_eq {genesis : Hash} {ix : HeaderIndex} (hlinked : Linked genesis ix.headers)
    (base : Nat) {k : Nat} {a : Hash} {stored : StoredHeader} (ha : ix.headers a = some stored)
    (hk : stored.height = base + k) (replay : List Hash) :
    replayWalk ix base k a replay
      = some (path parent ix.headers k a ++ replay,
          (up parent ix.headers)^[k] a) := by
  induction k generalizing a stored replay with
  | zero => rfl
  | succ k ih =>
    have hup := up_eq ha (by omega)
    obtain ⟨parent, hparent, hheight⟩ := hlinked.graded.exists_up ha
    unfold replayWalk
    simp only [HeaderIndex.getHeader, ha, if_pos hk]
    rw [← hup, ih hparent (by omega), path, List.append_assoc]
    rfl

variable [Hashing] [ScriptEngine]

/-- **The blocks are on disk and connect**, one after another. -/
def Replays (envs : Nat → Env) (blocks : Hash → Option Block) : List Hash → ChainState → Prop
  | [], _ => True
  | hash :: hashes, s => ∃ block txids s', blocks hash = some block ∧ block.blockHash = hash
      ∧ s.connectBlock (envs (s.bestHeight + 1)) block (s.bestHeight + 1) = (.ok txids, s')
      ∧ Replays envs blocks hashes s'

variable {envs : Nat → Env} {blocks : Hash → Option Block}

theorem replays_append {l₁ l₂ : List Hash} {s : ChainState} :
    Replays envs blocks (l₁ ++ l₂) s ↔
      Replays envs blocks l₁ s ∧ Replays envs blocks l₂ (s.replayBlocks envs blocks l₁) := by
  induction l₁ generalizing s with
  | nil => exact ⟨fun h => ⟨trivial, h⟩, fun h => h.2⟩
  | cons hash l₁ ih =>
    constructor
    · rintro ⟨block, txids, s', hblock, hhash, hconnect, hrest⟩
      refine ⟨⟨block, txids, s', hblock, hhash, hconnect, (ih.mp hrest).1⟩, ?_⟩
      simp only [replayBlocks, hblock, hconnect]
      exact (ih.mp hrest).2
    · rintro ⟨⟨block, txids, s', hblock, hhash, hconnect, hrest⟩, hlast⟩
      simp only [replayBlocks, hblock, hconnect] at hlast
      exact ⟨block, txids, s', hblock, hhash, hconnect, ih.mpr ⟨hrest, hlast⟩⟩

theorem replayBlocks_append {l₁ l₂ : List Hash} {s : ChainState} (h : Replays envs blocks l₁ s) :
    s.replayBlocks envs blocks (l₁ ++ l₂)
      = (s.replayBlocks envs blocks l₁).replayBlocks envs blocks l₂ := by
  induction l₁ generalizing s with
  | nil => rfl
  | cons hash l₁ ih =>
    obtain ⟨block, txids, s', hblock, -, hconnect, hrest⟩ := h
    simp only [List.cons_append, replayBlocks, hblock, hconnect]
    exact ih hrest

/-- The index says the same of headers, heights and the header tip. -/
structure SameHeaders (ix ix' : HeaderIndex) : Prop where
  headers : ix'.headers = ix.headers
  heightIndex : ix'.heightIndex = ix.heightIndex
  headerTip : ix'.headerTip = ix.headerTip

/-- **Connecting a block the index names already** moves the tip and leaves the
index as it is. -/
theorem connectBlock_named {s s' : ChainState} {env : Env} {block : Block} {height : Nat}
    {txids : List Hash} (h : s.connectBlock env block height = (.ok txids, s'))
    (hstored : (s.headerIndex.headers block.blockHash).isSome)
    (hnamed : s.headerIndex.heightIndex height = some block.blockHash) :
    s'.bestHash = block.blockHash ∧ s'.bestHeight = height
      ∧ SameHeaders s.headerIndex s'.headerIndex := by
  obtain ⟨mtp, bip110, bipCache, batch, s₁, -, -, -, hval, -, rfl⟩ := connectBlock_eq_ok.mp h
  have hix : s₁.headerIndex = s.headerIndex := (rejected_validateTransactions hval).headerIndex
  obtain ⟨stored, hstored⟩ := Option.isSome_iff_exists.mp hstored
  have hindex : indexHeader s₁.headerIndex block height
      = s.headerIndex.setHeightHash height block.blockHash := by
    unfold indexHeader
    rw [hix]
    simp only [HeaderIndex.getHeader, HeaderIndex.setHeightHash, hstored]
  have hsame : SameHeaders s.headerIndex (indexHeader s₁.headerIndex block height) := by
    rw [hindex]
    exact ⟨rfl, Function.update_eq_self_iff.mpr hnamed.symm, rfl⟩
  refine ⟨rfl, rfl, ?_⟩
  unfold commitBlock
  simp only
  split
  · exact ⟨hsame.headers, hsame.heightIndex, hsame.headerTip⟩
  · exact hsame

/-- **Connecting a branch again** that the index names ends at its tip. -/
theorem replayBlocks_path {genesis : Hash} {s : ChainState}
    (hlinked : Linked genesis s.headerIndex.headers) {k : Nat} {a : Hash} {stored : StoredHeader}
    (ha : s.headerIndex.headers a = some stored) (hk : stored.height = s.bestHeight + k)
    (hindexes : Indexes parent s.headerIndex.headers s.headerIndex.heightIndex a
      stored.height)
    (hreached : (up parent s.headerIndex.headers)^[k] a = s.bestHash)
    (h : Replays envs blocks (path parent s.headerIndex.headers k a) s) :
    (s.replayBlocks envs blocks (path parent s.headerIndex.headers k a)).bestHash = a
      ∧ (s.replayBlocks envs blocks
          (path parent s.headerIndex.headers k a)).bestHeight = stored.height
      ∧ SameHeaders s.headerIndex (s.replayBlocks envs blocks
          (path parent s.headerIndex.headers k a)).headerIndex := by
  induction k generalizing a stored with
  | zero => exact ⟨hreached.symm, by rw [hk]; rfl, rfl, rfl, rfl⟩
  | succ k ih =>
    obtain ⟨parent, hparent, hheight⟩ := hlinked.graded.exists_up ha
    have hbelow : Indexes StoredHeader.parent s.headerIndex.headers s.headerIndex.heightIndex
        (up StoredHeader.parent s.headerIndex.headers a) parent.height := by
      refine hindexes.of_apply_eq (by omega) ?_
      rw [hindexes _ (by omega), show stored.height - parent.height = 1 by omega]
      rfl
    rw [path, replays_append] at h
    obtain ⟨hlow, block, txids, s', hblock, hhash, hconnect, -⟩ := h
    obtain ⟨hbest, hbestHeight, hsame⟩ := ih hparent (by omega) hbelow hreached hlow
    rw [path, replayBlocks_append hlow]
    generalize s.replayBlocks envs blocks (path StoredHeader.parent s.headerIndex.headers k
      (up StoredHeader.parent s.headerIndex.headers a)) = t at *
    have htop : t.bestHeight + 1 = stored.height := by omega
    obtain ⟨hbest', hheight', hsame'⟩ := connectBlock_named hconnect
      (by rw [hsame.headers, hhash, ha]; rfl)
      (by rw [hsame.heightIndex, htop, hhash]; exact hindexes.apply_tip)
    simp only [replayBlocks, hblock, hconnect]
    exact ⟨hbest'.trans hhash, hheight'.trans htop, hsame'.headers.trans hsame.headers,
      hsame'.heightIndex.trans hsame.heightIndex, hsame'.headerTip.trans hsame.headerTip⟩

end ChainState

/-! ## Where recovery ends -/

namespace ChainState

variable {s : ChainState} {genesis target best : Hash} {stored : StoredHeader} {bestHeight : Nat}

/-- **Repointing the index** at a stored target. -/
theorem retarget_index (hlinked : Linked genesis s.headerIndex.headers)
    (hcanonical : s.headerIndex.Canonical best bestHeight)
    (htip : s.headerIndex.headerTip = some (best, bestHeight))
    (htarget : s.headerIndex.headers target = some stored) :
    (s.retarget (target, stored.height)).headerIndex.headers = s.headerIndex.headers
      ∧ (s.retarget (target, stored.height)).headerIndex.headerTip = some (target, stored.height)
      ∧ (s.retarget (target, stored.height)).headerIndex.Canonical target stored.height := by
  obtain ⟨ix, hrestore, hix⟩ := hcanonical.resetForkHeaderTip hlinked.graded htip htarget
  have heq : (s.retarget (target, stored.height)).headerIndex
      = ix.resetForkHeaderTip stored.height target := by
    unfold retarget
    rw [hrestore, Option.getD_some]
  rw [heq]
  exact ⟨(HeaderIndex.reindexed_restoreBranchHeightIndex hrestore).headers, rfl, hix⟩

variable [Hashing] [ScriptEngine] {envs : Nat → Env} {blocks : Hash → Option Block}
  {old tip : StoredHeader} {oldHash : Hash}

/-- The tip of before is higher: the walk from there decides. -/
theorem recover_of_lt (hlinked : Linked genesis s.headerIndex.headers)
    (hcanonical : s.headerIndex.Canonical best bestHeight)
    (htip : s.headerIndex.headerTip = some (best, bestHeight))
    (hold : s.headerIndex.headers oldHash = some old) (hlt : s.bestHeight < old.height) :
    s.recoverFromInvalidBranch envs blocks (some (oldHash, old.height))
      = if (up parent s.headerIndex.headers)^[old.height - s.bestHeight] oldHash
            = s.bestHash then
          (s.retarget (oldHash, old.height)).replayBlocks envs blocks
            (path parent s.headerIndex.headers (old.height - s.bestHeight) oldHash)
        else s.retarget (oldHash, old.height) := by
  have hheaders := (retarget_index hlinked hcanonical htip hold).1
  have hlinked' : Linked genesis (s.retarget (oldHash, old.height)).headerIndex.headers :=
    hheaders.symm ▸ hlinked
  have hwalk := replayWalk_eq hlinked' s.bestHeight (by rw [hheaders]; exact hold)
    (show old.height = s.bestHeight + (old.height - s.bestHeight) by omega) []
  rw [hheaders, List.append_nil] at hwalk
  unfold recoverFromInvalidBranch recoveryTarget
  simp only [if_pos hlt]
  rw [if_pos (show (s.retarget (oldHash, old.height)).bestHeight < old.height from hlt)]
  rw [show (s.retarget (oldHash, old.height)).bestHeight = s.bestHeight from rfl, hwalk]
  rfl

end ChainState

namespace Node

variable [Hashing] [ScriptEngine]

/-- **A reorganisation under way**: the index describes the branch of the best
header, which has more work than the tip of before; the validated tip is on that
branch. -/
structure Reorganising (n : Node) (genesis oldHash : Hash) (old tip : StoredHeader) : Prop where
  linked : Linked genesis n.index.headers
  indexed : n.sync.Indexed
  heavier : ∃ best, n.index.headers n.sync.bestHash = some best
    ∧ best.height = n.sync.bestHeight ∧ old.chainWork < best.chainWork
  validated : n.index.headers n.chain.bestHash = some tip
  height : tip.height = n.chain.bestHeight
  onBest : Ancestor StoredHeader.parent n.index.headers n.sync.bestHash n.chain.bestHash
  stored : n.index.headers oldHash = some old
  reorgFrom : n.lastReorgFrom = some (oldHash, old.height)

/-- **The node is back on one chain**: the validated tip has at least the work
of the tip of before, and is that tip if the part of the branch that was
connected had less; height index, header tip and best header describe one chain,
which contains the validated tip. -/
structure Recovered (n : Node) (oldHash : Hash) (old tip : StoredHeader) : Prop where
  work : ∃ best, n.index.headers n.chain.bestHash = some best ∧ old.chainWork ≤ best.chainWork
  back : tip.chainWork < old.chainWork → n.chain.bestHash = oldHash
  oneChain : ∃ top height, n.index.Canonical top height
    ∧ n.index.headerTip = some (top, height)
    ∧ n.sync.bestHash = top ∧ n.sync.bestHeight = height
    ∧ Ancestor StoredHeader.parent n.index.headers top n.chain.bestHash

/-- The chain after a block has failed and is marked. -/
def failedChain (n : Node) (env : Env) (block : Block) : ChainState :=
  { (n.drainStep env block).2 with
    headerIndex := (n.drainStep env block).2.headerIndex.markInvalid block.blockHash }

variable {n : Node} {genesis oldHash : Hash} {old tip : StoredHeader} {envs : Nat → Env}
  {env : Env} {block : Block} {e : CoreError}

section

variable (hfail : (n.drainBlock envs env block).1 = .failed e)
include hfail

/-- A block fails if it cannot be connected. -/
theorem exists_of_failed :
    ∃ s, n.drainStep env block = (.failed e, s)
      ∧ n.chain.connectBlock env block (n.chain.bestHeight + 1) = (.error e, s) := by
  have hstep : (n.drainStep env block).1 = .failed e := by
    rw [← hfail]
    unfold drainBlock
    rcases n.drainStep env block with ⟨step, s⟩
    cases step <;> rfl
  refine ⟨(n.drainStep env block).2, Prod.ext hstep rfl, ?_⟩
  unfold drainStep at hstep ⊢
  simp only at hstep ⊢
  split at hstep
  · cases hstep
  · rename_i hexpected
    rw [if_neg hexpected]
    split at hstep
    · cases hstep
    · rename_i hmarked
      rw [if_neg hmarked]
      rcases hconnect : n.chain.connectBlock env block (n.chain.bestHeight + 1) with ⟨result, s⟩
      rw [hconnect] at hstep
      cases result with
      | ok txids => cases hstep
      | error e' =>
        obtain rfl := DrainStep.failed.inj hstep
        rfl

/-- A failed block leaves the tip and the index. -/
theorem failedChain_eq :
    (n.failedChain env block).bestHash = n.chain.bestHash
      ∧ (n.failedChain env block).bestHeight = n.chain.bestHeight
      ∧ (n.failedChain env block).headerIndex = n.index.markInvalid block.blockHash := by
  obtain ⟨s, hstep, hconnect⟩ := exists_of_failed hfail
  have hrejected := rejected_of_connectBlock_eq_error hconnect
  unfold failedChain
  rw [hstep]
  refine ⟨hrejected.bestHash, hrejected.bestHeight, ?_⟩
  rw [hrejected.headerIndex]
  rfl

/-- **What is left when a block has failed for good**: header sync follows the
chain that was recovered. -/
theorem drainBlock_failed (he : e.isConsensusInvalid = true) :
    (n.drainBlock envs env block).2.chain
        = (n.failedChain env block).recoverFromInvalidBranch envs n.blocks n.lastReorgFrom
      ∧ (n.drainBlock envs env block).2.sync.bestHash
        = (n.drainBlock envs env block).2.chain.bestHash
      ∧ (n.drainBlock envs env block).2.sync.bestHeight
        = (n.drainBlock envs env block).2.chain.bestHeight := by
  obtain ⟨s, hstep, -⟩ := exists_of_failed hfail
  unfold drainBlock failedChain
  rw [hstep]
  simp only [he, if_true]
  exact ⟨rfl, rfl, rfl⟩

end

/-- The chain recovery starts from has the header index of the reorganisation,
but for the mark. -/
structure Reverting (s : ChainState) (n : Node) (genesis oldHash : Hash)
    (old tip : StoredHeader) : Prop where
  linked : Linked genesis s.headerIndex.headers
  canonical : s.headerIndex.Canonical n.sync.bestHash n.sync.bestHeight
  headerTip : s.headerIndex.headerTip = some (n.sync.bestHash, n.sync.bestHeight)
  validated : s.headerIndex.headers s.bestHash = some tip
  height : tip.height = s.bestHeight
  stored : s.headerIndex.headers oldHash = some old

theorem Reorganising.reverting (h : n.Reorganising genesis oldHash old tip)
    (hfail : (n.drainBlock envs env block).1 = .failed e) :
    Reverting (n.failedChain env block) n genesis oldHash old tip := by
  obtain ⟨hhash, hheight, hindex⟩ := failedChain_eq hfail
  have hcanonical : n.index.Canonical n.sync.bestHash n.sync.bestHeight := by
    rw [index, ← n.shared]
    exact h.indexed.canonical
  have htip : n.index.headerTip = some (n.sync.bestHash, n.sync.bestHeight) := by
    rw [index, ← n.shared]
    exact h.indexed.tip
  refine ⟨?_, ?_, ?_, ?_, h.height.trans hheight.symm, ?_⟩ <;> rw [hindex]
  · exact h.linked
  · exact ⟨hcanonical.indexes, hcanonical.above⟩
  · exact htip
  · rw [hhash]
    exact h.validated
  · exact h.stored

section

variable {s : ChainState} {n' : Node} {blocks : Hash → Option Block}

section

variable (h : Reverting s n genesis oldHash old tip)
  (hchain : n'.chain = s.recoverFromInvalidBranch envs blocks (some (oldHash, old.height)))
  (hhash : n'.sync.bestHash = n'.chain.bestHash)
  (hheight : n'.sync.bestHeight = n'.chain.bestHeight)
include h hchain hhash hheight

/-- Where the validated tip is not below the tip of before. -/
theorem recovered_of_le (hle : old.height ≤ tip.height) :
    n'.Recovered oldHash old tip ↔ old.chainWork ≤ tip.chainWork := by
  -- the validated tip is the target
  unfold recoverFromInvalidBranch recoveryTarget at hchain
  simp only [if_neg (Nat.not_lt_of_le (h.height ▸ hle))] at hchain
  replace hchain := hchain.trans (if_neg (Nat.lt_irrefl _))
  obtain ⟨hheaders, htip, hcanonical⟩ :=
    retarget_index h.linked h.canonical h.headerTip h.validated
  rw [h.height, ← hchain] at hheaders htip hcanonical
  have hbest : n'.chain.bestHash = s.bestHash := by
    rw [hchain]
    rfl
  have hbestHeight : n'.chain.bestHeight = s.bestHeight := by
    rw [hchain]
    rfl
  have hstored : n'.index.headers n'.chain.bestHash = some tip := by
    rw [index, hheaders, hbest, h.validated]
  constructor
  · rintro ⟨⟨best, hb, hwork⟩, -, -⟩
    rwa [← Option.mem_unique hstored hb] at hwork
  · intro hwork
    refine ⟨⟨tip, hstored, hwork⟩, fun hless => absurd hless hwork,
      ⟨s.bestHash, s.bestHeight, hcanonical, htip, hhash.trans hbest,
        hheight.trans hbestHeight, ?_⟩⟩
    rw [hbest]
    exact Ancestor.refl _

/-- Where it is below. -/
theorem recovered_of_lt (hlt : tip.height < old.height)
    (hreplays : Ancestor parent s.headerIndex.headers oldHash s.bestHash →
      Replays envs blocks
        (path parent s.headerIndex.headers (old.height - tip.height) oldHash)
        (s.retarget (oldHash, old.height))) :
    n'.Recovered oldHash old tip ↔
      Ancestor parent s.headerIndex.headers oldHash s.bestHash := by
  rw [recover_of_lt h.linked h.canonical h.headerTip h.stored (h.height ▸ hlt),
    ← h.height] at hchain
  obtain ⟨hheaders, htip, hcanonical⟩ :=
    retarget_index h.linked h.canonical h.headerTip h.stored
  have hancestor := h.linked.graded.ancestor_iff h.stored h.validated
  by_cases hreach : (up parent s.headerIndex.headers)^[old.height - tip.height] oldHash
      = s.bestHash
  · have hanc := hancestor.mpr ⟨Nat.le_of_lt hlt, hreach⟩
    refine iff_of_true ?_ hanc
    rw [if_pos hreach] at hchain
    obtain ⟨hbest, hbestHeight, hsame⟩ := replayBlocks_path
      (s := s.retarget (oldHash, old.height)) (k := old.height - tip.height)
      (hheaders ▸ h.linked) (hheaders ▸ h.stored)
      (show old.height = s.bestHeight + (old.height - tip.height) by rw [← h.height]; omega)
      hcanonical.indexes (hheaders.symm ▸ hreach) (hheaders.symm ▸ hreplays hanc)
    rw [hheaders, ← hchain] at hbest hbestHeight hsame
    refine ⟨⟨old, ?_, List.le_refl _⟩, fun _ => hbest, ⟨oldHash, old.height, ⟨?_, ?_⟩, ?_,
      hhash.trans hbest, hheight.trans hbestHeight, ?_⟩⟩
    · rw [index, hsame.headers, hheaders, hbest, h.stored]
    · rw [index, hsame.headers, hsame.heightIndex]
      exact hcanonical.indexes
    · rw [index, hsame.heightIndex]
      exact hcanonical.above
    · rw [index, hsame.headerTip, htip]
    · rw [hbest]
      exact Ancestor.refl _
  · have hnot : ¬ Ancestor parent s.headerIndex.headers oldHash s.bestHash :=
      fun hanc => hreach (hancestor.mp hanc).2
    refine iff_of_false (fun hrec => hnot ?_) hnot
    rw [if_neg hreach] at hchain
    obtain ⟨top, height, -, htop, -, -, hanc⟩ := hrec.oneChain
    rw [index, hchain] at htop hanc
    obtain rfl := (Prod.mk.inj (Option.mem_unique htip htop)).1
    rw [hheaders] at hanc
    exact hanc

end

end

/-- **Recovery succeeds exactly if** the validated tip is not lower than the tip
of before and has no less work, or is lower and one of its ancestors – that is,
no block of the abandoned branch is connected yet. The blocks of the chain of
before are on disk and connect again. -/
theorem recovered_iff (h : n.Reorganising genesis oldHash old tip)
    (hfail : (n.drainBlock envs env block).1 = .failed e) (he : e.isConsensusInvalid = true)
    (hreplays : Ancestor StoredHeader.parent n.index.headers oldHash n.chain.bestHash →
      ChainState.Replays envs n.blocks
        (path StoredHeader.parent n.index.headers (old.height - tip.height) oldHash)
        ((n.failedChain env block).retarget (oldHash, old.height))) :
    (n.drainBlock envs env block).2.Recovered oldHash old tip ↔
      (old.height ≤ tip.height ∧ old.chainWork ≤ tip.chainWork) ∨
        (tip.height < old.height
          ∧ Ancestor StoredHeader.parent n.index.headers oldHash n.chain.bestHash) := by
  obtain ⟨hchain, hsyncHash, hsyncHeight⟩ := drainBlock_failed hfail he
  obtain ⟨hhash, -, hindex⟩ := failedChain_eq hfail
  have hheaders : (n.failedChain env block).headerIndex.headers = n.index.headers := by
    rw [hindex]
    rfl
  have hreverting := h.reverting hfail
  rw [h.reorgFrom] at hchain
  rw [← hheaders, ← hhash] at hreplays ⊢
  rcases Nat.lt_or_ge tip.height old.height with hlt | hle
  · rw [recovered_of_lt hreverting hchain hsyncHash hsyncHeight hlt hreplays]
    exact ⟨fun hanc => Or.inr ⟨hlt, hanc⟩,
      fun hor => (hor.resolve_left fun hand => absurd hand.1 (Nat.not_le_of_lt hlt)).2⟩
  · rw [recovered_of_le hreverting hchain hsyncHash hsyncHeight hle]
    exact ⟨fun hwork => Or.inl ⟨hle, hwork⟩,
      fun hor => (hor.resolve_right fun hand => absurd hand.1 (Nat.not_lt_of_le hle)).2⟩

end Node

/-- Whatever block of the branch fails for good, the node is back on one chain
afterwards. -/
def RecoveryRestoresChain : Prop :=
  ∀ [Hashing] [ScriptEngine] (genesis oldHash : Hash) (old tip : StoredHeader) (n : Node)
    (envs : Nat → Env) (env : Env) (block : Block) (e : CoreError),
    n.Reorganising genesis oldHash old tip →
    (∀ hash, Ancestor StoredHeader.parent n.index.headers oldHash hash → hash ≠ genesis →
      (n.blocks hash).isSome) →
    (n.drainBlock envs env block).1 = .failed e → e.isConsensusInvalid = true →
    (Ancestor StoredHeader.parent n.index.headers oldHash n.chain.bestHash →
      ChainState.Replays envs n.blocks
        (path StoredHeader.parent n.index.headers (old.height - tip.height) oldHash)
        ((n.failedChain env block).retarget (oldHash, old.height))) →
    (n.drainBlock envs env block).2.Recovered oldHash old tip

section Sample

attribute [local instance] sampleHashing sampleScripts

/-- Headers 2 and 3 in a row over header 1, and headers 5, 6 and 7 beside
them. -/
def rivalTree : List (Nat × Nat × Nat) :=
  [(1, 0, 0), (2, 1, 1), (3, 2, 2), (5, 1, 1), (6, 5, 2), (7, 6, 3)]

/-- The index describes the longer branch. -/
def rivalIndex : HeaderIndex :=
  { HeaderIndex.empty with
    headers := treeHeaders rivalTree
    heightIndex := PartialMap.putAll (fun _ => none)
      [(0, 1#256), (1, 5#256), (2, 6#256), (3, 7#256)]
    headerTip := some (7#256, 3) }

/-- The node has left header `old` for header 7, and its validated tip is header
`tip`. -/
def rivalNode (tip height old oldHeight : Nat) : Node where
  chain := sampleState rivalIndex (sampleStore []) tip height
  sync := HeaderSync.new ConsensusParams.regtest rivalIndex 3 7#256 none fun _ => none
  blocks := PartialMap.putAll (fun _ => none)
    [(2#256, sampleBlock 1 2 1 1 0 []), (3#256, sampleBlock 2 3 2 2 0 [])]
  lastReorgFrom := some (BitVec.ofNat 256 old, oldHeight)
  shared := rfl

/-- A block without a coinbase. -/
def badBlock (prev nonce time : Nat) : Block :=
  ⟨sampleHeader prev nonce time 0, [sampleSpend 0 [] [0]]⟩

theorem linked_rivalIndex : Linked 1#256 rivalIndex.headers :=
  (linkedMap_treeHeaders (S := Set.univ) (by decide) (by decide) (by decide)
    fun _ _ => Set.mem_univ _).linked

theorem canonical_rivalIndex : rivalIndex.Canonical 7#256 3 := by
  refine ⟨?_, fun h hlt => ?_⟩
  · have hall : ∀ h ≤ 3, rivalIndex.heightIndex h
        = some ((up parent rivalIndex.headers)^[3 - h] 7#256) := by
      decide
    exact hall
  · refine PartialMap.putAll_of_notMem _ fun hmem => ?_
    have hall : ∀ h ∈ [0, 1, 2, 3], ¬ 3 < h := by decide
    exact hall h hmem hlt

theorem reorganising_rivalNode (nonce prev height : Nat)
    (htip : rivalIndex.headers (BitVec.ofNat 256 nonce) = some (treeStored nonce prev height))
    (hon : height ≤ 3 ∧ (up parent rivalIndex.headers)^[3 - height] 7#256
      = BitVec.ofNat 256 nonce) :
    (rivalNode nonce height 3 2).Reorganising 1#256 3#256 (treeStored 3 2 2)
      (treeStored nonce prev height) := by
  have hbest : rivalIndex.headers 7#256 = some (treeStored 7 6 3) := by decide
  have hold : rivalIndex.headers 3#256 = some (treeStored 3 2 2) := by decide
  exact ⟨linked_rivalIndex, ⟨canonical_rivalIndex, rfl⟩, ⟨_, hbest, rfl, by decide⟩, htip, rfl,
    (linked_rivalIndex.graded.ancestor_iff hbest htip).mpr hon, hold, rfl⟩

/-- With nothing of the other branch connected, header 5 fails and the node is
back at header 3. -/
theorem recovered_rivalNode :
    ((rivalNode 1 0 3 2).drainBlock (fun _ => sampleEnv) sampleEnv (badBlock 1 5 1)).2.Recovered
      3#256 (treeStored 3 2 2) (treeStored 1 0 0) := by
  have hold : rivalIndex.headers 3#256 = some (treeStored 3 2 2) := by decide
  have htip : rivalIndex.headers 1#256 = some (treeStored 1 0 0) := by decide
  have hfail : ((rivalNode 1 0 3 2).drainBlock (fun _ => sampleEnv) sampleEnv
      (badBlock 1 5 1)).1 = .failed (.invalidCoinbase "first transaction is not coinbase") := by
    decide
  refine (Node.recovered_iff (reorganising_rivalNode 1 0 0 htip (by decide)) hfail rfl
    fun _ => ?_).mpr (Or.inr ⟨by decide, ?_⟩)
  · exact ⟨_, [0#256], _, rfl, by decide, Prod.ext (by decide) rfl,
      _, [0#256], _, rfl, by decide, Prod.ext (by decide) rfl, trivial⟩
  · exact (linked_rivalIndex.graded.ancestor_iff hold htip).mpr (by decide)

/-- **The node is stranded on the lighter branch**: with header 5 connected,
header 6 fails; the header tip goes back to header 3, and the validated tip
stays at header 5. -/
theorem not_recoveryRestoresChain : ¬ RecoveryRestoresChain := by
  intro h
  have hgraded := linked_rivalIndex.graded
  have hold : rivalIndex.headers 3#256 = some (treeStored 3 2 2) := by decide
  have htip : rivalIndex.headers 5#256 = some (treeStored 5 1 1) := by decide
  have hblocks : ∀ hash, Ancestor parent rivalIndex.headers 3#256 hash →
      hash ≠ 1#256 → ((rivalNode 5 1 3 2).blocks hash).isSome := by
    intro hash hanc hne
    obtain ⟨stored, hstored⟩ := Option.isSome_iff_exists.mp
      (hanc.isSome hgraded.closed (by rw [hold]; rfl))
    obtain ⟨-, rfl⟩ := (hgraded.ancestor_iff hold hstored).mp hanc
    have hall : ∀ k ≤ 2, (up parent rivalIndex.headers)^[k] 3#256 ≠ 1#256 →
        ((rivalNode 5 1 3 2).blocks
          ((up parent rivalIndex.headers)^[k] 3#256)).isSome := by
      decide
    exact hall _ (Nat.sub_le _ _) hne
  have hrec := h 1#256 3#256 (treeStored 3 2 2) (treeStored 5 1 1) (rivalNode 5 1 3 2)
    (fun _ => sampleEnv) sampleEnv (badBlock 5 6 2)
    (.invalidCoinbase "first transaction is not coinbase")
    (reorganising_rivalNode 5 1 1 htip (by decide)) hblocks (by decide) rfl
    fun hanc => absurd ((hgraded.ancestor_iff hold htip).mp hanc).2 (by decide)
  exact absurd (hrec.back (by decide)) (by decide)

end Sample
