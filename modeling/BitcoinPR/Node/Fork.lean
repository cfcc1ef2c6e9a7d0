import BitcoinPR.P2P.Linked

/-!
# The headers handler and its reorganisation

When header sync has accepted headers, the node asks whether the validated tip
is still on the best header chain and, if not, disconnects blocks until it is.
Where to stop is read off a map from heights to hashes that is filled by
walking down from the best header. The walk ends about a hundred blocks below
the validated height, and what is lower is not in the map: there every block
of the validated chain passes for one that is off the best chain.

Chain state and header sync share one header index, which `Node` carries as a
field. The blocks on disk are a map from hashes to blocks.
-/

open Branches (Ancestor Graded ForkPoint up)
open PartialMap Function StoredHeader Nat

/-- **The part of the node that follows headers**: the validated chain, header
sync, the blocks on disk, and the tip of the last reorganisation. -/
structure Node where
  chain : ChainState
  sync : HeaderSync
  blocks : Hash → Option Block
  lastReorgFrom : Option (Hash × Nat)
  /-- There is one header index. -/
  shared : sync.headerIndex = chain.headerIndex

namespace Node

/-- The header index. -/
def index (n : Node) : HeaderIndex := n.chain.headerIndex

/-- Move header sync, and the index with it. -/
def withSync (n : Node) (sync : HeaderSync) : Node where
  chain := { n.chain with headerIndex := sync.headerIndex }
  sync := sync
  blocks := n.blocks
  lastReorgFrom := n.lastReorgFrom
  shared := rfl

/-- Move the validated chain, and the index with it. -/
def withChain (n : Node) (chain : ChainState) : Node where
  chain := chain
  sync := { n.sync with headerIndex := chain.headerIndex }
  blocks := n.blocks
  lastReorgFrom := n.lastReorgFrom
  shared := rfl

end Node

/-! ## Whether to reorganise -/

/-- Walk `k` blocks down and compare. -/
def onBestWalk (ix : HeaderIndex) (csHash : Hash) : Nat → Hash → Bool
  | 0, walkHash => walkHash == csHash
  | k + 1, walkHash =>
    match ix.getHeader walkHash with
    | some stored => onBestWalk ix csHash k stored.header.prevBlockhash
    | none => false

/-- What the handler does with the validated chain. -/
inductive HandlerStep where
  /-- The chain is on the best header chain. -/
  | stay
  /-- The best header chain is invalid: take the header tip back. -/
  | reset
  /-- Disconnect blocks towards the best header. -/
  | reorg
deriving DecidableEq, Repr

namespace Node

/-- Blocks mined locally move the validated tip and not header sync, so a
validated tip above the best header becomes the best header. -/
def followLocalTip (n : Node) : Node :=
  if n.sync.bestHeight < n.chain.bestHeight then
    n.withSync { n.sync with
      headerIndex := n.sync.headerIndex.setHeaderTip n.chain.bestHash n.chain.bestHeight
      bestHeight := n.chain.bestHeight
      bestHash := n.chain.bestHash }
  else n

/-- Whether the validated tip is an ancestor of the best header. -/
def onBestChain (n : Node) : Bool :=
  if n.chain.bestHeight ≤ n.sync.bestHeight then
    onBestWalk n.index n.chain.bestHash (n.sync.bestHeight - n.chain.bestHeight) n.sync.bestHash
  else false

/-- The bound on the walk to a marked ancestor. -/
def invalidWalkMax : Nat := 10000

/-- The header tip goes back to the validated chain. -/
def resetHeaders (n : Node) : Node :=
  let hash := n.chain.bestHash
  let height := n.chain.bestHeight
  let ix := ((n.index.restoreBranchHeightIndex hash).getD n.index).resetForkHeaderTip height hash
  n.withSync { n.sync with
    headerIndex := ix
    bestHash := hash
    bestHeight := height
    bestChainWork := ((ix.getHeader hash).map StoredHeader.chainWork).getD zeroWork }

/-- What there is to do, and the node it is to be done with. -/
def chooseStep (n : Node) : HandlerStep × Node :=
  if n.onBestChain || n.chain.bestHeight == 0 then (.stay, n)
  else
    match n.index.firstInvalidAncestor n.sync.bestHash n.chain.bestHeight invalidWalkMax with
    | some _ => (.reset, n.resetHeaders)
    | none => (.reorg, n)

/-- **The headers handler**, once header sync has accepted a number of
headers: with none accepted it does not look at the validated chain. -/
def headersAccepted (n : Node) (accepted : Nat) : HandlerStep × Node :=
  if accepted = 0 then (.stay, n) else n.followLocalTip.chooseStep

end Node

/-! ## The reorganisation -/

/-- The hashes of the best header chain by height, from the best header down to
`floor` or to the first block, and the one the walk ends at. -/
def bestChainHashes (ix : HeaderIndex) (floor : Nat) : Nat → Hash → List (Nat × Hash)
  | 0, wh => [(0, wh)]
  | wht + 1, wh =>
    (wht + 1, wh) ::
      if floor ≤ wht + 1 then
        match ix.getHeader wh with
        | some stored => bestChainHashes ix floor wht stored.header.prevBlockhash
        | none => []
      else []

/-- Repoint the heights that do not name the best header chain. -/
def repairHeights (ix : HeaderIndex) (entries : List (Nat × Hash)) : HeaderIndex :=
  entries.foldl (fun ix p =>
    if ix.getHashAtHeight p.1 = some p.2 then ix
    else match ix.getHeader p.2 with
      | some stored => ix.insertHeader p.2 stored
      | none => ix) ix

namespace ChainState

variable [Hashing]

/-- Disconnect the tip with its block, if the block is on disk and can be. -/
def disconnectStored (s : ChainState) (env : Env) (blocks : Hash → Option Block) :
    Option ChainState :=
  match s.headerIndex.getHeader s.bestHash with
  | none => none
  | some _ =>
    match blocks s.bestHash with
    | none => none
    | some block =>
      match s.disconnectBlock env block s.bestHeight with
      | (.ok _, s') => some s'
      | (.error _, _) => none

/-- Roll the tip back with its undo record alone. -/
def rollbackTip (s : ChainState) : Option ChainState :=
  match s.utxoSet.rollbackBlock s.bestHash with
  | .error _ => none
  | .ok (prev, u) => some { s with
      utxoSet := u.setPendingFlushHeight (s.bestHeight - 1) prev
      bestHeight := s.bestHeight - 1
      bestHash := prev }

/-- Take the tip off, one way or the other. -/
def removeTip (s : ChainState) (env : Env) (blocks : Hash → Option Block) : Option ChainState :=
  match s.disconnectStored env blocks with
  | some s' => some s'
  | none => s.rollbackTip

/-- Take blocks off until the tip is on the best chain. The flag says whether
that worked; the height is fuel enough, since every round lowers it. -/
def disconnectLoop (onBest : Nat → Option Hash) (envs : Nat → Env)
    (blocks : Hash → Option Block) : Nat → ChainState → Bool × ChainState
  | 0, s => (true, s)
  | fuel + 1, s =>
    if s.bestHeight = 0 ∨ onBest s.bestHeight = some s.bestHash then (true, s)
    else match s.removeTip (envs s.bestHeight) blocks with
      | none => (false, s)
      | some s' => disconnectLoop onBest envs blocks fuel s'

end ChainState

namespace Node

/-- How far below the validated height the best header chain is known to the
loop. -/
def reorgSpan : Nat := 100

/-- The map of the best header chain. -/
def bestChain (n : Node) : List (Nat × Hash) :=
  bestChainHashes n.index (n.chain.bestHeight - reorgSpan) n.sync.bestHeight n.sync.bestHash

/-- The chain before blocks come off: height index repaired, store flushed. -/
def prepareReorg (n : Node) (env : Env) (ρ : IterOrder (Nat × Hash)) : ChainState :=
  { n.chain with
    headerIndex := repairHeights n.index (ρ.order n.bestChain)
    utxoSet := n.chain.utxoSet.flushToDisk env.order }

/-- **The reorganisation**: map the best header chain, repair the height index,
flush, take blocks off and flush again. Hash maps are iterated in the order `ρ`,
and height `i` is worked on in `envs i`. -/
def reorg [Hashing] (n : Node) (envs : Nat → Env) (ρ : IterOrder (Nat × Hash)) : Bool × Node :=
  let (ok, chain) := ChainState.disconnectLoop (PartialMap.putAll (fun _ => none) n.bestChain)
    envs n.blocks n.chain.bestHeight (n.prepareReorg (envs n.chain.bestHeight) ρ)
  let chain := if ok then
      { chain with utxoSet := chain.utxoSet.flushToDisk (envs chain.bestHeight).order }
    else chain
  (ok, { n.withChain chain with lastReorgFrom := some (n.chain.bestHash, n.chain.bestHeight) })

end Node

/-! ## What the map of the best chain holds -/

/-- **The map holds the best header chain** down to one below its floor. -/
theorem putAll_bestChainHashes {genesis : Hash} {ix : HeaderIndex}
    (hlinked : Linked genesis ix.headers) (floor h : Nat) {n : Nat} {a : Hash}
    {stored : StoredHeader} (ha : ix.headers a = some stored) (hn : stored.height = n) :
    putAll (fun _ => none) (bestChainHashes ix floor n a) h
      = if h = n ∨ (h < n ∧ floor ≤ h + 1) then
          some ((up parent ix.headers)^[n - h] a)
        else none := by
  induction n generalizing a stored with
  | zero =>
    rw [bestChainHashes, putAll_cons, putAll_nil]
    by_cases hh : h = 0
    · rw [hh]
      rfl
    · rw [update_of_ne hh, if_neg (by omega)]
  | succ n ih =>
    rw [bestChainHashes, putAll_cons, putAll_apply]
    have hup := up_eq ha (by omega)
    obtain ⟨parent, hparent, hheight⟩ := hlinked.graded.exists_up ha
    by_cases hfloor : floor ≤ n + 1
    · -- the walk goes on to the parent
      have hget : ix.getHeader a = some stored := ha
      simp only [if_pos hfloor, hget]
      rw [ih (hup ▸ hparent) (by omega)]
      by_cases hh : h = n + 1
      · rw [hh, update_self, if_neg (by omega), if_pos (Or.inl rfl), Nat.sub_self]
        rfl
      · rw [update_of_ne hh, Option.or_none]
        by_cases hle : h = n ∨ (h < n ∧ floor ≤ h + 1)
        · rw [if_pos hle, if_pos (by omega), ← hup, ← iterate_succ_apply,
            show (n - h).succ = n + 1 - h by omega]
        · rw [if_neg hle, if_neg (by omega)]
    · rw [if_neg hfloor, putAll_nil, Option.none_or]
      by_cases hh : h = n + 1
      · rw [hh, update_self, if_pos (Or.inl rfl), Nat.sub_self]
        rfl
      · rw [update_of_ne hh, if_neg (by omega)]

/-- Repairing the height index leaves the stored headers. -/
theorem repairHeights_headers (ix : HeaderIndex) (entries : List (Nat × Hash)) :
    (repairHeights ix entries).headers = ix.headers := by
  induction entries generalizing ix with
  | nil => rfl
  | cons p entries ih =>
    rw [repairHeights, List.foldl_cons]
    refine (ih _).trans ?_
    split
    · rfl
    · cases hp : ix.getHeader p.2 with
      | none => rfl
      | some stored => exact update_eq_self_iff.mpr hp.symm

/-! ## Taking the tip off -/

namespace ChainState

variable [Hashing]

/-- The blocks on disk are those of the stored headers. -/
def Indexed (ix : HeaderIndex) (blocks : Hash → Option Block) : Prop :=
  ∀ hash block stored, blocks hash = some block → ix.headers hash = some stored →
    block.blockHash = hash ∧ block.header = stored.header

/-- **The undo record of every block down from the tip is there**, and names the
parent. -/
def Undoable (s : ChainState) : Prop :=
  ∀ hash stored, Ancestor StoredHeader.parent s.headerIndex.headers s.bestHash hash →
    s.headerIndex.headers hash = some stored → 0 < stored.height →
    ∃ bytes spent created, s.utxoSet.Recorded hash (some bytes)
      ∧ deserializeUndo bytes = .ok ⟨spent, created, some stored.header.prevBlockhash⟩

variable {s s' : ChainState} {env : Env} {blocks : Hash → Option Block} {stored : StoredHeader}

/-- **The tip comes off**: its parent is the tip then, and the stored headers
and the records of other blocks are left. -/
theorem exists_removeTip (hblocks : Indexed s.headerIndex blocks)
    (htip : s.headerIndex.headers s.bestHash = some stored) {bytes : Bytes}
    {spent : List SpentUtxo} {created : List OutPoint}
    (hrec : s.utxoSet.Recorded s.bestHash (some bytes))
    (hparse : deserializeUndo bytes = .ok ⟨spent, created, some stored.header.prevBlockhash⟩)
    (env : Env) :
    ∃ s', s.removeTip env blocks = some s' ∧ s'.bestHash = stored.header.prevBlockhash
      ∧ s'.bestHeight = s.bestHeight - 1 ∧ s'.headerIndex.headers = s.headerIndex.headers
      ∧ ∀ hash record, s.bestHash ≠ hash → s.utxoSet.Recorded hash record →
          s'.utxoSet.Recorded hash record := by
  have hload : s.utxoSet.loadUndo s.bestHash
      = .ok (some ⟨spent, created, some stored.header.prevBlockhash⟩) := by
    rw [UtxoSet.loadUndo, hrec.undoBytes_eq]
    exact congrArg (Except.map some) hparse
  have hget : s.headerIndex.getHeader s.bestHash = some stored := htip
  unfold removeTip disconnectStored
  simp only [hget]
  cases hb : blocks s.bestHash with
  | some block =>
    obtain ⟨hhash, hheader⟩ := hblocks _ block stored hb htip
    have hdis : s.disconnectBlock env block s.bestHeight
        = (.ok (), s.undoBlock env block s.bestHeight _) :=
      disconnectBlock_eq_ok.mpr ⟨hhash, rfl, _, hhash ▸ hload, rfl⟩
    simp only [hdis]
    refine ⟨_, rfl, congrArg Header.prevBlockhash hheader, rfl, ?_, fun hash record hne hr => ?_⟩
    · show (unindexHeight _ _ _).headers = _
      unfold unindexHeight
      split
      · split <;> rfl
      · rfl
    · exact recorded_undoBlock_of_ne hr (hhash ▸ hne) _
  | none =>
    have hroll := UtxoSet.rollbackBlock_of_loadUndo hload
    simp only [rollbackTip, hroll]
    refine ⟨_, rfl, rfl, rfl, rfl, fun hash record hne hr => ?_⟩
    exact (hr.rollbackBlock_of_ne hne hload hroll).of_eq rfl rfl

/-- **Where the loop ends**: at the highest block of the chain that the map
knows, or at the first block. The induction is on the height of the tip; that
ancestors are lower keeps the records of the blocks still to come off. -/
theorem disconnectLoop_eq {genesis : Hash} {onBest : Nat → Option Hash} (envs : Nat → Env)
    (hlinked : Linked genesis s.headerIndex.headers) (hblocks : Indexed s.headerIndex blocks)
    (htip : s.headerIndex.headers s.bestHash = some stored) (hheight : stored.height = s.bestHeight)
    (hundo : s.Undoable) {k : Nat} (hk : k ≤ s.bestHeight)
    (hstop : k = 0 ∨ onBest k
      = some ((up parent s.headerIndex.headers)^[s.bestHeight - k] s.bestHash))
    (hgo : ∀ h, k < h → h ≤ s.bestHeight → onBest h
      ≠ some ((up parent s.headerIndex.headers)^[s.bestHeight - h] s.bestHash)) :
    ∃ s', disconnectLoop onBest envs blocks s.bestHeight s = (true, s') ∧ s'.bestHeight = k
      ∧ s'.bestHash
        = (up parent s.headerIndex.headers)^[s.bestHeight - k] s.bestHash
      ∧ s'.headerIndex.headers = s.headerIndex.headers := by
  generalize hfuel : s.bestHeight = fuel at hk hstop hgo hheight ⊢
  induction fuel generalizing s stored with
  | zero =>
    obtain rfl := le_zero.mp hk
    exact ⟨s, rfl, hfuel, rfl, rfl⟩
  | succ fuel ih =>
    rw [disconnectLoop, hfuel]
    by_cases hlast : k = fuel + 1
    · -- the tip is on the best chain
      subst hlast
      rw [Nat.sub_self, iterate_zero_apply] at hstop
      rw [if_pos (Or.inr (hstop.resolve_left (Nat.succ_ne_zero fuel))), Nat.sub_self]
      exact ⟨s, rfl, hfuel, rfl, rfl⟩
    · have hnot := hgo (fuel + 1) (by omega) (Nat.le_refl _)
      rw [Nat.sub_self, iterate_zero_apply] at hnot
      rw [if_neg (not_or.mpr ⟨Nat.succ_ne_zero fuel, hnot⟩)]
      obtain ⟨bytes, spent, created, hrec, hparse⟩ :=
        hundo _ stored (Ancestor.refl _) htip (by omega)
      obtain ⟨s₁, hremove, hhash₁, hheight₁, hheaders₁, hkeep⟩ :=
        exists_removeTip hblocks htip hrec hparse (envs (fuel + 1))
      have hup := up_eq htip (by omega)
      obtain ⟨parent, hparent, hlower⟩ := hlinked.graded.exists_up htip
      rw [hup] at hparent
      -- one step up from the tip is the new tip
      have hiter : ∀ h ≤ fuel, (up StoredHeader.parent s.headerIndex.headers)^[fuel + 1 - h]
          s.bestHash = (up StoredHeader.parent s₁.headerIndex.headers)^[fuel - h] s₁.bestHash := by
        intro h hh
        rw [hheaders₁, hhash₁, ← hup, ← iterate_succ_apply,
          show (fuel - h).succ = fuel + 1 - h by omega]
      rw [hremove, hiter k (by omega)]
      have htip₁ : s₁.headerIndex.headers s₁.bestHash = some parent := by
        rw [hheaders₁, hhash₁, hparent]
      refine hheaders₁ ▸ ih (hheaders₁ ▸ hlinked)
        (fun hash block st hb hst => hblocks hash block st hb (hheaders₁ ▸ hst)) htip₁ ?_ (by omega)
        (by omega)
        (hstop.imp_right fun h => h.trans (congrArg some (hiter k (by omega))))
        (fun h hkh hh heq => hgo h hkh (by omega)
          (heq.trans (congrArg some (hiter h hh).symm))) (by omega)
      -- what is below the new tip is not the old tip
      intro hash st hanc hst hpos
      rw [hheaders₁, hhash₁] at hanc
      rw [hheaders₁] at hst
      obtain ⟨bytes', spent', created', hrec', hparse'⟩ := hundo hash st
        (Relation.ReflTransGen.trans (hup ▸ hlinked.graded.ancestor_up htip) hanc) hst hpos
      refine ⟨bytes', spent', created', hkeep _ _ (fun heq => ?_) hrec', hparse'⟩
      have hle := ((hlinked.graded.ancestor_iff hparent hst).mp hanc).1
      rw [← heq, htip] at hst
      have := congrArg height (Option.some.inj hst)
      omega

end ChainState

/-! ## Where the reorganisation ends -/

namespace Node

/-- **A validated chain off the best header chain**: the index is a tree, both
tips are stored at their heights, the best header does not descend from the
validated tip, and `fork` is the highest block the two have in common. -/
structure Forked (genesis : Hash) (n : Node) (fork : Hash) : Prop where
  linked : Linked genesis n.index.headers
  tip : ∃ stored, n.index.headers n.chain.bestHash = some stored
    ∧ stored.height = n.chain.bestHeight
  best : ∃ stored, n.index.headers n.sync.bestHash = some stored
    ∧ stored.height = n.sync.bestHeight
  off : ¬ Ancestor StoredHeader.parent n.index.headers n.sync.bestHash n.chain.bestHash
  fork : ForkPoint StoredHeader.parent StoredHeader.height n.index.headers n.chain.bestHash
    n.sync.bestHash fork

variable [Hashing] {genesis fork : Hash} {n : Node} {stored : StoredHeader}

/-- The fork point is in the map of the best chain, or is the first block. -/
def ForkKnown (n : Node) (forkHeight : Nat) : Prop :=
  forkHeight = 0 ∨ forkHeight = n.sync.bestHeight
    ∨ n.chain.bestHeight ≤ forkHeight + reorgSpan + 1

instance (n : Node) (forkHeight : Nat) : Decidable (n.ForkKnown forkHeight) :=
  inferInstanceAs (Decidable (_ ∨ _ ∨ _))

section

variable (h : n.Forked genesis fork) (hblocks : ChainState.Indexed n.index n.blocks)
  (hundo : n.chain.Undoable)
include h hblocks hundo

/-- Where the reorganisation ends, in terms of the map of the best chain. -/
theorem exists_reorg_of_stop (envs : Nat → Env) (ρ : IterOrder (Nat × Hash)) {k : Nat}
    (hk : k ≤ n.chain.bestHeight)
    (hstop : k = 0 ∨ putAll (fun _ => none) n.bestChain k = some
      ((up parent n.index.headers)^[n.chain.bestHeight - k] n.chain.bestHash))
    (hgo : ∀ i, k < i → i ≤ n.chain.bestHeight →
      putAll (fun _ => none) n.bestChain i ≠ some
        ((up parent n.index.headers)^[n.chain.bestHeight - i] n.chain.bestHash)) :
    ∃ n', n.reorg envs ρ = (true, n') ∧ n'.chain.bestHash
      = (up parent n.index.headers)^[n.chain.bestHeight - k] n.chain.bestHash := by
  have hheaders : (n.prepareReorg (envs n.chain.bestHeight) ρ).headerIndex.headers
      = n.index.headers := repairHeights_headers n.index (ρ.order n.bestChain)
  have hindexed : ChainState.Indexed (n.prepareReorg (envs n.chain.bestHeight) ρ).headerIndex
      n.blocks := fun hash block st hb hst => hblocks hash block st hb (hheaders ▸ hst)
  have hundo' : (n.prepareReorg (envs n.chain.bestHeight) ρ).Undoable := by
    intro hash st hanc hst hpos
    rw [hheaders] at hanc hst
    obtain ⟨bytes, spent, created, hrec, hparse⟩ := hundo hash st hanc hst hpos
    exact ⟨bytes, spent, created, hrec.flushToDisk _, hparse⟩
  obtain ⟨tip, htip, htipHeight⟩ := h.tip
  obtain ⟨s', hs', -, hhash, -⟩ := ChainState.disconnectLoop_eq envs
    (hheaders.symm ▸ h.linked) hindexed (hheaders.symm ▸ htip) htipHeight hundo' hk
    (hheaders.symm ▸ hstop) (hheaders.symm ▸ hgo)
  rw [hheaders] at hhash
  have hloop : ChainState.disconnectLoop (putAll (fun _ => none) n.bestChain) envs
      n.blocks n.chain.bestHeight (n.prepareReorg (envs n.chain.bestHeight) ρ) = (true, s') := hs'
  simp only [reorg, hloop]
  exact ⟨_, rfl, hhash⟩

/-- **The reorganisation ends at the fork point or else at the first block.** -/
theorem exists_reorg (hfork : n.index.headers fork = some stored) (envs : Nat → Env)
    (ρ : IterOrder (Nat × Hash)) :
    ∃ n', n.reorg envs ρ = (true, n')
      ∧ n'.chain.bestHash = if n.ForkKnown stored.height then fork else genesis := by
  obtain ⟨tip, htip, htipHeight⟩ := h.tip
  obtain ⟨best, hbest, hbestHeight⟩ := h.best
  have hgraded := h.linked.graded
  obtain ⟨hle, hforkTip⟩ := (hgraded.ancestor_iff htip hfork).mp h.fork.left
  have hle' := ((hgraded.ancestor_iff hbest hfork).mp h.fork.right).1
  have hfirst := h.linked.iterate_up_eq_genesis htip
  have hmap := fun k => putAll_bestChainHashes h.linked (n.chain.bestHeight - reorgSpan) k hbest
    hbestHeight
  -- the best header chain agrees with the validated chain up to the fork point only
  have hagree : ∀ k ≤ n.chain.bestHeight,
      ((up parent n.index.headers)^[n.sync.bestHeight - k] n.sync.bestHash
        = (up parent n.index.headers)^[n.chain.bestHeight - k] n.chain.bestHash
      ↔ k ≤ stored.height) := by
    intro k hk
    rw [← htipHeight, ← hbestHeight]
    exact eq_comm.trans (hgraded.iterate_up_eq_iff htip hbest hfork h.fork (htipHeight ▸ hk))
  rw [htipHeight] at hle hforkTip hfirst
  have habove : ∀ i, stored.height < i → i ≤ n.chain.bestHeight →
      putAll (fun _ => none) n.bestChain i ≠ some
        ((up parent n.index.headers)^[n.chain.bestHeight - i] n.chain.bestHash) := by
    intro i hi hle heq
    rw [bestChain, hmap i] at heq
    split at heq
    · exact absurd ((hagree i hle).mp (Option.some.inj heq)) (by omega)
    · cases heq
  by_cases hknown : n.ForkKnown stored.height
  · rw [if_pos hknown, ← hforkTip]
    refine exists_reorg_of_stop h hblocks hundo envs ρ hle (hknown.imp_right fun hin => ?_) habove
    rw [bestChain, hmap, if_pos, (hagree _ hle).mpr (le_refl _)]
    omega
  · rw [if_neg hknown, ← hfirst]
    unfold ForkKnown at hknown
    refine exists_reorg_of_stop h hblocks hundo envs ρ (zero_le _) (Or.inl rfl)
      fun i hi hile => ?_
    by_cases hi' : stored.height < i
    · exact habove i hi' hile
    · -- not above the fork point, and so below the map
      rw [bestChain, hmap i, if_neg (by omega)]
      exact fun heq => (by cases heq)

end

/-- **The reorganisation ends at the fork point exactly when that is the first
block, the best header itself, or at most 101 blocks below the validated
tip.** -/
theorem reorg_eq_fork_iff (h : n.Forked genesis fork)
    (hblocks : ChainState.Indexed n.index n.blocks) (hundo : n.chain.Undoable)
    (hfork : n.index.headers fork = some stored) (envs : Nat → Env) (ρ : IterOrder (Nat × Hash)) :
    ((n.reorg envs ρ).1 = true ∧ (n.reorg envs ρ).2.chain.bestHash = fork)
      ↔ n.ForkKnown stored.height := by
  obtain ⟨n', hn', hhash⟩ := exists_reorg h hblocks hundo hfork envs ρ
  rw [hn']
  by_cases hknown : n.ForkKnown stored.height
  · rw [if_pos hknown] at hhash
    exact iff_of_true ⟨rfl, hhash⟩ hknown
  · rw [if_neg hknown] at hhash
    refine iff_of_false (fun heq => hknown (Or.inl ?_)) hknown
    -- the first block is at height zero
    obtain ⟨tip, htip, -⟩ := h.tip
    have hgenesis := heq.2.symm.trans hhash
    obtain ⟨first, hfirst, hheight⟩ := h.linked.graded.exists_iterate_up htip tip.height
    rw [h.linked.iterate_up_eq_genesis htip, ← hgenesis, hfork] at hfirst
    rw [Option.some.inj hfirst, hheight, Nat.sub_self]

end Node

/-- Whatever the tree and the two tips, the reorganisation ends at the highest
block they have in common; the best header is not below the validated tip, as
`followLocalTip` leaves it. -/
def ReorgStopsAtForkPoint : Prop :=
  ∀ [Hashing] (genesis fork : Hash) (n : Node) (envs : Nat → Env) (ρ : IterOrder (Nat × Hash)),
    n.Forked genesis fork → n.chain.bestHeight ≤ n.sync.bestHeight →
    ChainState.Indexed n.index n.blocks → n.chain.Undoable →
    (n.reorg envs ρ).1 = true ∧ (n.reorg envs ρ).2.chain.bestHash = fork

/-! ## Two tall chains with the same first blocks -/

section Sample

attribute [local instance] sampleHashing

/-- The name of the header at height `i`: `i + 1` on the first chain, and above height
`side` another on the second. -/
def tallName (side : Nat) (second : Bool) (i : Nat) : Nat :=
  if second = true ∧ side < i then i + 1001 else i + 1

def tallHash (side : Nat) (second : Bool) (i : Nat) : Hash :=
  BitVec.ofNat 256 (tallName side second i)

/-- The header at height `i` of one of the chains. -/
def tallStored (side : Nat) (second : Bool) : Nat → StoredHeader
  | 0 => ⟨sampleHeader 0 1 0 0, 0, zeroWork⟩
  | i + 1 => (tallStored side second i).child
      (sampleHeader (tallName side second i) (tallName side second (i + 1)) 0 0)

/-- Two hundred headers of the first chain, and those of the second above height
`side`. -/
def tallIndex (side : Nat) : HeaderIndex :=
  { HeaderIndex.empty with
    headers := fun hash =>
      if 0 < hash.toNat ∧ hash.toNat ≤ 200 then some (tallStored side false (hash.toNat - 1))
      else if side + 1001 < hash.toNat ∧ hash.toNat ≤ 1200 then
        some (tallStored side true (hash.toNat - 1001))
      else none }

/-- The undo records of blocks that neither create nor spend. -/
def emptyUndo : UtxoSet :=
  UtxoSet.openDb { UtxoDb.empty with
    undo := fun hash => some (serializeUndo [] [] (BitVec.ofNat 256 (hash.toNat - 1))) } 0 0

/-- The validated tip is at height `tip` of the first chain, the best header at height
`best` of the second, and no block is on disk. -/
def tallNode (tip best side : Nat) : Node where
  chain := sampleState (tallIndex side) emptyUndo (tip + 1) tip
  sync := HeaderSync.new ConsensusParams.regtest (tallIndex side) best (tallHash side true best)
    none fun _ => none
  blocks := fun _ => none
  lastReorgFrom := none
  shared := rfl

theorem tallStored_height (side : Nat) (second : Bool) (i : Nat) :
    (tallStored side second i).height = i := by
  induction i with
  | zero => rfl
  | succ i ih => exact congrArg (· + 1) ih

/-- Up to height `side` the chains are one. -/
theorem tallStored_eq {side i : Nat} (h : i ≤ side) :
    tallStored side true i = tallStored side false i := by
  induction i with
  | zero => rfl
  | succ i ih =>
    have hname : ∀ j ≤ side, tallName side true j = tallName side false j :=
      fun j hj => if_neg (fun hlt => absurd hlt.2 (by omega))
    rw [tallStored, tallStored, ih (by omega), hname i (by omega), hname (i + 1) h]

theorem toNat_tallHash (side : Nat) (second : Bool) {i : Nat} (h : i < 200) :
    (tallHash side second i).toNat = tallName side second i := by
  have hle : tallName side second i ≤ 1200 := by
    unfold tallName
    split <;> omega
  rw [tallHash, BitVec.toNat_ofNat, mod_eq_of_lt (lt_of_le_of_lt hle (by norm_num))]

theorem tallIndex_headers (side : Nat) (second : Bool) {i : Nat} (h : i < 200) :
    (tallIndex side).headers (tallHash side second i)
      = some (tallStored side second i) := by
  simp only [tallIndex, toNat_tallHash side second h]
  unfold tallName
  split
  · rename_i habove
    rw [if_neg (by omega), if_pos (by omega), Nat.add_sub_cancel, habove.1]
  · rename_i hbelow
    rw [if_pos (by omega), Nat.add_sub_cancel]
    cases second with
    | false => rfl
    | true => rw [tallStored_eq (by simpa using hbelow)]

theorem linked_tallIndex (side : Nat) : Linked 1#256 (tallIndex side).headers := by
  have hparent : ∀ second i, i < 200 → 0 < i →
      ∃ parent, (tallIndex side).headers (tallStored side second i).header.prevBlockhash
          = some parent
        ∧ (tallStored side second i).height = parent.height + 1
        ∧ (tallStored side second i).chainWork = addChainWork parent.chainWork
            (calculateWork (tallStored side second i).header.target) := by
    intro second i hi hpos
    obtain ⟨i, rfl⟩ := exists_eq_succ_of_ne_zero (ne_of_gt hpos)
    exact ⟨_, tallIndex_headers side second (by omega), rfl, rfl⟩
  intro hash stored h
  change (if 0 < hash.toNat ∧ hash.toNat ≤ 200 then _ else _) = _ at h
  split at h
  · obtain rfl := Option.some.inj h
    by_cases hfirst : hash.toNat = 1
    · refine Or.inl ⟨BitVec.eq_of_toNat_eq hfirst, ?_⟩
      rw [show hash.toNat - 1 = 0 by omega]
      exact ⟨rfl, rfl⟩
    · exact Or.inr (hparent false _ (by omega) (by omega))
  · split at h
    · obtain rfl := Option.some.inj h
      exact Or.inr (hparent true _ (by omega) (by omega))
    · cases h

/-- Going up one of the chains. -/
theorem iterate_up_tallIndex (side : Nat) (second : Bool) {i j : Nat} (h : i < 200) (hj : j ≤ i) :
    (up parent (tallIndex side).headers)^[j] (tallHash side second i)
      = tallHash side second (i - j) := by
  induction j with
  | zero => rfl
  | succ j ih =>
    obtain ⟨k, hk⟩ : ∃ k, i - j = k + 1 := ⟨i - j - 1, by omega⟩
    rw [iterate_succ_apply', ih (by omega), hk, show i - (j + 1) = k by omega]
    exact up_eq (tallIndex_headers side second (by omega)) (succ_pos _)

/-- What a header of one of the chains descends from. -/
theorem ancestor_tallIndex {side : Nat} (second : Bool) {i : Nat} (h : i < 200) {hash : Hash}
    {stored : StoredHeader} (hstored : (tallIndex side).headers hash = some stored) :
    Ancestor StoredHeader.parent (tallIndex side).headers (tallHash side second i) hash
      ↔ stored.height ≤ i ∧ hash = tallHash side second stored.height := by
  rw [(linked_tallIndex side).graded.ancestor_iff (tallIndex_headers side second h) hstored,
    tallStored_height]
  refine and_congr_right fun hle => ?_
  rw [iterate_up_tallIndex side second h (sub_le _ _), Nat.sub_sub_self hle]
  exact eq_comm

/-- Above height `side` the chains have no header in common. -/
theorem tallHash_ne {side i : Nat} (hi : i < 200) (hside : side < i) :
    tallHash side true i ≠ tallHash side false i := by
  intro heq
  have hnat := congrArg BitVec.toNat heq
  rw [toNat_tallHash side true hi, toNat_tallHash side false hi, tallName,
    if_pos ⟨rfl, hside⟩, tallName, if_neg (fun h => by cases h.1)] at hnat
  omega

theorem forked_tallNode {tip best side : Nat} (hside : side < tip) (hle : tip ≤ best)
    (hbest : best < 200) :
    (tallNode tip best side).Forked 1#256 (tallHash side false side) := by
  have htip : tip < 200 := lt_of_le_of_lt hle hbest
  have hsame : tallHash side true side = tallHash side false side :=
    congrArg _ (if_neg fun h => lt_irrefl _ h.2)
  have hstored := tallIndex_headers side false htip
  have hfork := tallIndex_headers side false (lt_trans hside htip)
  refine ⟨linked_tallIndex side, ⟨_, hstored, tallStored_height _ _ _⟩,
    ⟨_, tallIndex_headers side true hbest, tallStored_height _ _ _⟩, fun hanc => ?_, ?_, ?_, ?_⟩
  · have heq := ((ancestor_tallIndex true hbest hstored).mp hanc).2
    rw [tallStored_height] at heq
    exact tallHash_ne htip hside heq.symm
  · refine (ancestor_tallIndex false htip hfork).mpr ?_
    rw [tallStored_height]
    exact ⟨by omega, rfl⟩
  · refine (ancestor_tallIndex true hbest hfork).mpr ?_
    rw [tallStored_height, hsame]
    exact ⟨by omega, rfl⟩
  · intro d u w htd hbd hd hw
    cases hfork.symm.trans hw
    obtain ⟨hut, hd'⟩ := (ancestor_tallIndex false htip hd).mp htd
    have hd'' := ((ancestor_tallIndex true hbest hd).mp hbd).2
    rw [tallStored_height]
    by_contra hlt
    exact tallHash_ne (lt_of_le_of_lt hut htip) (by omega) (hd''.symm.trans hd')

theorem undoable_tallNode {tip best side : Nat} (htip : tip < 200) :
    (tallNode tip best side).chain.Undoable := by
  intro hash stored hanc hstored hpos
  -- what the tip descends from is on the first chain
  obtain ⟨hle, hash_eq⟩ := (ancestor_tallIndex false htip hstored).mp hanc
  generalize stored.height = i at hash_eq hle hpos
  obtain ⟨i, rfl⟩ := exists_eq_succ_of_ne_zero (ne_of_gt hpos)
  obtain rfl := hash_eq
  obtain rfl := Option.some.inj ((tallIndex_headers side false (by omega)).symm.trans hstored)
  refine ⟨_, [], [], ⟨fun _ hp => (by cases hp), Or.inr rfl⟩, ?_⟩
  rw [deserializeUndo_serializeUndo _ (fun _ hs => (by cases hs)) (by decide) (by decide),
    toNat_tallHash side false (by omega)]
  rfl

/-- Two blocks come off, down to the fork point at height 1. -/
theorem reorg_tallNode_three :
    ((tallNode 3 4 1).reorg (fun _ => sampleEnv) IterOrder.id).1 = true
      ∧ ((tallNode 3 4 1).reorg (fun _ => sampleEnv) IterOrder.id).2.chain.bestHash = 2#256 :=
  (Node.reorg_eq_fork_iff (forked_tallNode (by decide) (by decide) (by decide))
    (fun _ _ _ hb => (by cases hb)) (undoable_tallNode (by decide))
    (tallIndex_headers 1 false (by decide)) (fun _ => sampleEnv) IterOrder.id).mpr
      (by rw [tallStored_height]; decide)

/-- **A reorganisation takes the common blocks off too**: with the validated tip at
height 103, the best header at height 104 and the fork point at height 1, it ends at
the first block. -/
theorem not_reorgStopsAtForkPoint : ¬ ReorgStopsAtForkPoint := by
  intro h
  have hforked : (tallNode 103 104 1).Forked 1#256 2#256 :=
    forked_tallNode (by decide) (by decide) (by decide)
  have hblocks : ChainState.Indexed (tallNode 103 104 1).index (tallNode 103 104 1).blocks :=
    fun _ _ _ hb => (by cases hb)
  have hundo : (tallNode 103 104 1).chain.Undoable := undoable_tallNode (by decide)
  obtain ⟨n', hn', hhash⟩ := Node.exists_reorg hforked hblocks hundo
    (tallIndex_headers 1 false (by decide)) (fun _ => sampleEnv) IterOrder.id
  have hstop := (h 1#256 2#256 (tallNode 103 104 1) (fun _ => sampleEnv) IterOrder.id hforked
    (by decide) hblocks hundo).2
  rw [hn'] at hstop
  rw [if_neg (by rw [tallStored_height]; decide)] at hhash
  exact absurd (hstop.symm.trans hhash) (by decide)

end Sample
