import BitcoinPR.Node.Fork

/-!
# The most-work rule in the headers handler

Fork choice among headers goes by work. Before the headers handler compares the
best header with the validated tip it first makes room for blocks mined
locally, and there it goes by height: a validated tip that is higher than the
best header takes its place. A branch of fewer but heavier blocks is lost that
way – `headersAccepted_eq_reorg_iff` says that this and a message from which
nothing was accepted are the only ways to lose one.
-/

open Branches (Ancestor up)

/-- Walking down along parent links. -/
theorem onBestWalk_eq {genesis : Hash} {ix : HeaderIndex} (hlinked : Linked genesis ix.headers)
    (csHash : Hash) {k : Nat} {a : Hash} {stored : StoredHeader}
    (ha : ix.headers a = some stored) (hk : k ≤ stored.height) :
    onBestWalk ix csHash k a = decide ((up StoredHeader.parent ix.headers)^[k] a = csHash) := by
  induction k generalizing a stored with
  | zero => exact Bool.beq_eq_decide_eq a csHash
  | succ k ih =>
    have hget : ix.getHeader a = some stored := ha
    have hup := StoredHeader.up_eq ha (by omega)
    obtain ⟨parent, hparent, hheight⟩ := hlinked.graded.exists_up ha
    rw [onBestWalk, hget]
    show onBestWalk ix csHash k stored.header.prevBlockhash = _
    rw [ih (hup ▸ hparent) (by omega), Function.iterate_succ_apply, hup]

namespace Node

variable {genesis : Hash} {n : Node}

/-- **A best header to reorganise to**: it has more work than the validated tip,
does not descend from it, and no ancestor of it is marked invalid. -/
structure Heavier (genesis : Hash) (n : Node) : Prop where
  linked : Linked genesis n.index.headers
  stored : ∃ tip best, n.index.headers n.chain.bestHash = some tip
    ∧ tip.height = n.chain.bestHeight ∧ n.index.headers n.sync.bestHash = some best
    ∧ best.height = n.sync.bestHeight ∧ tip.chainWork < best.chainWork
  off : ¬ Ancestor StoredHeader.parent n.index.headers n.sync.bestHash n.chain.bestHash
  unmarked : ∀ a, Ancestor StoredHeader.parent n.index.headers n.sync.bestHash a →
    n.index.isInvalid a = false

/-- The validated tip is an ancestor of the best header if the walk says so. -/
theorem Heavier.onBestChain_eq (h : n.Heavier genesis) : n.onBestChain = false := by
  obtain ⟨tip, best, htip, htipHeight, hbest, hbestHeight, -⟩ := h.stored
  unfold onBestChain
  split
  · rename_i hle
    rw [onBestWalk_eq h.linked n.chain.bestHash hbest (by omega), decide_eq_false_iff_not]
    intro heq
    refine h.off ((h.linked.graded.ancestor_iff hbest htip).mpr ⟨by omega, ?_⟩)
    rw [hbestHeight, htipHeight, heq]
  · rfl

/-- The validated tip is not the first block: that has everything above it. -/
theorem Heavier.bestHeight_pos (h : n.Heavier genesis) : 0 < n.chain.bestHeight := by
  obtain ⟨tip, best, htip, htipHeight, hbest, -⟩ := h.stored
  by_contra hzero
  have hgenesis := h.linked.eq_genesis htip (by omega)
  refine h.off ?_
  rw [hgenesis, ← h.linked.iterate_up_eq_genesis hbest]
  exact h.linked.graded.ancestor_iterate_up hbest _

/-- A header tip that is at least as high as the validated tip is kept, and
reorganised to. -/
theorem Heavier.chooseStep_eq (h : n.Heavier genesis) : n.chooseStep = (.reorg, n) := by
  have hpos := h.bestHeight_pos
  have hnone := HeaderIndex.firstInvalidAncestor_of_unmarked h.unmarked n.chain.bestHeight
    invalidWalkMax
  rw [chooseStep, h.onBestChain_eq, hnone]
  simpa using Nat.ne_of_gt hpos

/-- A validated tip above the best header takes its place, and is on its own
chain. -/
theorem headersAccepted_of_lower (hlow : n.sync.bestHeight < n.chain.bestHeight) {accepted : Nat}
    (hacc : accepted ≠ 0) : (n.headersAccepted accepted).1 = .stay := by
  have hstay : n.followLocalTip.onBestChain = true := by
    rw [followLocalTip, if_pos hlow]
    show (if n.chain.bestHeight ≤ n.chain.bestHeight then onBestWalk _ n.chain.bestHash
      (n.chain.bestHeight - n.chain.bestHeight) n.chain.bestHash else false) = true
    rw [if_pos (Nat.le_refl _), Nat.sub_self]
    exact beq_self_eq_true _
  rw [headersAccepted, if_neg hacc, chooseStep, hstay, Bool.true_or, if_pos rfl]

/-- **The handler starts to disconnect towards a heavier best header exactly
when headers were accepted and the best header is not lower than the validated
tip.** -/
theorem headersAccepted_eq_reorg_iff (h : n.Heavier genesis) (accepted : Nat) :
    ((n.headersAccepted accepted).1 = .reorg
        ∧ (n.headersAccepted accepted).2.sync.bestHash = n.sync.bestHash)
      ↔ 0 < accepted ∧ n.chain.bestHeight ≤ n.sync.bestHeight := by
  by_cases hacc : accepted = 0
  · rw [headersAccepted, if_pos hacc]
    exact iff_of_false (fun hstep => (by cases hstep.1)) (by omega)
  · by_cases hlow : n.sync.bestHeight < n.chain.bestHeight
    · rw [headersAccepted_of_lower hlow hacc]
      exact iff_of_false (fun hstep => (by cases hstep.1)) (by omega)
    · rw [headersAccepted, if_neg hacc, followLocalTip, if_neg hlow, h.chooseStep_eq]
      exact iff_of_true ⟨rfl, rfl⟩ (by omega)

end Node

/-- Whatever best header processing a message adopts, if it is heavier the
handler starts to disconnect towards it. -/
def HeavierHeadersWin : Prop :=
  ∀ [Hashing] (genesis : Hash) (n : Node) (headers : List Header) (accepted : Nat)
    (sync : HeaderSync),
    n.sync.processHeaders headers n.chain.bestHeight = (.ok accepted, sync) →
    sync.bestHash ≠ n.sync.bestHash → (n.withSync sync).Heavier genesis →
    ((n.withSync sync).headersAccepted accepted).1 = .reorg
      ∧ ((n.withSync sync).headersAccepted accepted).2.sync.bestHash = sync.bestHash

section Sample

attribute [local instance] sampleHashing

/-- A header of a given target. -/
def weighedHeader (prev nonce : Nat) (bits : UInt32) : Header :=
  ⟨4, BitVec.ofNat 256 prev, 0, 0, bits, UInt32.ofNat nonce⟩

/-- Two light headers on the first block, 2 and 3, and a heavy one, 6. -/
def weighedHeaders : List Header :=
  [sampleHeader 0 1 0 0, weighedHeader 1 2 0x1e0377ae, weighedHeader 2 3 0x1e0377ae,
    weighedHeader 1 6 0x1d00ffff]

theorem collisionless_weighedHeaders : Collisionless { h | h ∈ weighedHeaders } :=
  collisionless_of_list (by decide)

/-- Header sync of a signet, where targets are not checked, that has the two
light headers. -/
@[irreducible] def lightSync : HeaderSync :=
  ({ firstSync with params := ConsensusParams.signet }.processHeaders
    [weighedHeader 1 2 0x1e0377ae, weighedHeader 2 3 0x1e0377ae] 0).2

theorem anchored_lightSync : lightSync.Anchored { h | h ∈ weighedHeaders } 1#256 := by
  unfold lightSync
  exact (anchored_withParams (by decide) _).processHeaders collisionless_weighedHeaders
    (show ∀ a ∈ [weighedHeader 1 2 0x1e0377ae, weighedHeader 2 3 0x1e0377ae],
      a ∈ weighedHeaders by decide) (by decide) 0

/-- What a message of the heavy header leaves. -/
@[irreducible] def heavySync : HeaderSync :=
  (lightSync.processHeaders [weighedHeader 1 6 0x1d00ffff] 2).2

theorem anchored_heavySync : heavySync.Anchored { h | h ∈ weighedHeaders } 1#256 := by
  unfold heavySync
  exact anchored_lightSync.processHeaders collisionless_weighedHeaders
    (show ∀ a ∈ [weighedHeader 1 6 0x1d00ffff], a ∈ weighedHeaders by decide) (by decide) 2

/-- The heavy header is adopted, at height 1, with more work than the two light
ones. -/
theorem heavySync_eq :
    (lightSync.processHeaders [weighedHeader 1 6 0x1d00ffff] 2).1.toOption = some 1
      ∧ lightSync.bestHash = 3#256 ∧ heavySync.bestHash = 6#256 ∧ heavySync.bestHeight = 1
      ∧ heavySync.headerIndex.invalidSet = []
      ∧ [2#256, 3#256, 6#256].map heavySync.headerIndex.headers
        = [some ⟨weighedHeader 1 2 0x1e0377ae, 1, List.replicate 29 0 ++ [73, 212, 20]⟩,
          some ⟨weighedHeader 2 3 0x1e0377ae, 2, List.replicate 29 0 ++ [147, 168, 40]⟩,
          some ⟨weighedHeader 1 6 0x1d00ffff, 1, List.replicate 27 0 ++ [1, 0, 1, 0, 1]⟩] := by
  decide +kernel

theorem headerIndex_sampleState (sync : HeaderSync) (tip height : Nat) :
    sync.headerIndex = (sampleState sync.headerIndex (sampleStore []) tip height).headerIndex := rfl

/-- A node with a given validated tip. -/
def validatedAt (sync : HeaderSync) (tip height : Nat) : Node where
  chain := sampleState sync.headerIndex (sampleStore []) tip height
  sync := sync
  blocks := fun _ => none
  lastReorgFrom := none
  shared := headerIndex_sampleState sync tip height

/-- A best header with more work that is not above the validated tip. -/
theorem heavier_validatedAt {sync : HeaderSync} {genesis : Hash} {tip height : Nat}
    {stored best : StoredHeader} (hlinked : Linked genesis sync.headerIndex.headers)
    (htip : sync.headerIndex.headers (BitVec.ofNat 256 tip) = some stored)
    (htipHeight : stored.height = height)
    (hbest : sync.headerIndex.headers sync.bestHash = some best)
    (hbestHeight : best.height = sync.bestHeight) (hwork : stored.chainWork < best.chainWork)
    (hle : sync.bestHeight ≤ height) (hne : sync.bestHash ≠ BitVec.ofNat 256 tip)
    (hmarks : sync.headerIndex.invalidSet = []) :
    (validatedAt sync tip height).Heavier genesis := by
  refine ⟨hlinked, ⟨stored, best, htip, htipHeight, hbest, hbestHeight, hwork⟩, fun hanc => ?_,
    fun a _ => ?_⟩
  · obtain ⟨-, heq⟩ := (hlinked.graded.ancestor_iff hbest htip).mp hanc
    rw [show best.height - stored.height = 0 by omega] at heq
    exact hne heq
  · show decide (a ∈ sync.headerIndex.invalidSet) = false
    rw [hmarks]
    rfl

/-- The heavy header is heavier than either light one. -/
theorem heavier_heavySync {tip : Nat} (h : tip = 2 ∨ tip = 3) :
    (validatedAt heavySync tip (tip - 1)).Heavier 1#256 := by
  obtain ⟨-, -, hhash, hheight, hmarks, hheaders⟩ := heavySync_eq
  obtain ⟨htwo, hheaders⟩ := List.cons.inj hheaders
  obtain ⟨hthree, hheaders⟩ := List.cons.inj hheaders
  have hsix := (List.cons.inj hheaders).1
  have hlinked := anchored_heavySync.linked.linked
  generalize heavySync = sync at *
  rw [← hhash] at hsix
  rcases h with rfl | rfl
  · exact heavier_validatedAt hlinked htwo rfl hsix hheight.symm (by decide) (by omega)
      (by rw [hhash]; decide) hmarks
  · exact heavier_validatedAt hlinked hthree rfl hsix hheight.symm (by decide) (by omega)
      (by rw [hhash]; decide) hmarks

/-- With one light block validated, the handler goes for the heavy header. -/
theorem headersAccepted_heavy :
    ((validatedAt heavySync 2 1).headersAccepted 1).1 = .reorg
      ∧ ((validatedAt heavySync 2 1).headersAccepted 1).2.sync.bestHash
        = (validatedAt heavySync 2 1).sync.bestHash :=
  (Node.headersAccepted_eq_reorg_iff (heavier_heavySync (Or.inl rfl)) 1).mpr
    ⟨by decide, Nat.le_of_eq heavySync_eq.2.2.2.1.symm⟩

/-- **The heavier branch is given up**: with both light blocks validated, the
heavy header is adopted at height 1 and at once replaced by the validated tip at
height 2. -/
theorem not_heavierHeadersWin : ¬ HeavierHeadersWin := by
  intro h
  obtain ⟨haccepted, hlight, hhash, hheight, -, -⟩ := heavySync_eq
  have hheavier := heavier_heavySync (Or.inr rfl)
  have hprocess : lightSync.processHeaders [weighedHeader 1 6 0x1d00ffff] 2
      = (.ok 1, heavySync) := by
    rw [heavySync]
    rcases hp : lightSync.processHeaders [weighedHeader 1 6 0x1d00ffff] 2 with ⟨result, sync⟩
    rw [hp] at haccepted
    cases result with
    | error e => cases haccepted
    | ok accepted => rw [Option.some.inj haccepted]
  have hwin := h 1#256 (validatedAt lightSync 3 2) [weighedHeader 1 6 0x1d00ffff] 1 heavySync
    hprocess (fun heq => absurd (hhash.symm.trans (heq.trans hlight)) (by decide)) hheavier
  have hlow : (validatedAt heavySync 3 2).sync.bestHeight
      < (validatedAt heavySync 3 2).chain.bestHeight := lt_of_eq_of_lt hheight (by decide)
  exact absurd ((Node.headersAccepted_of_lower hlow (by decide)).symm.trans hwin.1) (by decide)

end Sample
