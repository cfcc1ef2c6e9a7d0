import BitcoinPR.Core.Deployment
import BitcoinPR.P2P.Serving

/-!
# A reply of headers on a chain that is served

A peer serves a chain of valid headers with more work than the best header chain
of a node. What does one reply do? It is taken – its last header becomes the best
header – if that header has at least the work of the best header, and if the node
does not put forks off because its blocks are far behind. A reply has at most 2000
headers, and on a deep fork these may have less work; then the headers are stored,
but nothing changes that the next locator depends on.

Once the best header is on the chain, every further reply starts right above it
and is taken (`HeaderSync.Served.takesReply`).
-/

open List HeaderIndex HeaderSync Nat Option

open Branches (Extends Graded Ancestor)

/-! ## A chain of valid headers -/

section

variable [Hashing]

/-- The headers of a chain up to height `i`, highest first. -/
def branchUpTo (first : StoredHeader) (chain : List Header) (i : Nat) : List Header :=
  (chain.take i).reverse ++ [first.header]

/-- **A chain of valid headers**, by the rules of a node: headers of `S` in a
row over the first block, each with the work it claims, with the target its
ancestors require – whatever else is stored –, later than the median time before
it, and signaling where that is mandatory. Work adds up without overflow. -/
structure ValidChain (S : Set Header) (params : ConsensusParams)
    (bip110 : Option Bip110Deployment) (first : StoredHeader) (chain : List Header) : Prop where
  mem : ∀ a ∈ chain, a ∈ S
  follows : HeaderSync.Follows (first.header :: chain)
  pow : ∀ a ∈ chain, a.validatePow = true
  bits : params.signetChallenge = none → ∀ i (h : i < chain.length) (lookup),
    (∀ j ≤ i, lookup (chainAt first chain j).header.blockHash = some (chainAt first chain j)) →
    getNextWorkRequiredWith lookup params chain[i].prevBlockhash i chain[i].time
      = some chain[i].bits
  timed : TimedBranch (branchUpTo first chain chain.length)
  signals : ∀ dep, bip110 = some dep → ∀ i (h : i < chain.length),
    ((dep.activationOver (branchUpTo first chain i)).violatesMandatorySignaling dep (i + 1)
      chain[i].versionBits) = false
  rises : ∀ i < chain.length,
    (chainAt first chain i).chainWork < (chainAt first chain (i + 1)).chainWork

end

section

variable [Hashing] {S : Set Header} {first : StoredHeader} {chain : List Header} {i : Nat}

omit [Hashing] in
theorem header_chainAt_mem (hfirst : first.header ∈ S) (hmem : ∀ a ∈ chain, a ∈ S)
    (h : i ≤ chain.length) : (chainAt first chain i).header ∈ S := by
  cases i with
  | zero => exact hfirst
  | succ i =>
    rw [header_chainAt_succ h]
    exact hmem _ (getElem_mem h)

/-- **Two nodes store a header alike**: what one has stored of the chain is
what the other serves, and so is all below. -/
theorem LinkedMap.chainAt_eq {m : Hash → Option StoredHeader}
    (h : LinkedMap S first.header.blockHash m) (hS : Collisionless S)
    (hfirst : m first.header.blockHash = some first) (hmem : ∀ a ∈ chain, a ∈ S)
    (hfollows : HeaderSync.Follows (first.header :: chain)) (hi : i ≤ chain.length)
    {stored : StoredHeader} (hm : m (chainAt first chain i).header.blockHash = some stored) :
    ∀ j ≤ i, m (chainAt first chain j).header.blockHash = some (chainAt first chain j) := by
  induction i generalizing stored with
  | zero =>
    intro j hj
    obtain rfl := le_zero.mp hj
    exact hfirst
  | succ i ih =>
    have hheader : chain[i] ∈ S := hmem _ (getElem_mem hi)
    have hprev := prevBlockhash_getElem hfollows hi
    rw [header_chainAt_succ hi] at hm
    have heq := h.header_eq hS hheader hm
    rcases h.linked _ stored hm with ⟨hgenesis, -, -⟩ | ⟨parent, hp, -, -⟩
    · -- the first block has no parent among the headers
      rw [hgenesis, hfirst] at hm
      obtain rfl := Option.some.inj hm
      obtain ⟨root, hroot, hzero⟩ := h.root
      obtain rfl := mem_unique hfirst hroot
      refine absurd ?_ (hS.ne_zero _ (header_chainAt_mem (h.mem _ _ hfirst) hmem
        (le_of_succ_le hi)))
      rw [← hprev, ← heq, hzero]
    · rw [heq, hprev] at hp
      have hknown := ih (le_of_succ_le hi) hp
      intro j hj
      rcases lt_or_eq_of_le hj with hlt | rfl
      · exact hknown j (le_of_lt_succ hlt)
      · have hparent : m stored.header.prevBlockhash = some (chainAt first chain i) := by
          rw [heq, hprev]
          exact hknown i (le_refl i)
        have hchild := h.parent_of_eq hS hm hparent
        rw [chainAt_succ hi]
        show m chain[i].blockHash = _
        rw [hm, hchild, heq]

omit [Hashing] in
theorem length_branchUpTo (hi : i ≤ chain.length) : (branchUpTo first chain i).length = i + 1 := by
  rw [branchUpTo, length_append, length_reverse, length_take, min_eq_left hi]
  rfl

theorem ValidChain.timed_branchUpTo {params : ConsensusParams} {bip110 : Option Bip110Deployment}
    (h : ValidChain S params bip110 first chain) (i : Nat) :
    TimedBranch (branchUpTo first chain i) := by
  have hdrop : (branchUpTo first chain chain.length).drop (chain.length - i)
      = branchUpTo first chain i := by
    rw [branchUpTo, branchUpTo, take_length, drop_append_of_le_length (by simp), reverse_take]
  exact hdrop ▸ h.timed.drop _

/-- The branch of a stored header of the chain. -/
theorem isBranch_branchUpTo {m : Hash → Option StoredHeader}
    (hzero : first.height = 0) (hroot : m first.header.prevBlockhash = none)
    (hfollows : HeaderSync.Follows (first.header :: chain)) (hi : i ≤ chain.length)
    (hm : ∀ j ≤ i, m (chainAt first chain j).header.blockHash = some (chainAt first chain j)) :
    IsBranch m (chainAt first chain i).header.blockHash (branchUpTo first chain i) := by
  induction i with
  | zero =>
    refine ⟨rfl, ⟨first.chainWork, ?_⟩, hroot⟩
    rw [hm 0 (le_refl 0), chainAt_zero, length_nil, ← hzero]
  | succ i ih =>
    have hbranch : branchUpTo first chain (i + 1) = chain[i] :: branchUpTo first chain i := by
      rw [branchUpTo, take_succ_eq_append_getElem hi, reverse_append]
      rfl
    have hlength : (branchUpTo first chain i).length = i + 1 :=
      length_branchUpTo (le_of_succ_le hi)
    rw [hbranch]
    refine ⟨?_, ⟨(chainAt first chain (i + 1)).chainWork, ?_⟩, ?_⟩
    · rw [header_chainAt_succ hi]
    · have hheader : (chainAt first chain (i + 1)).header = chain[i] := header_chainAt_succ hi
      have hheight := height_chainAt hzero hi
      rw [← hheader, hm (i + 1) (le_refl _), hlength]
      generalize chainAt first chain (i + 1) = stored at hheight
      rw [← hheight]
    · rw [prevBlockhash_getElem hfollows hi]
      exact ih (le_of_succ_le hi) fun j hj => hm j (le_succ_of_le hj)

end

/-! ## A node that is served the chain -/

variable {ix : HeaderIndex}

theorem activationFor_of_unknown [Hashing] {prev : Hash}
    (h : ix.headers prev = none) (dep : Bip110Deployment) (cache : Bip110Cache) (height : Nat) :
    activationFor ix dep cache prev height = (.inactive, cache) := by
  have hmedian : getMedianTimePast ix prev = none := by
    unfold getMedianTimePast ancestorTimes
    simp only [getHeader, h]
    rfl
  have hancestor : ∀ target, ix.getAncestor prev target = none := by
    intro target
    unfold getAncestor
    simp only [getHeader, h]
  unfold activationFor
  simp only [hmedian, hancestor, any_none]
  split <;> rfl

theorem LinkedMap.ancestorClosed [Hashing] {S : Set Header} {genesis : Hash}
    (h : LinkedMap S genesis ix.headers) (hS : Collisionless S) : ix.AncestorClosed := by
  refine ⟨h.keyed, fun hash stored hm => ?_⟩
  rcases h.linked hash stored hm with ⟨rfl, hzero, -⟩ | ⟨parent, hp, hheight, -⟩
  · exact Or.inl ⟨hzero, h.parent_genesis_eq hS hm⟩
  · exact Or.inr ⟨parent, hp, hheight⟩

/-- The memo holds no verdict against the chain. -/
def HeaderSync.Clears [Hashing] (first : StoredHeader) (chain : List Header) (s : HeaderSync) :
    Prop :=
  ∀ i ≤ chain.length,
    s.branchTainted.lookup (chainAt first chain i).header.blockHash ≠ some true

/-- **A node the chain is served to**: the chain is valid by its rules, and no two
headers have one hash; it is in a sound state and knows the first block; its
height index names stored headers at their heights, and the best header; it has
no marker on the chain and, if its memo is up to date, no verdict against it; and
what it remembers of BIP 110 is true. -/
structure HeaderSync.Served [Hashing] (S : Set Header) (first : StoredHeader)
    (chain : List Header) (s : HeaderSync) : Prop where
  collisionless : Collisionless S
  valid : ValidChain S s.params s.bip110 first chain
  anchored : s.Anchored S first.header.blockHash
  shared : s.headerIndex.headers first.header.blockHash = some first
  named : ∀ i hash, s.headerIndex.heightIndex i = some hash →
    ∃ stored, s.headerIndex.headers hash = some stored ∧ stored.height = i
  top : s.headerIndex.heightIndex s.bestHeight = some s.bestHash
  unmarked : ∀ i ≤ chain.length,
    (chainAt first chain i).header.blockHash ∉ s.headerIndex.invalidSet
  unjudged : s.headerIndex.invalidGeneration = s.taintMemoGeneration → s.Clears first chain
  remembered : ∀ dep, s.bip110 = some dep →
    1 ≤ dep.period ∧ s.bip110Cache.Truthful dep s.headerIndex.headers

namespace HeaderSync

variable [Hashing] {S : Set Header} {first : StoredHeader} {chain : List Header}
  {server : HeaderIndex} {s : HeaderSync} {w : Walk} {i : Nat}

theorem Served.low (hs : s.Served S first chain) : first.height = 0 := by
  rcases hs.anchored.linked.linked _ first hs.shared with ⟨-, hzero, -⟩ | ⟨parent, hp, -⟩
  · exact hzero
  · rw [hs.anchored.linked.parent_genesis_eq hs.collisionless hs.shared] at hp
    cases hp

/-- The header at height `i` of the chain is stored, at or below the best
header. -/
def Low (first : StoredHeader) (chain : List Header) (s : HeaderSync) (i : Nat) : Prop :=
  (s.headerIndex.headers (chainAt first chain i).header.blockHash).isSome ∧ i ≤ s.bestHeight

/-- **A walk of the node over the chain**: it marks nothing, it does not meet a
stored header above the tip that does not follow it, and it accepts headers of
the chain only. -/
structure WalksChain (S : Set Header) (first : StoredHeader) (chain : List Header)
    (s : HeaderSync) (w : Walk) : Prop where
  onBranch : w.OnBranch S first.header.blockHash s.headerIndex s.bestHeight
  index : w.headerIndex = s.headerIndex
  walkTip : w.storedWalkTip = none
  remembered : ∀ dep, s.bip110 = some dep → w.bip110Cache.Truthful dep s.headerIndex.headers
  mem : ∀ p ∈ w.batch, ∃ i, ∃ h : i < chain.length,
    p = (chain[i].blockHash, chainAt first chain (i + 1))

/-- The walk stands on the header at height `i`; it has accepted headers unless
this one is stored at or below the best header. -/
structure StandsAt (S : Set Header) (first : StoredHeader) (chain : List Header)
    (s : HeaderSync) (i : Nat) (w : Walk) : Prop extends s.WalksChain S first chain w where
  stands : w.prevHash = (chainAt first chain i).header.blockHash
  empty_iff : w.batch = [] ↔ s.Low first chain i

section

variable (hs : s.Served S first chain)

include hs

variable {stored : StoredHeader}

/-- What the walk knows of the chain. -/
theorem known_chainAt (hw : s.WalksChain S first chain w) (hi : i ≤ chain.length)
    (hknown : w.known s.headerIndex (chainAt first chain i).header.blockHash = some stored) :
    ∀ j ≤ i, w.known s.headerIndex (chainAt first chain j).header.blockHash
      = some (chainAt first chain j) :=
  hw.onBranch.linked.chainAt_eq hs.collisionless (hw.onBranch.extend _ _ hs.shared) hs.valid.mem
    hs.valid.follows hi hknown

/-- What the node has stored of the chain. -/
theorem stored_chainAt (hi : i ≤ chain.length)
    (hstored : s.headerIndex.headers (chainAt first chain i).header.blockHash = some stored) :
    ∀ j ≤ i, s.headerIndex.headers (chainAt first chain j).header.blockHash
      = some (chainAt first chain j) :=
  hs.anchored.linked.chainAt_eq hs.collisionless hs.shared hs.valid.mem hs.valid.follows hi hstored

/-- What is below a low header is low. -/
theorem Low.of_le (hlow : s.Low first chain i) (hi : i ≤ chain.length) {j : Nat} (hj : j ≤ i) :
    s.Low first chain j := by
  obtain ⟨stored, hstored⟩ := isSome_iff_exists.mp hlow.1
  refine ⟨?_, hj.trans hlow.2⟩
  rw [stored_chainAt hs hi hstored j hj]
  rfl

/-- A header of the chain that is not low is above the best header if it is
stored. -/
theorem lt_of_not_low (hi : i < chain.length) (hlow : ¬ s.Low first chain (i + 1))
    (hstored : s.headerIndex.headers chain[i].blockHash = some stored) :
    s.bestHeight < stored.height := by
  rw [← header_chainAt_succ hi] at hstored
  have heq := stored_chainAt hs hi hstored (i + 1) (le_refl _)
  obtain rfl := mem_unique hstored heq
  rw [height_chainAt hs.low hi]
  by_contra hle
  exact hlow ⟨isSome_iff_exists.mpr ⟨_, hstored⟩, Nat.le_of_not_lt hle⟩

section

variable (hw : s.WalksChain S first chain w) (hi : i < chain.length)

include hw hi

/-- A valid header is not marked. -/
theorem exists_markSignaling :
    ∃ cache, s.markSignaling w chain[i] (i + 1) = { w with bip110Cache := cache }
      ∧ ∀ dep, s.bip110 = some dep → cache.Truthful dep s.headerIndex.headers := by
  unfold markSignaling
  cases hdep : s.bip110 with
  | none => exact ⟨w.bip110Cache, rfl, fun dep h => by cases h⟩
  | some dep =>
    have htrue := hw.remembered dep hdep
    simp only
    split
    · rename_i hsilent
      have hanswer : (activationFor w.headerIndex dep w.bip110Cache chain[i].prevBlockhash
            (i + 1)).1.state ≠ .started
          ∧ (activationFor w.headerIndex dep w.bip110Cache chain[i].prevBlockhash
            (i + 1)).2.Truthful dep s.headerIndex.headers := by
        rw [hw.index, prevBlockhash_getElem hs.valid.follows hi]
        cases hprev : s.headerIndex.headers (chainAt first chain i).header.blockHash with
        | none =>
          rw [activationFor_of_unknown hprev]
          exact ⟨ThresholdState.noConfusion, htrue⟩
        | some stored =>
          have hbranch := isBranch_branchUpTo hs.low
            (hs.anchored.linked.parent_genesis_eq hs.collisionless hs.shared) hs.valid.follows hi.le
            (stored_chainAt hs hi.le hprev)
          obtain ⟨hstate, hcache⟩ := activationFor_eq (hs.remembered dep hdep).1 htrue hbranch
          rw [length_branchUpTo hi.le] at hstate hcache
          refine ⟨?_, hcache⟩
          rw [hstate (hs.valid.timed_branchUpTo i)]
          intro hstarted
          have hlegal := hs.valid.signals dep hdep i hi
          unfold Bip110Activation.violatesMandatorySignaling at hlegal
          rw [hstarted, decide_eq_true hsilent.1, decide_eq_true hsilent.2.1,
            hsilent.2.2.1] at hlegal
          cases hlegal
      refine ⟨(activationFor w.headerIndex dep w.bip110Cache chain[i].prevBlockhash (i + 1)).2, ?_,
        fun dep' h => ?_⟩
      · rw [if_neg hanswer.1]
      · obtain rfl := Option.some.inj h
        exact hanswer.2
    · exact ⟨w.bip110Cache, rfl, fun dep' h => Option.some.inj h ▸ htrue⟩

/-- **Passing over a header that is low.** -/
theorem exists_skip (blockHeight : Nat) (hempty : w.batch = [])
    (hlow : s.Low first chain (i + 1)) :
    ∃ w', s.walkHeader blockHeight w chain[i] = .ok (some w')
      ∧ s.StandsAt S first chain (i + 1) w' := by
  obtain ⟨stored, hstored⟩ := isSome_iff_exists.mp hlow.1
  have heq := stored_chainAt hs hi hstored (i + 1) (le_refl _)
  have hheight : (chainAt first chain (i + 1)).height = i + 1 := height_chainAt hs.low hi
  rw [header_chainAt_succ hi] at heq
  have hplace : s.place blockHeight w chain[i] = .skip (chainAt first chain (i + 1)) :=
    place_of_low blockHeight (by rw [hw.index]; exact heq) (by rw [hheight]; exact hlow.2)
  have hstep : s.walkHeader blockHeight w chain[i] = .ok (some { w with
      prevHash := chain[i].blockHash, height := (chainAt first chain (i + 1)).height }) := by
    unfold walkHeader
    rw [hplace]
  refine ⟨_, hstep, ⟨hw.onBranch.move hempty heq (Or.inl hw.walkTip), hw.index, hw.walkTip,
    hw.remembered, hw.mem⟩, ?_, ⟨fun _ => hlow, fun _ => hempty⟩⟩
  rw [header_chainAt_succ hi]

variable (hknown : w.known s.headerIndex (chainAt first chain i).header.blockHash
    = some (chainAt first chain i))

include hknown

/-- The target is the one required. -/
theorem checkBits_chain (hsignet : s.params.signetChallenge = none) :
    w.checkBits s.params chain[i] (i + 1) = .ok () := by
  -- a header is looked up as the walk knows it
  have hlookup : w.lookup = w.known s.headerIndex := by
    funext hash
    rw [Walk.lookup, hw.index]
    exact (PartialMap.putAll_apply _ _ _).symm
  have hrequired := hs.valid.bits hsignet i hi (w.known s.headerIndex)
    (known_chainAt hs hw hi.le hknown)
  unfold Walk.checkBits
  rw [hlookup, Nat.add_sub_cancel, hrequired]
  exact rejectIf_eq_ok.mpr fun hne => hne rfl

/-- **A valid header passes the checks**, and its work is that of the chain up
to it. -/
theorem validateHeader_chain (hprev : chain[i].prevBlockhash = w.prevHash ∨ w.batch = []) :
    s.validateHeader w chain[i] (i + 1) = .ok (chainAt first chain (i + 1)).chainWork := by
  have hheight := height_chainAt hs.low hi.le
  have hwork : w.prevWork chain[i] (i + 1) = .ok (chainAt first chain i).chainWork := by
    have hstands := hknown
    rw [← prevBlockhash_getElem hs.valid.follows hi] at hstands
    have hprevWork := hw.onBranch.prevWork_eq hstands hprev
    rwa [hheight] at hprevWork
  unfold validateHeader
  simp only [Except.bind_eq_ok, exists_unit, Except.pure_eq_ok]
  refine ⟨?_, ?_, _, hwork, ?_⟩
  · rw [hs.valid.pow _ (getElem_mem hi)]
    exact rejectIf_eq_ok.mpr (by decide)
  · exact checkIf_eq_ok.mpr fun hsignet => checkBits_chain hs hw hi hknown
      (isNone_iff_eq_none.mp hsignet)
  · rw [chainAt_succ hi]
    rfl

/-- **Accepting the next header of the chain.** -/
theorem exists_accept {blockHeight : Nat} (hplace : s.place blockHeight w chain[i] = .child i)
    (hprev : chain[i].prevBlockhash = w.prevHash ∨ w.batch = [])
    (hnew : ¬ s.Low first chain (i + 1)) :
    ∃ w', s.walkHeader blockHeight w chain[i] = .ok (some w')
      ∧ s.StandsAt S first chain (i + 1) w' := by
  obtain ⟨cache, hmark, hcache⟩ := exists_markSignaling hs hw hi
  have hstep : s.walkHeader blockHeight w chain[i]
      = .ok (some (pushHeader { w with bip110Cache := cache } chain[i] (i + 1)
        (chainAt first chain (i + 1)).chainWork)) := by
    unfold walkHeader
    rw [hplace]
    simp only [Except.bind_eq_ok, Except.pure_eq_ok]
    exact ⟨_, validateHeader_chain hs hw hi hknown hprev, by rw [hmark]⟩
  obtain ⟨honBranch, hstands⟩ := onBranch_walkHeader hs.anchored.linked hs.collisionless hw.onBranch
    (hs.valid.mem _ (getElem_mem hi)) (hprev.imp_right fun h => ⟨h, hw.walkTip⟩) hstep
  have hchild : (⟨chain[i], i + 1, (chainAt first chain (i + 1)).chainWork⟩ : StoredHeader)
      = chainAt first chain (i + 1) := by
    rw [chainAt_succ hi, StoredHeader.child, height_chainAt hs.low hi.le]
  refine ⟨_, hstep, ⟨honBranch, hw.index, hw.walkTip, hcache, fun p hp => ?_⟩, ?_, ?_⟩
  · rcases mem_append.mp hp with hp | hp
    · exact hw.mem p hp
    · rw [hchild] at hp
      exact ⟨i, hi, mem_singleton.mp hp⟩
  · rw [header_chainAt_succ hi]
    exact hstands
  · exact ⟨fun hnil => absurd hnil (append_ne_nil_of_right_ne_nil _ (cons_ne_nil _ _)),
      fun hlow => absurd hlow hnew⟩

end

/-- **One header of the chain**, from the one below it on. -/
theorem exists_walkHeader (hw : s.StandsAt S first chain i w) (hi : i < chain.length)
    (blockHeight : Nat) :
    ∃ w', s.walkHeader blockHeight w chain[i] = .ok (some w')
      ∧ s.StandsAt S first chain (i + 1) w' := by
  by_cases hlow : s.Low first chain (i + 1)
  · exact exists_skip hs hw.toWalksChain hi blockHeight
      (hw.empty_iff.mpr (hlow.of_le hs hi (le_succ i))) hlow
  · obtain ⟨stored, hknown, hheight, -⟩ := hw.onBranch.stands
    rw [hw.stands] at hknown
    have hknown' := known_chainAt hs hw.toWalksChain hi.le hknown i (le_refl i)
    obtain rfl := mem_unique hknown hknown'
    rw [height_chainAt hs.low hi.le] at hheight
    have hprev : chain[i].prevBlockhash = w.prevHash :=
      (prevBlockhash_getElem hs.valid.follows hi).trans hw.stands.symm
    have hplace : s.place blockHeight w chain[i] = .child i := by
      refine (place_of_next blockHeight (fun stored hstored => ?_) hprev).trans
        (congrArg _ hheight.symm)
      rw [hw.index] at hstored
      exact lt_of_not_low hs hi hlow hstored
    exact exists_accept hs hw.toWalksChain hi hknown' hplace (Or.inl hprev) hlow

/-- **From the chain on, the walk follows it** as far as it is served. -/
theorem exists_walkHeaders (hw : s.StandsAt S first chain i w) (hi : i ≤ chain.length)
    (blockHeight n : Nat) :
    ∃ w', s.walkHeaders blockHeight ((chain.drop i).take n) w = (.ok (), w')
      ∧ s.StandsAt S first chain (min (i + n) chain.length) w' := by
  induction n generalizing i w with
  | zero => exact ⟨w, rfl, by rwa [add_zero, min_eq_left hi]⟩
  | succ n ih =>
    rcases lt_or_eq_of_le hi with hlt | rfl
    · obtain ⟨w₁, hstep, hw₁⟩ := exists_walkHeader hs hw hlt blockHeight
      obtain ⟨w₂, hwalk, hw₂⟩ := ih hw₁ hlt
      refine ⟨w₂, ?_, by rwa [← succ_add_eq_add_succ]⟩
      rw [drop_eq_getElem_cons hlt, take_succ_cons, walkHeaders, hstep]
      exact hwalk
    · rw [drop_length]
      exact ⟨w, rfl, by rwa [min_eq_right (le_add_right _ _)]⟩

end

/-! ### The reply -/

/-- **The chains meet at height `k`**: the header of the chain served is one of
the node's, and is the best header if it is as high. -/
structure MeetsAt (first : StoredHeader) (chain : List Header) (s : HeaderSync) (k : Nat) :
    Prop where
  low : s.Low first chain k
  best : k = s.bestHeight → s.bestHash = (chainAt first chain k).header.blockHash

/-- The header over height `k` connects: it builds on the best header, or it is
stored, or forks are not put off. -/
def Connects (first : StoredHeader) (chain : List Header) (s : HeaderSync) (blockHeight k : Nat) :
    Prop :=
  s.bestHash = (chainAt first chain k).header.blockHash
    ∨ (s.headerIndex.headers (chainAt first chain (k + 1)).header.blockHash).isSome
    ∨ isCatchingUp blockHeight s.bestHeight = false

section

variable (hs : s.Served S first chain)

include hs in
theorem walksChain_startWalk : s.WalksChain S first chain s.startWalk :=
  ⟨hs.anchored.startWalk, rfl, rfl, fun dep h => (hs.remembered dep h).2, fun _ hp => by cases hp⟩

section

variable {k : Nat} (hmeets : s.MeetsAt first chain k)
include hmeets

/-- What is not low right above where the chains meet is not stored, unless the
best header is there. -/
theorem MeetsAt.headers_eq_none (hnew : ¬ s.Low first chain (k + 1))
    (hapart : s.bestHash ≠ (chainAt first chain k).header.blockHash) :
    s.headerIndex.headers (chainAt first chain (k + 1)).header.blockHash = none := by
  by_contra hne
  refine hnew ⟨isSome_iff_ne_none.mpr hne, ?_⟩
  exact lt_of_le_of_ne hmeets.low.2 fun hk => hapart (hmeets.best hk)

include hs

variable {blockHeight : Nat}

/-- **The first header of a reply that connects.** -/
theorem MeetsAt.exists_walkHeader (hk : k < chain.length)
    (hconnects : s.Connects first chain blockHeight k) :
    ∃ w', s.walkHeader blockHeight s.startWalk chain[k] = .ok (some w')
      ∧ s.StandsAt S first chain (k + 1) w' := by
  have hw : s.WalksChain S first chain s.startWalk := walksChain_startWalk hs
  by_cases hbest : s.bestHash = (chainAt first chain k).header.blockHash
  · exact HeaderSync.exists_walkHeader hs
      ⟨hw, hbest, ⟨fun _ => hmeets.low, fun _ => rfl⟩⟩ hk blockHeight
  by_cases hlow : s.Low first chain (k + 1)
  · exact exists_skip hs hw hk blockHeight rfl hlow
  · -- a fork that starts here
    obtain ⟨stored, hstored⟩ := isSome_iff_exists.mp hmeets.low.1
    have hparent := stored_chainAt hs hk.le hstored k (le_refl k)
    have hprev := prevBlockhash_getElem hs.valid.follows hk
    have hnone := hmeets.headers_eq_none hlow hbest
    have hgoes : isCatchingUp blockHeight s.bestHeight = false := by
      refine (hconnects.resolve_left hbest).resolve_left ?_
      rw [hnone]
      exact Bool.false_ne_true
    rw [header_chainAt_succ hk] at hnone
    have hplace : s.place blockHeight s.startWalk chain[k] = .child k := by
      refine (place_of_fork blockHeight hnone (fun h => hbest (h.symm.trans hprev))
        (by rw [hprev]; exact hparent)).trans ?_
      rw [hgoes, height_chainAt hs.low hk.le]
      rfl
    exact exists_accept hs hw hk hparent hplace (Or.inr rfl) hlow

/-- The first header of a reply that does not connect ends the walk. -/
theorem MeetsAt.walkHeader_eq_none (hk : k < chain.length)
    (hconnects : ¬ s.Connects first chain blockHeight k) :
    s.walkHeader blockHeight s.startWalk chain[k] = .ok none := by
  rw [Connects, not_or, not_or] at hconnects
  obtain ⟨hbest, hnew, hputs⟩ := hconnects
  obtain ⟨stored, hstored⟩ := isSome_iff_exists.mp hmeets.low.1
  have hprev := prevBlockhash_getElem hs.valid.follows hk
  have hnone := hmeets.headers_eq_none (fun hlow => hnew hlow.1) hbest
  rw [header_chainAt_succ hk] at hnone
  unfold walkHeader
  rw [place_of_fork blockHeight hnone (fun h => hbest (h.symm.trans hprev))
    (by rw [hprev]; exact hstored), if_pos (by simpa using hputs)]

/-- **The walk over a reply** that connects gets to its end. -/
theorem MeetsAt.exists_walkHeaders (hk : k < chain.length)
    (hconnects : s.Connects first chain blockHeight k) (n : Nat) :
    ∃ w, s.walkHeaders blockHeight ((chain.drop k).take (n + 1)) s.startWalk = (.ok (), w)
      ∧ s.StandsAt S first chain (min (k + (n + 1)) chain.length) w := by
  obtain ⟨w₁, hstep, hw₁⟩ := hmeets.exists_walkHeader hs hk hconnects
  obtain ⟨w, hwalk, hw⟩ := HeaderSync.exists_walkHeaders hs hw₁ hk blockHeight n
  refine ⟨w, ?_, by rwa [← succ_add_eq_add_succ]⟩
  rw [drop_eq_getElem_cons hk, take_succ_cons, walkHeaders, hstep]
  exact hwalk

end

end

end HeaderSync

/-! ## Fork choice over the chain -/

/-- The ancestors of a header of the chain are headers of the chain. -/
theorem exists_of_ancestor_chainAt [Hashing] {first : StoredHeader} {chain : List Header} {i : Nat}
    (hfollows : HeaderSync.Follows (first.header :: chain)) (hzero : first.height = 0)
    (hi : i ≤ chain.length) {m : Hash → Option StoredHeader}
    (hm : ∀ j ≤ i, m (chainAt first chain j).header.blockHash = some (chainAt first chain j))
    {a : Hash}
    (ha : Ancestor StoredHeader.parent m (chainAt first chain i).header.blockHash a) :
    ∃ j ≤ i, a = (chainAt first chain j).header.blockHash := by
  induction i with
  | zero =>
    rcases (Ancestor.iff_of_eq (hm 0 (le_refl 0))).mp ha with rfl | ⟨b, hb, -⟩
    · exact ⟨0, le_refl 0, rfl⟩
    · rw [chainAt_zero, StoredHeader.parent, if_pos hzero] at hb
      cases hb
  | succ i ih =>
    rcases (Ancestor.iff_of_eq (hm (i + 1) (le_refl _))).mp ha with rfl | ⟨b, hb, hrest⟩
    · exact ⟨i + 1, le_refl _, rfl⟩
    · rw [StoredHeader.parent, height_chainAt hzero hi,
        header_chainAt_succ hi, prevBlockhash_getElem hfollows hi] at hb
      obtain rfl := Option.some.inj hb
      obtain ⟨j, hj, rfl⟩ := ih (le_of_succ_le hi)
        (fun j hj => hm j (le_succ_of_le hj)) hrest
      exact ⟨j, le_succ_of_le hj, rfl⟩

/-- **Writing the heights of a batch**: the entry at a height is one of the
batch, or what it was. -/
theorem HeaderIndex.exists_updateHeightIndexBatch (ix : HeaderIndex)
    (batch : List (Hash × StoredHeader)) (j : Nat) :
    (∃ p ∈ batch, p.2.height = j ∧ (ix.updateHeightIndexBatch batch).heightIndex j = some p.1)
      ∨ (∀ p ∈ batch, p.2.height ≠ j)
        ∧ (ix.updateHeightIndexBatch batch).heightIndex j = ix.heightIndex j := by
  have heq : (ix.updateHeightIndexBatch batch).heightIndex
      = PartialMap.putAll ix.heightIndex (batch.map fun p => (p.2.height, p.1)) := by
    unfold updateHeightIndexBatch PartialMap.putAll
    rw [foldl_map]
  rw [heq]
  by_cases hmem : j ∈ (batch.map fun p => (p.2.height, p.1)).map Prod.fst
  · left
    obtain ⟨v, hv, hput⟩ := PartialMap.exists_putAll_of_mem ix.heightIndex hmem
    obtain ⟨p, hp, hpair⟩ := mem_map.mp hv
    obtain ⟨rfl, rfl⟩ := Prod.mk.inj hpair
    exact ⟨p, hp, rfl, hput⟩
  · right
    refine ⟨fun p hp hj => hmem ?_, PartialMap.putAll_of_notMem _ hmem⟩
    exact mem_map.mpr ⟨(p.2.height, p.1), mem_map.mpr ⟨p, hp, rfl⟩, hj⟩

namespace HeaderSync

variable [Hashing] {S : Set Header} {first : StoredHeader} {chain : List Header}
  {server : HeaderIndex} {s : HeaderSync} {w : Walk} {i : Nat}

theorem Clears.noteBranchTaint (h : s.Clears first chain) (tip : Hash) :
    (s.noteBranchTaint tip false).Clears first chain := by
  intro i hi
  unfold HeaderSync.noteBranchTaint
  by_cases heq : (chainAt first chain i).header.blockHash = tip
  · rw [heq, AList.lookup_insert]
    exact fun hfalse => Bool.false_ne_true (Option.some.inj hfalse)
  · rw [AList.lookup_insert_ne heq]
    split
    · exact (some_ne_none true).symm
    · exact h i hi

/-- A stored header of the chain is called clean. -/
theorem Clears.branchIsTainted (h : s.Clears first chain)
    (hfollows : Follows (first.header :: chain)) (hzero : first.height = 0)
    (hunmarked : ∀ j ≤ chain.length,
      (chainAt first chain j).header.blockHash ∉ s.headerIndex.invalidSet)
    (hi : i ≤ chain.length)
    (hm : ∀ j ≤ i, s.headerIndex.headers (chainAt first chain j).header.blockHash
      = some (chainAt first chain j)) (floor : Nat) :
    ∃ memo, s.branchIsTainted (chainAt first chain i).header.blockHash floor
        = (false, s.withMemo memo) ∧ (s.withMemo memo).Clears first chain := by
  unfold HeaderSync.branchIsTainted
  cases hlookup : s.branchTainted.lookup (chainAt first chain i).header.blockHash with
  | some tainted =>
    cases tainted with
    | true => exact absurd hlookup (h i hi)
    | false => exact ⟨s.branchTainted, rfl, h⟩
  | none =>
    have hnone := firstInvalidAncestor_of_unmarked (fun b hb => by
      obtain ⟨j, hj, rfl⟩ := exists_of_ancestor_chainAt hfollows hzero hi hm hb
      exact decide_eq_false (hunmarked j (hj.trans hi))) floor taintWalkMax
    have hverdict : (s.headerIndex.isInvalid (chainAt first chain i).header.blockHash
        || (s.headerIndex.firstInvalidAncestor (chainAt first chain i).header.blockHash floor
          taintWalkMax).isSome) = false := by
      rw [hnone, isInvalid, decide_eq_false (hunmarked i hi)]
      rfl
    simp only [hverdict]
    exact ⟨_, rfl, h.noteBranchTaint _⟩

/-- The node with what a walk over the chain leaves to be chosen from. -/
def withWalk (s : HeaderSync) (w : Walk) : HeaderSync :=
  { s with
    headerIndex := { s.headerIndex with headers := w.known s.headerIndex }
    bip110Cache := w.bip110Cache }

theorem WalksChain.storeBatch_eq (hw : s.WalksChain S first chain w) :
    (s.takeWalk w).storeBatch w = s.withWalk w := by
  unfold takeWalk storeBatch
  rw [hw.index]
  rfl

section

variable (hs : s.Served S first chain)

include hs

/-- A batch of headers of the chain is called clean. -/
theorem WalksChain.taintOfBatch (hw : s.WalksChain S first chain w) (hclears : s.Clears first chain)
    {entry : Hash × StoredHeader} (hfirst : w.batch.head? = some entry) (floor : Nat) :
    ∃ memo, (s.withWalk w).taintOfBatch w entry.2.header.prevBlockhash floor
        = (false, (s.withWalk w).withMemo memo) ∧ (s.withMemo memo).Clears first chain := by
  obtain ⟨i, hi, rfl⟩ := hw.mem entry (mem_of_head? hfirst)
  -- the parent of the batch is stored, and with it all below
  obtain ⟨hgrows, -⟩ := hw.onBranch.branch _ hfirst
  obtain ⟨parent, hparent, -⟩ := hgrows.rises
  simp only [prevBlockhash_chainAt_succ hs.valid.follows hi] at hparent ⊢
  have hbelow : (s.withWalk w).Clears first chain := hclears
  obtain ⟨memo, htaint, hmemo⟩ := hbelow.branchIsTainted hs.valid.follows hs.low hs.unmarked hi.le
    (fun j hj => hw.onBranch.extend _ _ (stored_chainAt hs hi.le hparent j hj)) floor
  have hclean : (w.batch.any fun p => ((s.withWalk w).withMemo memo).headerIndex.isInvalid p.1)
      = false := by
    rw [List.any_eq_false]
    intro p hp
    obtain ⟨j, hj, rfl⟩ := hw.mem p hp
    have hunmarked := hs.unmarked (j + 1) hj
    rw [header_chainAt_succ hj] at hunmarked
    exact fun hmarked => hunmarked (of_decide_eq_true hmarked)
  unfold HeaderSync.taintOfBatch
  simp only [htaint]
  rw [hclean]
  exact ⟨_, rfl, hmemo.noteBranchTaint _⟩

section

variable (hw : s.StandsAt S first chain i w) (hi : i ≤ chain.length)
  (hnew : ¬ s.Low first chain i)
include hw hi hnew

/-- The walk stands on the last header of the batch. -/
theorem StandsAt.getLast? :
    w.batch.getLast? = some (w.prevHash, chainAt first chain i) ∧ w.height = i
      ∧ w.known s.headerIndex w.prevHash = some (chainAt first chain i) := by
  have hne : w.batch ≠ [] := fun hnil => hnew (hw.empty_iff.mp hnil)
  obtain ⟨stored, hknown, hheight, hlast⟩ := hw.onBranch.stands
  have hend := getLast?_eq_getLast_of_ne_nil hne
  have htip := hknown
  rw [hw.stands] at htip
  obtain rfl := Option.some.inj (htip.symm.trans
    (known_chainAt hs hw.toWalksChain hi htip i (le_refl i)))
  refine ⟨hend.trans (congrArg some (hlast _ hend)), ?_, hknown⟩
  rw [← hheight, height_chainAt hs.low hi]

/-- **The choice over a batch of headers of the chain**: it is adopted if it has
the work. -/
theorem StandsAt.chooseBatch (hclears : s.Clears first chain) {best : StoredHeader}
    (hbest : s.headerIndex.headers s.bestHash = some best) (blockHeight : Nat) :
    ∃ memo, (s.withMemo memo).Clears first chain
      ∧ (s.takeWalk w).chooseBatch w blockHeight
        = if best.chainWork ≤ (chainAt first chain i).chainWork then
            ((s.withWalk w).withMemo memo).adoptBatch w (chainAt first chain i).chainWork
          else (s.withWalk w).withMemo memo := by
  have hne : w.batch ≠ [] := fun hnil => hnew (hw.empty_iff.mp hnil)
  have hfirst := head?_eq_some_head hne
  obtain ⟨memo, htaint, hmemo⟩ := hw.toWalksChain.taintOfBatch hs hclears hfirst
    blockHeight
  have hend := (hw.getLast? hs hi hnew).1
  have hheaders : (s.withWalk w).headerIndex.getHeader (s.withWalk w).bestHash = some best :=
    hw.onBranch.extend _ _ hbest
  refine ⟨memo, hmemo, ?_⟩
  unfold HeaderSync.chooseBatch
  rw [hfirst, hend]
  simp only [hw.storeBatch_eq, htaint, hheaders, map_some, getD_some, Bool.not_false,
    Bool.true_and, decide_eq_true_eq]

end

/-- The node after a walk over the chain, if its height index and its best
header are as they are to be. -/
theorem WalksChain.served (hw : s.WalksChain S first chain w) {s' : HeaderSync}
    (hheaders : s'.headerIndex.headers = w.known s.headerIndex)
    (hmarks : s'.headerIndex.invalidSet = s.headerIndex.invalidSet)
    (hclears : s'.Clears first chain) (hparams : s'.params = s.params)
    (hdep : s'.bip110 = s.bip110)
    (hcache : s'.bip110Cache = w.bip110Cache)
    (hbest : ∃ stored, w.known s.headerIndex s'.bestHash = some stored
      ∧ stored.height = s'.bestHeight)
    (hnamed : ∀ i hash, s'.headerIndex.heightIndex i = some hash →
      ∃ stored, w.known s.headerIndex hash = some stored ∧ stored.height = i)
    (htop : s'.headerIndex.heightIndex s'.bestHeight = some s'.bestHash) :
    s'.Served S first chain where
  collisionless := hs.collisionless
  valid := hparams ▸ hdep ▸ hs.valid
  anchored := ⟨hheaders ▸ hw.onBranch.linked, hheaders ▸ hbest⟩
  shared := by
    rw [hheaders]
    exact hw.onBranch.extend _ _ hs.shared
  named := by
    rw [hheaders]
    exact hnamed
  top := htop
  unmarked := by
    rw [hmarks]
    exact hs.unmarked
  unjudged := fun _ => hclears
  remembered := by
    intro dep h
    rw [hdep] at h
    obtain ⟨hperiod, -⟩ := hs.remembered dep h
    refine ⟨hperiod, ?_⟩
    rw [hcache]
    have hlinked : LinkedMap S first.header.blockHash s'.headerIndex.headers :=
      hheaders ▸ hw.onBranch.linked
    refine (hw.remembered dep h).of_extends hperiod (hlinked.ancestorClosed hs.collisionless) ?_
    rw [hheaders]
    exact hw.onBranch.extend

section

variable {memo : AList fun _ : Hash => Bool} (hclears : (s.withMemo memo).Clears first chain)
include hclears

/-- The node that stores what it has accepted and keeps its best header. -/
theorem WalksChain.served_store (hw : s.WalksChain S first chain w) :
    ((s.withWalk w).withMemo memo).Served S first chain := by
  have hext := hw.onBranch.extend
  obtain ⟨best, hbest, hheight⟩ := hs.anchored.best
  refine hw.served hs rfl rfl hclears rfl rfl rfl ⟨best, hext _ _ hbest, hheight⟩
    (fun i hash hi => ?_) hs.top
  obtain ⟨stored, hstored, hheight⟩ := hs.named i hash hi
  exact ⟨stored, hext _ _ hstored, hheight⟩

/-- **The node that adopts what it has accepted.** -/
theorem StandsAt.served_adopt (hw : s.StandsAt S first chain i w) (hi : i ≤ chain.length)
    (hnew : ¬ s.Low first chain i) (work : Bytes) :
    (((s.withWalk w).withMemo memo).adoptBatch w work).Served S first chain := by
  have hne : w.batch ≠ [] := fun hnil => hnew (hw.empty_iff.mp hnil)
  have hext := hw.onBranch.extend
  have hzero := hs.low
  obtain ⟨hend, hheight, hknown⟩ := hw.getLast? hs hi hnew
  -- the entries of the batch are those of the chain
  have hentry : ∀ p ∈ w.batch, w.known s.headerIndex p.1 = some p.2
      ∧ p.1 = (chainAt first chain p.2.height).header.blockHash := by
    intro p hp
    obtain ⟨hgrows, -⟩ := hw.onBranch.branch _ (head?_eq_some_head hne)
    obtain ⟨_, -, hall⟩ := hgrows.rises
    obtain ⟨j, hj, rfl⟩ := hw.mem p hp
    refine ⟨(hall _ hp).1, ?_⟩
    rw [height_chainAt hzero hj, header_chainAt_succ hj]
  set t := (s.withWalk w).withMemo memo
  have htop : (t.headerIndex.updateHeightIndexBatch w.batch).heightIndex i = some w.prevHash := by
    rcases t.headerIndex.exists_updateHeightIndexBatch w.batch i with ⟨p, hp, hpi, heq⟩ | ⟨hnot, -⟩
    · rw [heq, (hentry p hp).2, hpi, hw.stands]
    · exact absurd (height_chainAt hzero hi) (hnot _ (mem_of_getLast? hend))
  have hadopt := adoptBatch_headerIndex (show t.headerIndex.headers _ = _ from hknown)
    (by rw [height_chainAt hzero hi, htop]) work
  refine hw.toWalksChain.served hs ?_ ?_ hclears rfl rfl rfl
    ⟨_, hknown, (height_chainAt hzero hi).trans hheight.symm⟩ ?_ ?_
  · exact congrArg headers hadopt
  · have hset := congrArg invalidSet hadopt
    exact hset
  · intro j hash hj
    replace hj := (congrFun (congrArg heightIndex hadopt) j).symm.trans hj
    rcases t.headerIndex.exists_updateHeightIndexBatch w.batch j with ⟨p, hp, hpj, heq⟩ | ⟨-, heq⟩
    · obtain rfl := mem_unique heq hj
      exact ⟨p.2, (hentry p hp).1, hpj⟩
    · obtain ⟨stored, hstored, hstoredHeight⟩ := hs.named j hash (heq.symm.trans hj)
      exact ⟨stored, hext _ _ hstored, hstoredHeight⟩
  · refine (congrFun (congrArg heightIndex hadopt) _).trans ?_
    show (t.headerIndex.updateHeightIndexBatch w.batch).heightIndex w.height = some w.prevHash
    rw [hheight, htop]

end

end

/-! ## One reply -/

/-- The height of the last header of a reply that starts over height `k`. -/
def replyEnd (chain : List Header) (k : Nat) : Nat := min (k + maxHeadersResults) chain.length

/-- **A reply is taken**: it connects, its last header is new or above the best
header, and has at least the work of the best header. -/
structure TakesReply (first : StoredHeader) (chain : List Header) (s : HeaderSync)
    (blockHeight k : Nat) : Prop where
  connects : s.Connects first chain blockHeight k
  new : ¬ s.Low first chain (replyEnd chain k)
  work : ∀ best, s.headerIndex.headers s.bestHash = some best →
    best.chainWork ≤ (chainAt first chain (replyEnd chain k)).chainWork

/-- **A reply that is ignored**: what the next request and its reply depend on is
as before. -/
structure Ignores (first : StoredHeader) (chain : List Header) (s : HeaderSync)
    (blockHeight k : Nat) (s' : HeaderSync) : Prop where
  bestHash : s'.bestHash = s.bestHash
  bestHeight : s'.bestHeight = s.bestHeight
  heights : s'.headerIndex.heightIndex = s.headerIndex.heightIndex
  extend : Extends s.headerIndex.headers s'.headerIndex.headers
  again : ¬ s'.TakesReply first chain blockHeight k

/-- **What a reply comes to**: the best header is the last one of the reply, if
it is taken. -/
structure AfterReply (S : Set Header) (first : StoredHeader) (chain : List Header)
    (s : HeaderSync) (blockHeight k : Nat) (s' : HeaderSync) : Prop where
  served : s'.Served S first chain
  takes : s.TakesReply first chain blockHeight k →
    s'.bestHash = (chainAt first chain (replyEnd chain k)).header.blockHash
      ∧ s'.bestHeight = replyEnd chain k
  keeps : ¬ s.TakesReply first chain blockHeight k → s.Ignores first chain blockHeight k s'

section

variable (hs : s.Served S first chain)

include hs

/-- **The choice after the walk over a reply**, with a memo that is up to
date. -/
theorem MeetsAt.exists_choose {k : Nat} (hmeets : s.MeetsAt first chain k) (hk : k < chain.length)
    (hclears : s.Clears first chain) (blockHeight : Nat) :
    ∃ w, s.walkHeaders blockHeight ((chain.drop k).take maxHeadersResults) s.startWalk
        = (.ok (), w)
      ∧ s.AfterReply S first chain blockHeight k
        (((s.takeWalk w).chooseBatch w blockHeight).chooseStored w blockHeight) := by
  have hstored : ∀ (w : Walk) (t : HeaderSync), w.storedWalkTip = none →
      t.chooseStored w blockHeight = t := by
    intro w t hnone
    unfold chooseStored
    rw [hnone]
  -- a walk that has accepted nothing changes nothing
  have hkeep : ∀ w, s.WalksChain S first chain w → w.batch = [] →
      ¬ s.TakesReply first chain blockHeight k → s.AfterReply S first chain blockHeight k
        (((s.takeWalk w).chooseBatch w blockHeight).chooseStored w blockHeight) := by
    intro w hw hempty hnot
    rw [chooseBatch_nil hempty, hstored w _ hw.walkTip]
    have hclears' : (s.withMemo s.branchTainted).Clears first chain := hclears
    have hserved := hw.served_store hs hclears'
    unfold withWalk Walk.known at hserved
    unfold takeWalk
    rw [hempty] at hserved
    rw [hw.index]
    exact ⟨hserved, fun ht => absurd ht hnot,
      fun _ => ⟨rfl, rfl, rfl, .refl _, fun ht => hnot { ht with }⟩⟩
  by_cases hconnects : s.Connects first chain blockHeight k
  · obtain ⟨w, hwalk, hw⟩ := hmeets.exists_walkHeaders hs hk hconnects 1999
    have hle : replyEnd chain k ≤ chain.length := min_le_right _ _
    refine ⟨w, hwalk, ?_⟩
    by_cases hlow : s.Low first chain (replyEnd chain k)
    · exact hkeep w hw.toWalksChain (hw.empty_iff.mpr hlow) fun ht => ht.new hlow
    · obtain ⟨best, hbest, -⟩ := hs.anchored.best
      obtain ⟨memo, hmemo, hchoose⟩ :=
        hw.chooseBatch hs hle hlow hclears hbest blockHeight
      rw [hstored w _ hw.walkTip, hchoose]
      split
      · rename_i hwork
        refine ⟨hw.served_adopt hs hmemo hle hlow _,
          fun _ => ⟨hw.stands, (hw.getLast? hs hle hlow).2.1⟩,
          fun hnot => absurd ⟨hconnects, hlow, fun best' hbest' => ?_⟩ hnot⟩
        exact mem_unique hbest hbest' ▸ hwork
      · rename_i hwork
        have hserved := hw.toWalksChain.served_store hs hmemo
        exact ⟨hserved, fun ht => absurd (ht.work best hbest) hwork,
          fun _ => ⟨rfl, rfl, rfl, hw.onBranch.extend,
            fun ht => hwork (ht.work best (hw.onBranch.extend _ _ hbest))⟩⟩
  · refine ⟨s.startWalk, ?_,
      hkeep s.startWalk (walksChain_startWalk hs) rfl fun ht => hconnects ht.connects⟩
    rw [drop_eq_getElem_cons hk, maxHeadersResults, take_succ_cons, walkHeaders,
      hmeets.walkHeader_eq_none hs hk hconnects]

/-- Before the walk the memo is brought up to date. -/
theorem Served.refresh : ∃ memo generation, s.refreshTaintMemo
      = { s with branchTainted := memo, taintMemoGeneration := generation }
    ∧ HeaderSync.Clears first chain
      { s with branchTainted := memo, taintMemoGeneration := generation } := by
  unfold refreshTaintMemo
  split
  · exact ⟨_, _, rfl, fun i _ => (some_ne_none true).symm⟩
  · exact ⟨_, _, rfl, hs.unjudged (not_not.mp ‹_›)⟩

/-- **Processing a reply.** -/
theorem MeetsAt.exists_processHeaders {k : Nat} (hmeets : s.MeetsAt first chain k)
    (hk : k ≤ chain.length) (blockHeight : Nat) :
    ∃ accepted s', s.processHeaders ((chain.drop k).take maxHeadersResults) blockHeight
        = (.ok accepted, s') ∧ s.AfterReply S first chain blockHeight k s' := by
  rcases lt_or_eq_of_le hk with hlt | rfl
  · obtain ⟨memo, generation, hmemo, hclears⟩ := hs.refresh
    have hr : HeaderSync.Served S first chain
        { s with branchTainted := memo, taintMemoGeneration := generation } :=
      { hs with anchored := { hs.anchored with }, unjudged := fun _ => hclears }
    have hmeets' : HeaderSync.MeetsAt first chain
        { s with branchTainted := memo, taintMemoGeneration := generation } k :=
      ⟨hmeets.low, hmeets.best⟩
    obtain ⟨w, hwalk, hafter⟩ := hmeets'.exists_choose hr hlt hclears blockHeight
    have hne : ((chain.drop k).take maxHeadersResults).isEmpty = false := by
      rw [drop_eq_getElem_cons hlt]
      rfl
    unfold processHeaders
    simp only [hne, Bool.false_eq_true, if_false, hmemo, hwalk]
    generalize chooseStored _ w blockHeight = s' at hafter ⊢
    obtain ⟨synced, hnote⟩ := s'.noteSynced_eq ((chain.drop k).take maxHeadersResults).length
    have hserved := hafter.served
    rw [hnote]
    refine ⟨_, _, rfl, { hserved with anchored := { hserved.anchored with } },
      fun ht => hafter.takes { ht with }, fun hnot => ?_⟩
    have hkeeps := hafter.keeps fun ht => hnot { ht with }
    exact { hkeeps with again := fun ht => hkeeps.again { ht with } }
  · have hnot : ¬ s.TakesReply first chain blockHeight chain.length := by
      intro ht
      have hnew := ht.new
      rw [replyEnd, min_eq_right (le_add_right _ _)] at hnew
      exact hnew hmeets.low
    refine ⟨0, s, ?_, hs, fun ht => absurd ht hnot,
      fun _ => ⟨rfl, rfl, rfl, .refl _, hnot⟩⟩
    rw [drop_length]
    rfl

variable (hserves : server.Serves first chain)
include hserves

/-- **The chains meet where the locator is found to start.** -/
theorem Served.meetsAt {k : Nat}
    (hstart : server.locatorStart (s.buildLocator first.header.blockHash) = k + 1) :
    k ≤ chain.length ∧ s.MeetsAt first chain k := by
  obtain ⟨k', hk, hmem, hstart'⟩ := hserves.exists_locatorStart
    (s.genesis_mem_buildLocator first.header.blockHash)
  obtain rfl : k = k' := succ.inj (hstart.symm.trans hstart')
  refine ⟨hk, ?_⟩
  have hzero := hs.low
  rcases mem_buildLocator hmem with hgenesis | ⟨j, hj, hnamed⟩
  · -- the first block
    obtain ⟨root, hroot, -, hrootHeight⟩ := hserves.stored 0 (zero_le _)
    obtain ⟨stored, hstored, -, hheight⟩ := hserves.stored k hk
    rw [hgenesis] at hstored
    obtain rfl := mem_unique hroot hstored
    obtain rfl : k = 0 := hheight.symm.trans hrootHeight
    refine ⟨⟨?_, zero_le _⟩, fun hbest => ?_⟩
    · rw [chainAt_zero, hs.shared]
      rfl
    · obtain ⟨best, hstored, hheight⟩ := hs.anchored.best
      exact hs.anchored.linked.linked.eq_genesis hstored (hheight.trans hbest.symm)
  · obtain ⟨stored, hstored, hheight⟩ := hs.named j _ hnamed
    obtain rfl := Option.some.inj (hstored.symm.trans
      (stored_chainAt hs hk hstored k (le_refl k)))
    rw [height_chainAt hzero hk] at hheight
    subst hheight
    refine ⟨⟨isSome_iff_exists.mpr ⟨_, hstored⟩, hj⟩, fun hbest => ?_⟩
    exact mem_unique hs.top (hbest ▸ hnamed)

end

end HeaderSync

/-! ## From the chain on -/

section

variable [Hashing] {S : Set Header} {first : StoredHeader} {chain : List Header}
  {server : HeaderIndex} {s : HeaderSync} {i j : Nat}

theorem ValidChain.chainWork_le {params : ConsensusParams} {bip110 : Option Bip110Deployment}
    (h : ValidChain S params bip110 first chain) (hij : i ≤ j) (hj : j ≤ chain.length) :
    (chainAt first chain i).chainWork ≤ (chainAt first chain j).chainWork := by
  induction j, hij using le_induction with
  | base => exact List.le_refl _
  | succ j _ ih => exact List.le_trans (ih (le_of_succ_le hj)) (List.le_of_lt (h.rises j hj))

/-- **A node whose best header is on the chain** takes the next reply. -/
theorem HeaderSync.Served.takesReply (hs : s.Served S first chain)
    (hserves : server.Serves first chain) (hi : i < chain.length)
    (hbest : s.bestHash = (chainAt first chain i).header.blockHash) (blockHeight : Nat) :
    server.locatorStart (s.buildLocator first.header.blockHash) = i + 1
      ∧ s.bestHeight = i ∧ i < HeaderSync.replyEnd chain i
      ∧ s.TakesReply first chain blockHeight i := by
  obtain ⟨best, hstored, hheight⟩ := hs.anchored.best
  have heq := stored_chainAt hs hi.le (hbest ▸ hstored) i (le_refl i)
  rw [← hbest] at heq
  obtain rfl := mem_unique hstored heq
  rw [height_chainAt hs.low hi.le] at hheight
  have hlt : i < replyEnd chain i := by
    unfold replyEnd maxHeadersResults
    omega
  refine ⟨?_, hheight.symm, hlt, Or.inl hbest, fun hlow => ?_, fun best' hbest' => ?_⟩
  · refine hserves.locatorStart_of_head hi.le (head?_buildLocator ?_ _)
    rw [hs.top, hbest]
  · have hle := hlow.2
    omega
  · rw [← mem_unique heq hbest']
    exact hs.valid.chainWork_le hlt.le (min_le_right _ _)

end
