import BitcoinPR.Core.Reorg
import BitcoinPR.Lib.Branches
import BitcoinPR.Lib.Median
import Mathlib.Data.List.DropRight

/-!
# What the BIP-110 checker computes

The state of the deployment for a block is a function of the headers before it:
they fall into periods, and the last header of each period moves the state on,
by the median time and by the signals of its period. `periodState` says this of a
plain list of headers, with no index and no memory.

The checker answers from the index. It does not look at the periods before the
start time, walks back only to a boundary it remembers, and remembers boundaries
of all branches alike. None of that shows: the median time never falls along a
branch, so before the start time every period is `defined`, and a boundary's hash
names its branch, so what is remembered under it stays true when further headers
are stored.
-/

open List HeaderIndex Nat

open Branches (Extends)
open Median (median)

/-! ## The branch of a block, as a list -/

/-- The branch that ends in `hash`, from there down. The first block stands on
a parent that is not stored. -/
def IsBranch [Hashing] (m : Hash → Option StoredHeader) : Hash → List Header → Prop
  | hash, [] => m hash = none
  | hash, h :: below => h.blockHash = hash
      ∧ (∃ work, m hash = some ⟨h, below.length, work⟩) ∧ IsBranch m h.prevBlockhash below

namespace HeaderIndex

/-- At most `n` headers, from `hash` down. -/
def branchWalk (ix : HeaderIndex) : Nat → Hash → List Header
  | 0, _ => []
  | n + 1, hash =>
    match ix.getHeader hash with
    | some stored => stored.header :: ix.branchWalk n stored.header.prevBlockhash
    | none => []

/-- The headers from `hash` down to the first block. -/
def branch (ix : HeaderIndex) (hash : Hash) : List Header :=
  ix.branchWalk ((ix.getHeader hash).elim 0 fun stored => stored.height + 1) hash

variable [Hashing]

/-- **Every ancestor is stored**: headers are stored under their hashes, one
above their parents; the parent of the first block is not stored. -/
structure AncestorClosed (ix : HeaderIndex) : Prop where
  keyed : ∀ hash stored, ix.headers hash = some stored → stored.header.blockHash = hash
  linked : ∀ hash stored, ix.headers hash = some stored →
    (stored.height = 0 ∧ ix.headers stored.header.prevBlockhash = none) ∨
      ∃ parent, ix.headers stored.header.prevBlockhash = some parent
        ∧ stored.height = parent.height + 1

omit [Hashing] in
/-- **Every header is later than the median time before it.** -/
def Timed (ix : HeaderIndex) : Prop :=
  ∀ hash stored mtp, ix.headers hash = some stored →
    getMedianTimePast ix stored.header.prevBlockhash = some mtp → mtp < stored.header.time.toNat

end HeaderIndex

namespace IsBranch

variable [Hashing] {m m' : Hash → Option StoredHeader} {hash : Hash} {hs hs' : List Header}

/-- A block has one branch. -/
theorem unique (h : IsBranch m hash hs) (h' : IsBranch m hash hs') : hs = hs' := by
  induction hs generalizing hash hs' with
  | nil =>
    cases hs' with
    | nil => rfl
    | cons a below =>
      obtain ⟨-, ⟨_, hm⟩, -⟩ := h'
      cases (show m hash = none from h).symm.trans hm
  | cons a below ih =>
    obtain ⟨-, ⟨_, hm⟩, hbelow⟩ := h
    cases hs' with
    | nil => cases (show m hash = none from h').symm.trans hm
    | cons a' below' =>
      obtain ⟨-, ⟨_, hm'⟩, hbelow'⟩ := h'
      obtain ⟨rfl, -⟩ := StoredHeader.mk.inj (Option.mem_unique hm hm')
      rw [ih hbelow hbelow']

/-- **A stored block keeps its branch** when further headers are stored. -/
theorem of_extends {ix ix' : HeaderIndex} (hclosed : ix'.AncestorClosed)
    (he : Extends ix.headers ix'.headers) {h : Header} {below : List Header}
    (hb : IsBranch ix.headers hash (h :: below)) : IsBranch ix'.headers hash (h :: below) := by
  induction below generalizing hash h with
  | nil =>
    obtain ⟨hkey, ⟨work, hm⟩, -⟩ := hb
    refine ⟨hkey, ⟨work, he _ _ hm⟩, ?_⟩
    rcases hclosed.linked hash _ (he _ _ hm) with ⟨-, hnone⟩ | ⟨parent, -, hheight⟩
    · exact hnone
    · cases hheight
  | cons p below ih =>
    obtain ⟨hkey, ⟨work, hm⟩, hbelow⟩ := hb
    exact ⟨hkey, ⟨work, he _ _ hm⟩, ih hbelow⟩

end IsBranch

namespace HeaderIndex

variable [Hashing] {ix : HeaderIndex}

theorem AncestorClosed.isBranch_branchWalk (h : ix.AncestorClosed) {n : Nat} {hash : Hash}
    {stored : StoredHeader} (hm : ix.headers hash = some stored) (hn : stored.height = n) :
    IsBranch ix.headers hash (ix.branchWalk (n + 1) hash)
      ∧ (ix.branchWalk (n + 1) hash).length = n + 1 := by
  induction n generalizing hash stored with
  | zero =>
    rcases h.linked hash stored hm with ⟨hzero, hnone⟩ | ⟨parent, -, hheight⟩
    · have hwalk : ix.branchWalk 1 hash = [stored.header] := by
        simp only [branchWalk, getHeader, hm]
      rw [hwalk]
      refine ⟨⟨h.keyed hash stored hm, ⟨stored.chainWork, ?_⟩, hnone⟩, rfl⟩
      rw [length_nil, ← hzero]
      exact hm
    · omega
  | succ n ih =>
    rcases h.linked hash stored hm with ⟨hzero, -⟩ | ⟨parent, hp, hheight⟩
    · omega
    · have hwalk : ix.branchWalk (n + 2) hash
          = stored.header :: ix.branchWalk (n + 1) stored.header.prevBlockhash := by
        rw [branchWalk, getHeader, hm]
      obtain ⟨hbelow, hlen⟩ := ih hp (by omega)
      rw [hwalk]
      refine ⟨⟨h.keyed hash stored hm, ⟨stored.chainWork, ?_⟩, hbelow⟩, by rw [length_cons, hlen]⟩
      rw [hlen, ← hn]
      exact hm

/-- **The branch of a block is the list of its ancestors.** -/
theorem AncestorClosed.isBranch (h : ix.AncestorClosed) (hash : Hash) :
    IsBranch ix.headers hash (ix.branch hash) := by
  unfold branch getHeader
  cases hm : ix.headers hash with
  | none => exact hm
  | some stored => exact (h.isBranch_branchWalk hm rfl).1

end HeaderIndex

/-! ## What the index says of a branch -/

section

variable [Hashing] {ix : HeaderIndex} {hash : Hash} {hs : List Header}

theorem IsBranch.ancestorTimes_eq (h : IsBranch ix.headers hash hs) (n : Nat) :
    ancestorTimes ix n hash = (hs.map fun a => a.time.toNat).take n := by
  induction n generalizing hash hs with
  | zero => rfl
  | succ n ih =>
    cases hs with
    | nil => rw [ancestorTimes, getHeader, show ix.headers hash = none from h]; rfl
    | cons a below =>
      obtain ⟨-, ⟨_, hm⟩, hbelow⟩ := h
      rw [ancestorTimes, getHeader, hm]
      simp only [ih hbelow, map_cons, take_succ_cons]

theorem IsBranch.getMedianTimePast_eq (h : IsBranch ix.headers hash hs) :
    getMedianTimePast ix hash = median ((hs.map fun a => a.time.toNat).take 11) := by
  rw [getMedianTimePast, h.ancestorTimes_eq]
  rfl

theorem IsBranch.ancestorWalk_eq {a : Header} {below : List Header}
    (h : IsBranch ix.headers a.blockHash (a :: below)) (work : Bytes) {target fuel : Nat}
    (ht : target ≤ below.length) (hfuel : below.length ≤ fuel) :
    ∃ b rest work', (a :: below).drop (below.length - target) = b :: rest ∧ rest.length = target
      ∧ IsBranch ix.headers b.blockHash (b :: rest)
      ∧ ix.ancestorWalk target fuel ⟨a, below.length, work⟩ = some ⟨b, target, work'⟩ := by
  induction below generalizing a work fuel with
  | nil =>
    obtain rfl : target = 0 := le_zero.mp ht
    refine ⟨a, [], work, rfl, rfl, h, ?_⟩
    unfold ancestorWalk
    exact if_pos (le_refl 0)
  | cons p below ih =>
    unfold ancestorWalk
    rcases lt_or_eq_of_le ht with hlt | rfl
    · have hbelow := h.2.2
      obtain ⟨pwork, hp⟩ := hbelow.2.1
      cases fuel with
      | zero => cases hfuel
      | succ fuel =>
        rw [← hbelow.1] at hbelow
        obtain ⟨b, rest, work', hdrop, hlen, hb, hwalk⟩ := ih hbelow pwork
          (le_of_lt_succ hlt) (le_of_succ_le_succ hfuel)
        refine ⟨b, rest, work', ?_, hlen, hb, ?_⟩
        · rw [length_cons, Nat.succ_sub (Nat.le_of_lt_succ hlt), drop_succ_cons, hdrop]
        · rw [if_neg (Nat.not_le_of_lt hlt)]
          simp only [getHeader, hp]
          rw [if_pos (show below.length < (p :: below).length from lt_succ_self _), hwalk]
    · refine ⟨a, p :: below, work, ?_, rfl, h, if_pos (Nat.le_refl _)⟩
      rw [Nat.sub_self, drop_zero]

/-- **The ancestor at a height** is the last of the headers up to it. -/
theorem IsBranch.getAncestor_eq (h : IsBranch ix.headers hash hs) {target : Nat}
    (ht : target < hs.length) :
    ∃ a below work, hs.rtake (target + 1) = a :: below ∧ below.length = target
      ∧ IsBranch ix.headers a.blockHash (a :: below)
      ∧ ix.getAncestor hash target = some ⟨a, target, work⟩ := by
  cases hs with
  | nil => cases ht
  | cons a below =>
    obtain ⟨rfl, ⟨work, hm⟩, -⟩ := id h
    obtain ⟨b, rest, work', hdrop, hlen, hb, hwalk⟩ :=
      h.ancestorWalk_eq work (le_of_lt_succ ht) (le_refl _)
    refine ⟨b, rest, work', ?_, hlen, hb, ?_⟩
    · rw [List.rtake, length_cons, Nat.add_sub_add_right, hdrop]
    · simp only [getAncestor, getHeader, hm]
      rw [if_neg (Nat.not_lt_of_le (Nat.le_of_lt_succ ht)), hwalk]

/-- The walk over a period counts the headers of the period that signal. -/
theorem IsBranch.countSignals_eq (dep : Bip110Deployment) {a : Header} {below : List Header}
    (h : IsBranch ix.headers a.blockHash (a :: below)) (work : Bytes) {start fuel : Nat}
    (hstart : start ≤ below.length) (hfuel : below.length ≤ fuel) :
    countSignals ix dep start fuel ⟨a, below.length, work⟩
      = ((a :: below).take (below.length + 1 - start)).countP
          fun b => dep.signals b.versionBits := by
  induction below generalizing a work fuel with
  | nil =>
    obtain rfl : start = 0 := le_zero.mp hstart
    unfold countSignals
    cases fuel with
    | zero => exact countP_singleton.symm
    | succ fuel => exact (if_pos (le_refl 0)).trans countP_singleton.symm
  | cons p below ih =>
    unfold countSignals
    cases fuel with
    | zero => cases hfuel
    | succ fuel =>
      rcases lt_or_eq_of_le hstart with hlt | rfl
      · have hbelow := h.2.2
        obtain ⟨pwork, hp⟩ := hbelow.2.1
        rw [← hbelow.1] at hbelow
        have hrest := ih hbelow pwork (le_of_lt_succ hlt) (le_of_succ_le_succ hfuel)
        have htake : (a :: p :: below).take ((p :: below).length + 1 - start)
            = a :: (p :: below).take (below.length + 1 - start) := by
          rw [succ_sub hstart]
          rfl
        rw [htake, countP_cons, ← hrest]
        simp only [getHeader, hp]
        rw [if_neg (Nat.not_le_of_lt hlt),
          if_pos (show below.length < (p :: below).length from Nat.lt_succ_self _)]
        exact Nat.add_comm _ _
      · rw [Nat.add_sub_cancel_left, take_succ_cons]
        exact (if_pos (Nat.le_refl _)).trans countP_singleton.symm

end

/-! ## The state, period by period -/

/-- The median time at the end of a branch. -/
def medianTime (branch : List Header) : Nat :=
  (median ((branch.map fun a => a.time.toNat).take 11)).getD 0

namespace Bip110Deployment

/-- The state after a period, from the state in it; `branch` ends with the
period. -/
def nextState (dep : Bip110Deployment) (st : ThresholdState × Option Nat)
    (branch : List Header) : ThresholdState × Option Nat :=
  match st with
  | (.defined, _) =>
    if dep.startTime ≤ medianTime branch then (.started, none) else (.defined, none)
  | (.started, _) =>
    if dep.threshold ≤ (branch.take dep.period).countP (fun a => dep.signals a.versionBits)
        ∨ dep.lockInFloorHeight ≤ branch.length then
      (.lockedIn, some (branch.length + dep.period))
    else (.started, none)
  | (.lockedIn, activation) => (.active, activation)
  | (.active, activation) =>
    if activation.any fun a => decide (min (a + dep.activeDuration) (2 ^ 32 - 1) ≤ branch.length)
    then (.expired, activation)
    else (.active, activation)
  | (.expired, activation) => (.expired, activation)

/-- **The state after the first `k` periods of a branch.** -/
def periodState (dep : Bip110Deployment) (branch : List Header) :
    Nat → ThresholdState × Option Nat
  | 0 => (.defined, none)
  | k + 1 => dep.nextState (dep.periodState branch k) (branch.rtake ((k + 1) * dep.period))

/-- **The deployment as the block after a branch is to see it.** -/
def activationOver (dep : Bip110Deployment) (branch : List Header) : Bip110Activation :=
  let st := dep.periodState branch (branch.length / dep.period)
  ⟨st.1, st.2⟩

end Bip110Deployment

theorem List.rtake_rtake {α : Type} (l : List α) {n k : Nat} (h : k ≤ n) :
    (l.rtake n).rtake k = l.rtake k := by
  simp only [List.rtake, drop_drop, length_drop]
  congr 1
  omega

namespace Bip110Deployment

variable (dep : Bip110Deployment)

/-- Only the periods asked for matter. -/
theorem periodState_rtake (branch : List Header) {n k : Nat} (h : k * dep.period ≤ n) :
    dep.periodState (branch.rtake n) k = dep.periodState branch k := by
  induction k with
  | zero => rfl
  | succ k ih =>
    have hle : k * dep.period ≤ n := (mul_le_mul_right _ (le_succ k)).trans h
    rw [periodState, periodState, ih hle, rtake_rtake _ h]

variable [Hashing] {ix : HeaderIndex} {hash : Hash} {hs : List Header}

/-- **The checker's transition is the step from period to period.** -/
theorem transition_eq {a : Header} {below : List Header}
    (h : IsBranch ix.headers a.blockHash (a :: below)) (work : Bytes) (hperiod : 1 ≤ dep.period)
    (hlen : dep.period ≤ below.length + 1) (st : ThresholdState × Option Nat) :
    bip110Transition ix dep st.1 st.2 ⟨a, below.length, work⟩ = dep.nextState st (a :: below) := by
  obtain ⟨state, activation⟩ := st
  cases state with
  | defined =>
    show (if dep.startTime ≤ (getMedianTimePast ix a.blockHash).getD 0 then _ else _) = _
    rw [h.getMedianTimePast_eq]
    rfl
  | started =>
    have hcount := h.countSignals_eq dep work
      (show below.length + 1 - dep.period ≤ below.length by omega) (Nat.le_refl _)
    rw [Nat.sub_sub_self hlen] at hcount
    simp only [bip110Transition, nextState, hcount, length_cons]
  | lockedIn => rfl
  | active =>
    cases activation with
    | none => rfl
    | some height => simp [bip110Transition, nextState]
  | expired => rfl

end Bip110Deployment

/-! ## The median time never falls -/

/-- Every header of the branch is later than the median time below it. -/
def TimedBranch : List Header → Prop
  | [] => True
  | a :: below => (∀ mtp, median ((below.map fun b => b.time.toNat).take 11) = some mtp →
      mtp < a.time.toNat) ∧ TimedBranch below

theorem IsBranch.timed [Hashing] {ix : HeaderIndex} {hash : Hash} {hs : List Header}
    (htimed : ix.Timed) (h : IsBranch ix.headers hash hs) : TimedBranch hs := by
  induction hs generalizing hash with
  | nil => trivial
  | cons a below ih =>
    obtain ⟨-, ⟨work, hm⟩, hbelow⟩ := h
    exact ⟨fun mtp hmtp => htimed hash _ mtp hm (hbelow.getMedianTimePast_eq.trans hmtp), ih hbelow⟩

namespace TimedBranch

variable {hs : List Header}

theorem drop (h : TimedBranch hs) (k : Nat) : TimedBranch (hs.drop k) := by
  induction k generalizing hs with
  | zero => exact h
  | succ k ih =>
    cases hs with
    | nil => trivial
    | cons a below => exact ih h.2

theorem medianTime_le_cons {a : Header} {below : List Header} (h : TimedBranch (a :: below)) :
    medianTime below ≤ medianTime (a :: below) := by
  unfold medianTime
  cases hold : median ((below.map fun b => b.time.toNat).take 11) with
  | none => exact zero_le _
  | some mtp =>
    cases hnew : median (((a :: below).map fun b => b.time.toNat).take 11) with
    | none => cases Median.median_eq_none_iff.mp hnew
    | some mtp' => exact Median.median_le_median_cons hold (h.1 mtp hold).le hnew

/-- **Along a branch the median time does not fall.** -/
theorem medianTime_drop_le (h : TimedBranch hs) (k : Nat) :
    medianTime (hs.drop k) ≤ medianTime hs := by
  induction k generalizing hs with
  | zero => exact le_refl _
  | succ k ih =>
    cases hs with
    | nil => exact le_refl _
    | cons a below => exact (ih h.2).trans h.medianTime_le_cons

/-- **Before the start time every period is `defined`.** -/
theorem periodState_of_early (h : TimedBranch hs) {dep : Bip110Deployment}
    (hearly : medianTime hs < dep.startTime) (k : Nat) :
    dep.periodState hs k = (.defined, none) := by
  induction k with
  | zero => rfl
  | succ k ih =>
    have hle : medianTime (hs.rtake ((k + 1) * dep.period)) ≤ medianTime hs :=
      h.medianTime_drop_le _
    rw [Bip110Deployment.periodState, ih]
    exact if_neg (Nat.not_le_of_lt (hle.trans_lt hearly))

end TimedBranch

/-! ## The walk back and the memory -/

/-- **Every remembered state is that of the branch its hash names**, if the
times of the branch are as they are to be. -/
def Bip110Cache.Truthful [Hashing] (cache : Bip110Cache) (dep : Bip110Deployment)
    (m : Hash → Option StoredHeader) : Prop :=
  ∀ hash st, cache hash = some st → ∃ hs k, IsBranch m hash hs
    ∧ hs.length = (k + 1) * dep.period ∧ (TimedBranch hs → st = dep.periodState hs (k + 1))

section

variable {st : ThresholdState × Option Nat}

variable [Hashing] {ix ix' : HeaderIndex} {dep : Bip110Deployment} {cache : Bip110Cache}

/-- **What is remembered stays true** when further headers are stored. -/
theorem Bip110Cache.Truthful.of_extends (hc : cache.Truthful dep ix.headers)
    (hperiod : 1 ≤ dep.period) (hclosed : ix'.AncestorClosed)
    (he : Extends ix.headers ix'.headers) : cache.Truthful dep ix'.headers := by
  intro hash st hst
  obtain ⟨hs, k, h, hlen, heq⟩ := hc hash st hst
  cases hs with
  | nil =>
    have hpos : 0 < (k + 1) * dep.period := mul_pos (succ_pos k) hperiod
    rw [← hlen] at hpos
    cases hpos
  | cons a below => exact ⟨_, k, h.of_extends hclosed he, hlen, heq⟩

variable (hperiod : 1 ≤ dep.period) (hc : cache.Truthful dep ix.headers)
include hperiod hc

section

variable {a : Header} {below : List Header} {k : Nat}
  (h : IsBranch ix.headers a.blockHash (a :: below)) (work : Bytes)
  (hlen : below.length + 1 = (k + 1) * dep.period)
include h hlen

/-- Computing one boundary: the state moves on by a period, and is
remembered. -/
theorem exists_computeBoundaries_cons
    (hst : TimedBranch (a :: below) → st = dep.periodState (a :: below) k)
    (stack : List StoredHeader) :
    ∃ (st' : ThresholdState × Option Nat) (cache' : Bip110Cache), cache'.Truthful dep ix.headers
      ∧ (TimedBranch (a :: below) → st' = dep.periodState (a :: below) (k + 1))
      ∧ computeBoundaries ix dep (⟨a, below.length, work⟩ :: stack) st cache
        = computeBoundaries ix dep stack st' cache' := by
  have hle : dep.period ≤ below.length + 1 := by
    rw [hlen]
    exact Nat.le_mul_of_pos_left _ (Nat.succ_pos k)
  have hnext : TimedBranch (a :: below) → bip110Transition ix dep st.1 st.2 ⟨a, below.length, work⟩
        = dep.periodState (a :: below) (k + 1) := by
    intro htimed
    rw [dep.transition_eq h work hperiod hle, hst htimed, Bip110Deployment.periodState, ← hlen,
      List.rtake, length_cons, Nat.sub_self, drop_zero]
  refine ⟨_, _, fun hash st' hst' => ?_, hnext, rfl⟩
  rcases PartialMap.update_eq_some.mp hst' with ⟨rfl, hnew⟩ | ⟨-, hold⟩
  · exact ⟨a :: below, k, h, hlen, Option.some.inj hnew ▸ hnext⟩
  · exact hc hash st' hold

/-- **Walking back and computing forward** arrives at the state after the
boundary walked from, whatever was remembered. -/
theorem exists_computeBoundaries {fuel : Nat} (hfuel : k < fuel) (stack : List StoredHeader) :
    ∃ (st : ThresholdState × Option Nat) (cache' : Bip110Cache), cache'.Truthful dep ix.headers
      ∧ (TimedBranch (a :: below) → st = dep.periodState (a :: below) (k + 1))
      ∧ computeBoundaries ix dep
          (boundariesToCompute ix dep cache fuel ⟨a, below.length, work⟩ stack).1
          (boundariesToCompute ix dep cache fuel ⟨a, below.length, work⟩ stack).2 cache
        = computeBoundaries ix dep stack st cache' := by
  induction fuel generalizing a below work k stack with
  | zero => cases hfuel
  | succ fuel ih =>
    unfold boundariesToCompute
    cases hknown : cache a.blockHash with
    | some known =>
      obtain ⟨hs, k', h', hlen', heq⟩ := hc _ known hknown
      obtain rfl := h.unique h'
      obtain rfl := succ.inj (eq_of_mul_eq_mul_right hperiod (hlen.symm.trans hlen'))
      exact ⟨known, cache, hc, heq, rfl⟩
    | none =>
      by_cases hearly : (getMedianTimePast ix a.blockHash).getD 0 < dep.startTime
      · rw [if_pos hearly]
        rw [h.getMedianTimePast_eq] at hearly
        exact ⟨_, cache, hc, fun htimed => (htimed.periodState_of_early hearly _).symm, rfl⟩
      rw [if_neg hearly]
      by_cases hfirst : below.length < dep.period
      · -- the boundary ends the first period
        rw [if_pos hfirst]
        obtain rfl : k = 0 := by
          by_contra hpos
          have hmul : 2 * dep.period ≤ (k + 1) * dep.period := mul_le_mul_right _ (by omega)
          omega
        exact exists_computeBoundaries_cons hperiod hc h work hlen (fun _ => rfl) stack
      rw [if_neg hfirst]
      obtain ⟨j, rfl⟩ : ∃ j, k = j + 1 := exists_eq_succ_of_ne_zero (by
        rintro rfl
        omega)
      obtain ⟨b, rest, work', hrtake, hrest, hb, hancestor⟩ :=
        h.2.2.getAncestor_eq (show below.length - dep.period < below.length by omega)
      rw [hancestor]
      have hlen' : rest.length + 1 = (j + 1) * dep.period := by
        rw [succ_mul] at hlen
        omega
      -- up to the boundary below, the two branches are the same
      have htail : (a :: below).rtake (rest.length + 1) = b :: rest := by
        rw [← hrtake, hrest, List.rtake, List.rtake, length_cons,
          succ_sub (show below.length - dep.period + 1 ≤ below.length by omega),
          drop_succ_cons]
      obtain ⟨st, cache', hc', hst, heq⟩ := ih hb work' hlen' (by omega)
        (⟨a, below.length, work⟩ :: stack)
      rw [hrest] at heq
      have hst' : TimedBranch (a :: below) → st = dep.periodState (a :: below) (j + 1) := by
        intro htimed
        rw [hst (htail ▸ htimed.drop _), ← htail, dep.periodState_rtake _ (le_of_eq hlen'.symm)]
      obtain ⟨st', cache'', hc'', hst'', heq'⟩ :=
        exists_computeBoundaries_cons hperiod hc' h work hlen hst' stack
      exact ⟨st', cache'', hc'', hst'', heq.trans heq'⟩

end

/-- **An answer of the checker** is the state over the branch, and leaves the
memory true. -/
theorem activationFor_eq {prev : Hash} {hs : List Header} (h : IsBranch ix.headers prev hs) :
    (TimedBranch hs →
        (activationFor ix dep cache prev hs.length).1 = dep.activationOver hs)
      ∧ (activationFor ix dep cache prev hs.length).2.Truthful dep ix.headers := by
  unfold activationFor Bip110Deployment.activationOver
  by_cases hzero : hs.length / dep.period = 0
  · rw [hzero]
    exact ⟨fun _ => rfl, hc⟩
  rw [if_neg hzero]
  obtain ⟨k, hk⟩ := exists_eq_succ_of_ne_zero hzero
  rw [hk]
  by_cases hearly : ((getMedianTimePast ix prev).any fun mtp => decide (mtp < dep.startTime)) = true
  · rw [if_pos hearly]
    rw [h.getMedianTimePast_eq] at hearly
    have hmedian : medianTime hs < dep.startTime := by
      unfold medianTime
      cases hmtp : median ((hs.map fun a => a.time.toNat).take 11) with
      | none =>
        rw [hmtp] at hearly
        cases hearly
      | some mtp =>
        rw [hmtp] at hearly
        exact of_decide_eq_true hearly
    refine ⟨fun htimed => ?_, hc⟩
    rw [htimed.periodState_of_early hmedian]
    rfl
  rw [if_neg hearly]
  have hle : (k + 1) * dep.period ≤ hs.length := by
    rw [← succ_eq_add_one, ← hk]
    exact div_mul_le_self hs.length dep.period
  have hpos : 0 < (k + 1) * dep.period := mul_pos (succ_pos k) hperiod
  obtain ⟨a, below, work, hrtake, hlen, ha, hancestor⟩ :=
    h.getAncestor_eq (show (k + 1) * dep.period - 1 < hs.length by omega)
  have hboundary : below.length + 1 = (k + 1) * dep.period := by omega
  have hfuel : k < below.length + 1 := by
    rw [hboundary]
    exact Nat.le_mul_of_pos_right _ hperiod
  obtain ⟨st, cache', hc', hst, hstate⟩ :=
    exists_computeBoundaries hperiod hc ha work hboundary hfuel []
  rw [hlen] at hstate
  simp only [hancestor, stateAtBoundary, hstate, computeBoundaries]
  refine ⟨fun htimed => ?_, hc'⟩
  rw [hst (hrtake ▸ htimed.drop _), ← hrtake, Nat.sub_add_cancel hpos,
    dep.periodState_rtake _ (Nat.le_refl _)]

end

/-! ## Runs -/

/-- What happens to the checker: it is asked, or further headers are stored and
the index becomes another. -/
inductive CheckerEvent where
  | query (prevHash : Hash) (height : Nat)
  | grow (ix : HeaderIndex)

namespace Bip110Deployment

variable [Hashing] (dep : Bip110Deployment)

/-- The answers of the checker in a run. -/
def answers : HeaderIndex → Bip110Cache → List CheckerEvent → List Bip110Activation
  | _, _, [] => []
  | ix, cache, .query prevHash height :: events =>
    let (activation, cache) := activationFor ix dep cache prevHash height
    activation :: answers ix cache events
  | _, cache, .grow ix :: events => answers ix cache events

omit [Hashing] in
/-- The answers to be given: each from the ancestors of the block asked about,
and from nothing else. -/
def answersOver : HeaderIndex → List CheckerEvent → List Bip110Activation
  | _, [] => []
  | ix, .query prevHash _ :: events =>
    dep.activationOver (ix.branch prevHash) :: answersOver ix events
  | _, .grow ix :: events => answersOver ix events

end Bip110Deployment

/-- **Queries ask about a block by its parent and its height**, and headers are
only added, in such a way that the index stays as it is to be. -/
def GrowsOnly [Hashing] : HeaderIndex → List CheckerEvent → Prop
  | _, [] => True
  | ix, .query prevHash height :: events =>
    height = (ix.branch prevHash).length ∧ GrowsOnly ix events
  | ix, .grow ix' :: events =>
    Extends ix.headers ix'.headers ∧ ix'.AncestorClosed ∧ ix'.Timed ∧ GrowsOnly ix' events

namespace Bip110Deployment

variable [Hashing] {dep : Bip110Deployment} {ix : HeaderIndex}

theorem answers_of_truthful (hperiod : 1 ≤ dep.period) {cache : Bip110Cache}
    {events : List CheckerEvent} (hclosed : ix.AncestorClosed) (htimed : ix.Timed)
    (hc : cache.Truthful dep ix.headers) (hgrows : GrowsOnly ix events) :
    dep.answers ix cache events = dep.answersOver ix events := by
  induction events generalizing ix cache with
  | nil => rfl
  | cons event events ih =>
    cases event with
    | query prevHash height =>
      obtain ⟨rfl, hrest⟩ := hgrows
      have hbranch := hclosed.isBranch prevHash
      obtain ⟨hanswer, hc'⟩ := activationFor_eq hperiod hc hbranch
      simp only [answers, answersOver]
      rw [hanswer (hbranch.timed htimed), ih hclosed htimed hc' hrest]
    | grow ix' =>
      obtain ⟨he, hclosed', htimed', hrest⟩ := hgrows
      exact ih hclosed' htimed' (hc.of_extends hperiod hclosed' he) hrest

/-- **The checker computes the state of the deployment**: in any run from an
empty memory, every answer is that of the periods of the block's own branch. -/
theorem answers_eq (dep : Bip110Deployment) (hperiod : 1 ≤ dep.period) (ix : HeaderIndex)
    (hclosed : ix.AncestorClosed) (htimed : ix.Timed) (events : List CheckerEvent)
    (hgrows : GrowsOnly ix events) :
    dep.answers ix (fun _ => none) events = dep.answersOver ix events := by
  refine answers_of_truthful hperiod hclosed htimed (fun hash st hst => ?_) hgrows
  cases hst

end Bip110Deployment

section Sample

variable {tree : List (Nat × Nat × Nat)}

attribute [local instance] sampleHashing

theorem exists_of_sampleIndex {hash : Hash}
    {stored : StoredHeader} (h : (sampleIndex tree).headers hash = some stored) :
    ∃ t ∈ tree, BitVec.ofNat 256 t.1 = hash
      ∧ stored = ⟨sampleHeader t.2.1 t.1 t.2.2 0, t.2.2, zeroWork⟩ := by
  induction tree with
  | nil => cases h
  | cons t tree ih =>
    rcases PartialMap.update_eq_some.mp h with ⟨rfl, hnew⟩ | ⟨-, hold⟩
    · exact ⟨t, mem_cons_self, rfl, (Option.some.inj hnew).symm⟩
    · obtain ⟨u, hu, hrest⟩ := ih hold
      exact ⟨u, mem_cons_of_mem _ hu, hrest⟩

theorem extends_sampleIndex {t : Nat × Nat × Nat}
    (hnew : (sampleIndex tree).headers (BitVec.ofNat 256 t.1) = none) :
    Extends (sampleIndex tree).headers (sampleIndex (t :: tree)).headers := by
  intro hash stored h
  refine (Function.update_of_ne ?_ _ _).trans h
  rintro rfl
  cases hnew.symm.trans h

theorem ancestorClosed_sampleIndex
    (hkeyed : ∀ t ∈ tree, (sampleHeader t.2.1 t.1 t.2.2 0).blockHash = BitVec.ofNat 256 t.1)
    (hlinked : ∀ t ∈ tree,
      (t.2.2 = 0 ∧ (sampleIndex tree).headers (BitVec.ofNat 256 t.2.1) = none) ∨
        ∃ p ∈ tree, (sampleIndex tree).headers (BitVec.ofNat 256 t.2.1)
          = some ⟨sampleHeader p.2.1 p.1 p.2.2 0, p.2.2, zeroWork⟩ ∧ t.2.2 = p.2.2 + 1) :
    (sampleIndex tree).AncestorClosed := by
  refine ⟨fun hash stored h => ?_, fun hash stored h => ?_⟩ <;>
    obtain ⟨t, ht, rfl, rfl⟩ := exists_of_sampleIndex h
  · exact hkeyed t ht
  · refine (hlinked t ht).imp_right fun hp => ?_
    obtain ⟨p, -, hparent, hheight⟩ := hp
    exact ⟨_, hparent, hheight⟩

theorem timed_sampleIndex
    (htimed : ∀ t ∈ tree, ∀ mtp ∈ getMedianTimePast (sampleIndex tree) (BitVec.ofNat 256 t.2.1),
      mtp < (UInt32.ofNat t.2.2).toNat) : (sampleIndex tree).Timed := by
  intro hash stored mtp h hmtp
  obtain ⟨t, ht, rfl, rfl⟩ := exists_of_sampleIndex h
  exact htimed t ht mtp hmtp

/-- Periods of one block, started at time 1 and locked in at height 3. -/
def quickDeployment : Bip110Deployment := ⟨1, 4, 1, 9, 3, (0, 0), 1⟩

/-- Four headers in a row. -/
def fourInARow : List (Nat × Nat × Nat) := [(4, 3, 3), (3, 2, 2), (2, 1, 1), (1, 0, 0)]

/-- The checker is asked about a block over header 4, and about one over
header 5, which is stored in between and beside header 4. -/
theorem answers_twoBranches :
    quickDeployment.answers (sampleIndex fourInARow) (fun _ => none)
        [.query 4#256 4, .grow (sampleIndex ((5, 3, 3) :: fourInARow)), .query 5#256 4]
      = [⟨.active, some 4⟩, ⟨.active, some 4⟩] := by
  have hgrows : GrowsOnly (sampleIndex fourInARow)
      [.query 4#256 4, .grow (sampleIndex ((5, 3, 3) :: fourInARow)), .query 5#256 4] :=
    ⟨by decide, extends_sampleIndex (by decide), ancestorClosed_sampleIndex (by decide) (by decide),
      timed_sampleIndex (by decide), by decide, trivial⟩
  exact (quickDeployment.answers_eq (by decide) _
    (ancestorClosed_sampleIndex (by decide) (by decide)) (timed_sampleIndex (by decide)) _
    hgrows).trans (by decide)

end Sample
