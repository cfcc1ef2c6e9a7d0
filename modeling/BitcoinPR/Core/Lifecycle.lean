import BitcoinPR.Core.Deployment

/-!
# The life of a deployment along a chain

`periodState` moves a deployment on at the end of each period. Along one chain the
states only go forward, the activation height is set once, at a multiple of the period,
and the deployment is active from there up to the first period that starts at or after
the end of its duration. `Phase` says where in its life a deployment is in period `k`,
and every one of these follows from it.

The end of the duration is looked for only while the deployment is active already, so an
active deployment is active for a period at least. A duration of no blocks makes the
difference: such a deployment is active for a period all the same.

The mandatory window is the period before the lock-in floor. In it every block signals
while the deployment is started, so the deployment locks in by its signals and the floor
has nothing left to decide.
-/

open Bip110Deployment Option Nat

/-- The order of the states. -/
def ThresholdState.rank : ThresholdState → Nat
  | .defined => 0
  | .started => 1
  | .lockedIn => 2
  | .active => 3
  | .expired => 4

namespace Bip110Deployment

/-- The window of mandatory signaling is the period that ends just before the lock-in
floor, and a period of signals reaches the threshold. -/
structure Aligned (dep : Bip110Deployment) : Prop where
  period_pos : 1 ≤ dep.period
  period_le : dep.period ≤ dep.lockInFloorHeight
  dvd_floor : dep.period ∣ dep.lockInFloorHeight
  window : dep.mandatoryWindow
    = (dep.lockInFloorHeight - dep.period, dep.lockInFloorHeight - 1)
  threshold_le : dep.threshold ≤ dep.period

/-- The first multiple of the period at or above the end of the duration. -/
def expiry (dep : Bip110Deployment) (activation : Nat) : Nat :=
  (activation + dep.activeDuration + dep.period - 1) / dep.period * dep.period

/-- A height is below the expiry if its period starts before the end of the duration. -/
theorem lt_expiry_iff {dep : Bip110Deployment} (hperiod : 1 ≤ dep.period) (activation h : Nat) :
    h < dep.expiry activation
      ↔ h / dep.period * dep.period < activation + dep.activeDuration := by
  unfold expiry
  generalize activation + dep.activeDuration = n
  rw [← div_lt_iff_lt_mul hperiod, ← succ_le_iff, le_div_iff_mul_le hperiod,
    succ_mul]
  omega

/-! ## Where in its life a deployment is -/

/-- **The state in period `k`, and the activation height that goes with it.** -/
def Phase (dep : Bip110Deployment) (k : Nat) : ThresholdState × Option Nat → Prop
  | (.defined, activation) => activation = none
  | (.started, activation) => activation = none
  | (.lockedIn, activation) => activation = some ((k + 1) * dep.period)
  | (.active, activation) => ∃ j ≤ k, activation = some (j * dep.period)
      ∧ k * dep.period < j * dep.period + dep.activeDuration
  | (.expired, activation) => ∃ j ≤ k, activation = some (j * dep.period)
      ∧ j * dep.period + dep.activeDuration ≤ k * dep.period

variable {dep : Bip110Deployment} {k : Nat} {st : ThresholdState × Option Nat}
  {branch : List Header}

theorem Phase.ne_active_of_none (h : dep.Phase k st) (hnone : st.2 = none) : st.1 ≠ .active := by
  obtain ⟨state, activation⟩ := st
  rintro rfl
  obtain ⟨j, -, hj, -⟩ := h
  cases hnone.symm.trans hj

theorem Phase.active_iff (h : dep.Phase k st) (hperiod : 1 ≤ dep.period) {a : Nat}
    (ha : st.2 = some a) :
    st.1 = .active ↔ a ≤ k * dep.period ∧ k * dep.period < a + dep.activeDuration := by
  obtain ⟨state, activation⟩ := st
  obtain rfl : activation = some a := ha
  cases state with
  | defined => cases h
  | started => cases h
  | lockedIn =>
    obtain rfl := Option.some.inj h
    refine iff_of_false (by simp) ?_
    rw [succ_mul]
    omega
  | active =>
    obtain ⟨j, hj, hja, hbefore⟩ := h
    obtain rfl := Option.some.inj hja
    exact iff_of_true rfl ⟨mul_le_mul_right _ hj, hbefore⟩
  | expired =>
    obtain ⟨j, hj, hja, hafter⟩ := h
    obtain rfl := Option.some.inj hja
    exact iff_of_false (by simp) (by omega)

theorem Phase.dvd (h : dep.Phase k st) {a : Nat} (ha : st.2 = some a) : dep.period ∣ a := by
  obtain ⟨state, activation⟩ := st
  obtain rfl : activation = some a := ha
  have hmul : ∀ {j : Nat}, some a = some (j * dep.period) → dep.period ∣ a := fun {j} hj =>
    ⟨j, (Option.some.inj hj).trans (mul_comm _ _)⟩
  cases state with
  | defined => cases h
  | started => cases h
  | lockedIn => exact hmul h
  | active =>
    obtain ⟨j, -, hj, -⟩ := h
    exact hmul hj
  | expired =>
    obtain ⟨j, -, hj, -⟩ := h
    exact hmul hj

theorem phase_nextState (hperiod : 1 ≤ dep.period) (hduration : 1 ≤ dep.activeDuration)
    (h : dep.Phase k st) (hlen : branch.length = (k + 1) * dep.period)
    (hfits : branch.length + dep.period < 2 ^ 32) :
    dep.Phase (k + 1) (dep.nextState st branch) := by
  obtain ⟨state, activation⟩ := st
  cases state with
  | defined =>
    rw [nextState]
    split <;> exact rfl
  | started =>
    rw [nextState]
    split
    · show some _ = some _
      rw [hlen, succ_mul (k + 1)]
    · exact rfl
  | lockedIn =>
    refine ⟨k + 1, le_refl _, h, ?_⟩
    omega
  | active =>
    obtain ⟨j, hj, rfl, hbefore⟩ := h
    simp only [nextState, any_some, decide_eq_true_eq]
    -- Saturation does not show: no height of the branch is the largest there is.
    split
    · exact ⟨j, le_succ_of_le hj, rfl, by omega⟩
    · exact ⟨j, le_succ_of_le hj, rfl, by omega⟩
  | expired =>
    obtain ⟨j, hj, rfl, hafter⟩ := h
    refine ⟨j, le_succ_of_le hj, rfl, hafter.trans ?_⟩
    exact mul_le_mul_right _ (le_succ k)

theorem rank_le_nextState (st : ThresholdState × Option Nat) (branch : List Header) :
    st.1.rank ≤ (dep.nextState st branch).1.rank := by
  obtain ⟨state, activation⟩ := st
  cases state <;> simp only [nextState] <;> (try split) <;> simp [ThresholdState.rank]

/-- An activation height that is known stays. -/
theorem nextState_snd (h : dep.Phase k st) {a : Nat} (ha : st.2 = some a) :
    (dep.nextState st branch).2 = some a := by
  obtain ⟨state, activation⟩ := st
  cases state with
  | defined => cases h.symm.trans ha
  | started => cases h.symm.trans ha
  | lockedIn => exact ha
  | active =>
    rw [nextState]
    split <;> exact ha
  | expired => exact ha

/-- An activation height is set a period ahead. -/
theorem nextState_snd_of_none (h : dep.Phase k st) (hnone : st.2 = none) {a : Nat}
    (ha : (dep.nextState st branch).2 = some a) : a = branch.length + dep.period := by
  obtain ⟨state, activation⟩ := st
  obtain rfl : activation = none := hnone
  cases state with
  | defined =>
    rw [nextState] at ha
    split at ha <;> cases ha
  | started =>
    rw [nextState] at ha
    split at ha
    · exact (Option.some.inj ha).symm
    · cases ha
  | lockedIn => cases h
  | active =>
    obtain ⟨_, _, hsome, _⟩ := h
    cases hsome
  | expired =>
    obtain ⟨_, _, hsome, _⟩ := h
    cases hsome

/-! ## Along a chain -/

variable {chain : List Header}

theorem length_rtake_of_le {n : Nat} (h : n ≤ chain.length) : (chain.rtake n).length = n := by
  rw [List.rtake, List.length_drop]
  omega

section

variable (hperiod : 1 ≤ dep.period) (hduration : 1 ≤ dep.activeDuration)
  (hfits : chain.length + dep.period < 2 ^ 32)

include hperiod hduration hfits

theorem phase_periodState {k : Nat} (hk : k * dep.period ≤ chain.length) :
    dep.Phase k (dep.periodState chain k) := by
  induction k with
  | zero => exact rfl
  | succ k ih =>
    have hlen := length_rtake_of_le hk
    refine phase_nextState hperiod hduration (ih ?_) hlen ?_
    · exact (mul_le_mul_right _ (le_succ k)).trans hk
    · omega

omit hperiod hduration hfits in
variable (dep chain) in
theorem rank_periodState_mono {k k' : Nat} (h : k ≤ k') :
    (dep.periodState chain k).1.rank ≤ (dep.periodState chain k').1.rank := by
  induction h with
  | refl => exact le_refl _
  | step _ ih => exact ih.trans (rank_le_nextState _ _)

theorem periodState_snd_of_le {k k' a : Nat} (h : k ≤ k')
    (hk : k' * dep.period ≤ chain.length) (ha : (dep.periodState chain k).2 = some a) :
    (dep.periodState chain k').2 = some a := by
  induction h with
  | refl => exact ha
  | @step k' _ ih =>
    have hle : k' * dep.period ≤ chain.length :=
      (mul_le_mul_right _ (le_succ k')).trans hk
    exact nextState_snd (phase_periodState hperiod hduration hfits hle) (ih hle)

/-- While no activation height is known, the one to come is more than a period away. -/
theorem lt_activation {k k' a : Nat} (h : k ≤ k')
    (hk : k' * dep.period ≤ chain.length) (hnone : (dep.periodState chain k).2 = none)
    (ha : (dep.periodState chain k').2 = some a) : (k + 1) * dep.period ≤ a := by
  induction h with
  | refl => cases hnone.symm.trans ha
  | @step k' hle ih =>
    have hk' : k' * dep.period ≤ chain.length :=
      (mul_le_mul_right _ (le_succ k')).trans hk
    cases hbefore : (dep.periodState chain k').2 with
    | some b =>
      have hb : (dep.periodState chain (k' + 1)).2 = some b :=
        nextState_snd (phase_periodState hperiod hduration hfits hk') hbefore
      exact ih hk' (hbefore.trans (hb.symm.trans ha))
    | none =>
      have hset := nextState_snd_of_none (phase_periodState hperiod hduration hfits hk') hbefore ha
      rw [length_rtake_of_le hk] at hset
      rw [hset]
      exact (mul_le_mul_right _ (succ_le_succ hle)).trans (le_add_right _ _)

/-- **Active from the activation height to the expiry.** -/
theorem active_iff {k₀ a h : Nat}
    (hk₀ : k₀ * dep.period ≤ chain.length) (ha : (dep.periodState chain k₀).2 = some a)
    (hh : h ≤ chain.length) :
    (dep.periodState chain (h / dep.period)).1 = .active ↔ a ≤ h ∧ h < dep.expiry a := by
  have hk : h / dep.period * dep.period ≤ chain.length := (div_mul_le_self _ _).trans hh
  have hend : h < (h / dep.period + 1) * dep.period :=
    lt_mul_of_div_lt (lt_succ_self _) hperiod
  have hphase := phase_periodState hperiod hduration hfits hk
  cases hsnd : (dep.periodState chain (h / dep.period)).2 with
  | none =>
    refine iff_of_false (hphase.ne_active_of_none hsnd) fun hactive => ?_
    have hle : h / dep.period ≤ k₀ := by
      by_contra hlt
      have := periodState_snd_of_le hperiod hduration hfits (Nat.le_of_not_le hlt) hk ha
      cases hsnd.symm.trans this
    have hbelow := lt_activation hperiod hduration hfits hle hk₀ hsnd ha
    omega
  | some b =>
    -- heights known in two periods are the same
    obtain rfl : a = b := by
      rcases le_total k₀ (h / dep.period) with hle | hle
      · exact mem_unique (periodState_snd_of_le hperiod hduration hfits hle hk ha) hsnd
      · exact mem_unique ha (periodState_snd_of_le hperiod hduration hfits hle hk₀ hsnd)
    rw [hphase.active_iff hperiod hsnd, lt_expiry_iff hperiod]
    -- The activation height opens a period, so a height is past it if its period is.
    obtain ⟨j, rfl⟩ := hphase.dvd hsnd
    rw [Nat.mul_comm dep.period j, Nat.mul_le_mul_right_iff hperiod, Nat.le_div_iff_mul_le hperiod]

end

/-! ## The floor -/

/-- A floor further up makes no difference to a period that has the signals. -/
theorem nextState_floor {floor : Nat} (hle : dep.lockInFloorHeight ≤ floor)
    (hcount : st.1 = .started → dep.lockInFloorHeight ≤ branch.length →
      dep.threshold ≤ (branch.take dep.period).countP fun a => dep.signals a.versionBits) :
    nextState { dep with lockInFloorHeight := floor } st branch = dep.nextState st branch := by
  obtain ⟨state, activation⟩ := st
  cases state with
  | started =>
    refine if_congr ?_ rfl rfl
    refine ⟨fun h => h.imp_right hle.trans, fun h => ?_⟩
    exact h.elim Or.inl fun hfloor => Or.inl (hcount rfl hfloor)
  | _ => rfl

/-- **Where the floor could decide, the signals have decided.** -/
def SignalsDecide (dep : Bip110Deployment) (chain : List Header) : Prop :=
  ∀ k, (k + 1) * dep.period ≤ chain.length → (dep.periodState chain k).1 = .started →
    dep.lockInFloorHeight ≤ (k + 1) * dep.period →
    dep.threshold ≤ ((chain.rtake ((k + 1) * dep.period)).take dep.period).countP
      fun a => dep.signals a.versionBits

theorem periodState_floor {floor : Nat} (hle : dep.lockInFloorHeight ≤ floor)
    (hcount : dep.SignalsDecide chain) {k : Nat} (hk : k * dep.period ≤ chain.length) :
    periodState { dep with lockInFloorHeight := floor } chain k = dep.periodState chain k := by
  induction k with
  | zero => rfl
  | succ k ih =>
    have hlen := length_rtake_of_le hk
    rw [periodState, ih ((mul_le_mul_right _ (le_succ k)).trans hk)]
    refine nextState_floor hle fun hstarted hfloor => ?_
    exact hcount k hk hstarted (hlen ▸ hfloor)

/-- The period before the floor, by its number. -/
theorem Aligned.exists_period (h : dep.Aligned) :
    ∃ w, dep.lockInFloorHeight = (w + 1) * dep.period
      ∧ dep.lockInFloorHeight - dep.period = w * dep.period := by
  obtain ⟨m, hm⟩ := h.dvd_floor
  have hle := h.period_le
  have hpos := h.period_pos
  cases m with
  | zero =>
    omega
  | succ w =>
    rw [Nat.mul_comm] at hm
    exact ⟨w, hm, by rw [hm, Nat.succ_mul, Nat.add_sub_cancel]⟩

/-- Over the period before the floor every block signals, and from the next period on the
deployment is locked in. -/
theorem signalsDecide_of_signals (hthreshold : dep.threshold ≤ dep.period) (hpos : 1 ≤ dep.period)
    {w : Nat} (hw : dep.lockInFloorHeight = (w + 1) * dep.period)
    (hstarted : (dep.periodState chain w).1 = .started)
    (hsignals : (w + 1) * dep.period ≤ chain.length →
      ∀ a ∈ (chain.rtake ((w + 1) * dep.period)).take dep.period,
        dep.signals a.versionBits = true) : dep.SignalsDecide chain := by
  intro k hk hstate hfloor
  rw [hw] at hfloor
  have hwk : w ≤ k := le_of_succ_le_succ (le_of_mul_le_mul_right hfloor hpos)
  have hlen := length_rtake_of_le (hfloor.trans hk)
  rcases eq_or_lt_of_le hwk with rfl | hlt
  · rw [List.countP_eq_length.mpr (hsignals hk), List.length_take, hlen]
    refine Nat.le_min.mpr ⟨hthreshold, hthreshold.trans ?_⟩
    exact Nat.le_mul_of_pos_left _ (Nat.succ_pos w)
  · -- the floor, if nothing else, has locked the deployment in
    have hnext : (dep.periodState chain (w + 1)).1 = .lockedIn := by
      rw [periodState]
      generalize dep.periodState chain w = st at hstarted
      obtain ⟨state, activation⟩ := st
      obtain rfl : state = .started := hstarted
      rw [nextState, if_pos (Or.inr (by rw [hlen, hw]))]
    have hrank := rank_periodState_mono dep chain hlt
    rw [hnext, hstate] at hrank
    exact absurd hrank (by decide)

end Bip110Deployment

/-! ## The chain of an index -/

namespace HeaderIndex

variable [Hashing]

/-- **The deployment as the block at a height sees it**, on the chain that ends in `tip`. -/
def seenAt (ix : HeaderIndex) (dep : Bip110Deployment) (cache : Bip110Cache) (tip : Hash)
    (height : Nat) : Option Bip110Activation :=
  (ix.getAncestor tip height).map fun stored =>
    (activationFor ix dep cache stored.header.prevBlockhash height).1

/-- Every block of the chain passes the check of mandatory signaling. -/
def ObeysSignaling (ix : HeaderIndex) (dep : Bip110Deployment) (caches : Nat → Bip110Cache)
    (tip : Hash) : Prop :=
  ∀ height stored, ix.getAncestor tip height = some stored →
    (activationFor ix dep (caches height) stored.header.prevBlockhash
      height).1.violatesMandatorySignaling dep height stored.header.versionBits = false

/-- **The life of a deployment along a chain.** The states go forward; the activation
height, once known, stays and opens a period; the deployment is active from there to the
expiry and at no other height; and if it is started at the first height of the mandatory
window, then the signals of the window lock it in, and no floor further up would change
what any block sees. -/
structure Lifecycle (ix : HeaderIndex) (dep : Bip110Deployment) (caches : Nat → Bip110Cache)
    (tip : Hash) : Prop where
  forward : ∀ h h' a a', h ≤ h' → ix.seenAt dep (caches h) tip h = some a →
    ix.seenAt dep (caches h') tip h' = some a' → a.state.rank ≤ a'.state.rank
  fixed : ∀ h h' a a' k, h ≤ h' → ix.seenAt dep (caches h) tip h = some a →
    ix.seenAt dep (caches h') tip h' = some a' → a.activationHeight = some k →
    a'.activationHeight = some k
  multiple : ∀ h a k, ix.seenAt dep (caches h) tip h = some a → a.activationHeight = some k →
    dep.period ∣ k
  known : ∀ h a, ix.seenAt dep (caches h) tip h = some a → a.state = .active →
    ∃ k, a.activationHeight = some k
  active : ∀ h h' a a' k, ix.seenAt dep (caches h) tip h = some a →
    ix.seenAt dep (caches h') tip h' = some a' → a.activationHeight = some k →
    (a'.state = .active ↔ k ≤ h' ∧ h' < dep.expiry k)
  counted : ∀ a boundary, ix.seenAt dep (caches dep.mandatoryWindow.1) tip
      dep.mandatoryWindow.1 = some a → a.state = .started →
    ix.getAncestor tip dep.mandatoryWindow.2 = some boundary →
    dep.threshold ≤ countSignals ix dep (boundary.height + 1 - dep.period) boundary.height boundary
  floorless : ∀ a, ix.seenAt dep (caches dep.mandatoryWindow.1) tip
      dep.mandatoryWindow.1 = some a → a.state = .started →
    ∀ floor ≥ dep.lockInFloorHeight, ∀ h,
      ix.seenAt { dep with lockInFloorHeight := floor } (fun _ => none) tip h
        = ix.seenAt dep (caches h) tip h

variable {ix : HeaderIndex} {dep : Bip110Deployment} {tip : Hash} {chain : List Header}

theorem lt_length_of_getAncestor (hbranch : IsBranch ix.headers tip chain) {h : Nat}
    {stored : StoredHeader} (hs : ix.getAncestor tip h = some stored) : h < chain.length := by
  unfold getAncestor getHeader at hs
  cases chain with
  | nil =>
    rw [show ix.headers tip = none from hbranch] at hs
    cases hs
  | cons a below =>
    obtain ⟨-, ⟨work, hm⟩, -⟩ := hbranch
    rw [hm] at hs
    by_contra hle
    rw [List.length_cons] at hle
    exact absurd hs (by simp [show below.length < h by omega])

section

variable {cache : Bip110Cache} (hperiod : 1 ≤ dep.period) (hbranch : IsBranch ix.headers tip chain)
  (htimed : TimedBranch chain) (hc : cache.Truthful dep ix.headers)
include hperiod hbranch htimed hc

/-- **The block at a height of the chain sees the state of its period.** -/
theorem seenAt_eq {h : Nat} (hh : h < chain.length) :
    ix.seenAt dep cache tip h = some ⟨(dep.periodState chain (h / dep.period)).1,
      (dep.periodState chain (h / dep.period)).2⟩ := by
  obtain ⟨a, below, work, hrtake, rfl, hbelow, hancestor⟩ := hbranch.getAncestor_eq hh
  have hsuffix : below = chain.rtake below.length := by
    have hdrop := List.rtake_rtake chain (Nat.le_succ below.length)
    rw [hrtake, List.rtake, List.length_cons, Nat.add_sub_cancel_left] at hdrop
    exact hdrop
  have htimed' : TimedBranch below := by
    rw [hsuffix]
    exact htimed.drop _
  have hstate := dep.periodState_rtake chain (div_mul_le_self below.length dep.period)
  rw [← hsuffix] at hstate
  rw [seenAt, hancestor, map_some,
    (activationFor_eq hperiod hc hbelow.2.2).1 htimed', activationOver, hstate]

/-- What a block has seen is the state of its period. -/
theorem eq_of_seenAt {h : Nat} {a : Bip110Activation} (ha : ix.seenAt dep cache tip h = some a) :
    h < chain.length ∧ a.state = (dep.periodState chain (h / dep.period)).1
      ∧ a.activationHeight = (dep.periodState chain (h / dep.period)).2 := by
  obtain ⟨stored, hstored, -⟩ := map_eq_some_iff.mp ha
  have hlt := lt_length_of_getAncestor hbranch hstored
  rw [seenAt_eq hperiod hbranch htimed hc hlt, Option.some.injEq] at ha
  subst ha
  exact ⟨hlt, rfl, rfl⟩

end

section

variable {caches : Nat → Bip110Cache} (hdep : dep.Aligned)
  (hbranch : IsBranch ix.headers tip chain) (htimed : TimedBranch chain)
  (hc : ∀ h, (caches h).Truthful dep ix.headers) (hobeys : ix.ObeysSignaling dep caches tip)
include hdep hbranch htimed hc hobeys

/-- **In the mandatory window of a started deployment every block signals.** -/
theorem signals_of_obeys {w : Nat} (hw : dep.lockInFloorHeight = (w + 1) * dep.period)
    (hstarted : (dep.periodState chain w).1 = .started)
    (hlen : (w + 1) * dep.period ≤ chain.length) :
    ∀ a ∈ (chain.rtake ((w + 1) * dep.period)).take dep.period,
      dep.signals a.versionBits = true := by
  intro a ha
  obtain ⟨i, hi, rfl⟩ := List.mem_take_iff_getElem.mp ha
  rw [length_rtake_of_le hlen, Nat.lt_min] at hi
  -- The `i`-th header from the end of the period is at height `h`.
  obtain ⟨h, hh⟩ : ∃ h, h + 1 = (w + 1) * dep.period - i :=
    ⟨(w + 1) * dep.period - i - 1, by omega⟩
  have hwp : (w + 1) * dep.period = w * dep.period + dep.period := succ_mul w dep.period
  have hlt : h < chain.length := by omega
  obtain ⟨b, below, work, hrtake, -, -, hancestor⟩ := hbranch.getAncestor_eq hlt
  have hhead : (chain.rtake ((w + 1) * dep.period)).drop i = b :: below := by
    rw [← hrtake, List.rtake, List.drop_drop]
    congr 1
    omega
  rw [List.drop_eq_getElem_cons
    (by rw [length_rtake_of_le hlen]; exact hi.2), List.cons.injEq] at hhead
  rw [hhead.1]
  have hobey := hobeys h _ hancestor
  have hseen := seenAt_eq hdep.period_pos hbranch htimed (hc h) hlt
  have hperiod : h / dep.period = w := Nat.div_eq_of_lt_le (by omega) (by omega)
  rw [seenAt, hancestor, map_some, Option.some.injEq, hperiod] at hseen
  rw [hseen, Bip110Activation.violatesMandatorySignaling, hstarted, hdep.window, hw] at hobey
  simpa [show (w + 1) * dep.period - dep.period ≤ h by omega,
    show h ≤ (w + 1) * dep.period - 1 by omega] using hobey

/-- The signals decide if the deployment is started when the mandatory window opens. -/
theorem signalsDecide_of_started {a : Bip110Activation}
    (ha : ix.seenAt dep (caches dep.mandatoryWindow.1) tip dep.mandatoryWindow.1 = some a)
    (hstarted : a.state = .started) : dep.SignalsDecide chain := by
  obtain ⟨w, hw, hfirst⟩ := hdep.exists_period
  have hseen := eq_of_seenAt hdep.period_pos hbranch htimed (hc _) ha
  rw [hdep.window, hfirst, Nat.mul_div_cancel _ hdep.period_pos] at hseen
  have hopened : (dep.periodState chain w).1 = .started := hseen.2.1.symm.trans hstarted
  exact signalsDecide_of_signals hdep.threshold_le hdep.period_pos hw hopened
    (signals_of_obeys hdep hbranch htimed hc hobeys hw hopened)

end

/-- **A deployment with a duration lives as it is meant to.** -/
theorem lifecycle_of_duration (hdep : dep.Aligned) (hduration : 1 ≤ dep.activeDuration)
    (hbranch : IsBranch ix.headers tip chain) (htimed : TimedBranch chain)
    (hfits : chain.length + dep.period < 2 ^ 32) (caches : Nat → Bip110Cache)
    (hc : ∀ h, (caches h).Truthful dep ix.headers) (hobeys : ix.ObeysSignaling dep caches tip) :
    ix.Lifecycle dep caches tip := by
  have hperiod := hdep.period_pos
  have hseen : ∀ {h a}, ix.seenAt dep (caches h) tip h = some a → h < chain.length
      ∧ a.state = (dep.periodState chain (h / dep.period)).1
      ∧ a.activationHeight = (dep.periodState chain (h / dep.period)).2 :=
    fun {h _} ha => eq_of_seenAt hperiod hbranch htimed (hc h) ha
  have hstart : ∀ {h}, h < chain.length → h / dep.period * dep.period ≤ chain.length :=
    fun {h} hh => (div_mul_le_self h dep.period).trans hh.le
  refine ⟨?_, ?_, ?_, ?_, ?_, ?_, ?_⟩
  · intro h h' a a' hle ha ha'
    rw [(hseen ha).2.1, (hseen ha').2.1]
    exact rank_periodState_mono dep chain (Nat.div_le_div_right hle)
  · intro h h' a a' k hle ha ha' hk
    rw [(hseen ha).2.2] at hk
    rw [(hseen ha').2.2]
    exact periodState_snd_of_le hperiod hduration hfits (Nat.div_le_div_right hle)
      (hstart (hseen ha').1) hk
  · intro h a k ha hk
    rw [(hseen ha).2.2] at hk
    exact (phase_periodState hperiod hduration hfits (hstart (hseen ha).1)).dvd hk
  · intro h a ha hactive
    rw [(hseen ha).2.1] at hactive
    rw [(hseen ha).2.2, ← ne_none_iff_exists']
    intro hnone
    exact (phase_periodState hperiod hduration hfits
      (hstart (hseen ha).1)).ne_active_of_none hnone hactive
  · intro h h' a a' k ha ha' hk
    rw [(hseen ha).2.2] at hk
    rw [(hseen ha').2.1]
    exact active_iff hperiod hduration hfits (hstart (hseen ha).1) hk
      (hseen ha').1.le
  · intro a boundary ha hstarted hboundary
    obtain ⟨w, hw, hfirst⟩ := hdep.exists_period
    have hpos : 0 < (w + 1) * dep.period := mul_pos (succ_pos w) hperiod
    have hopened := (hseen ha).2.1
    rw [hdep.window, hfirst, Nat.mul_div_cancel _ hperiod, hstarted] at hopened
    rw [hdep.window, hw] at hboundary
    have hlt := lt_length_of_getAncestor hbranch hboundary
    obtain ⟨b, below, work, hrtake, hbelow, hb, hancestor⟩ := hbranch.getAncestor_eq hlt
    rw [hancestor, Option.some.injEq, ← hbelow] at hboundary
    subst hboundary
    have hperiodle : dep.period ≤ below.length + 1 := by
      rw [hbelow, Nat.sub_add_cancel hpos]
      exact Nat.le_mul_of_pos_left _ (Nat.succ_pos w)
    have hcount := signalsDecide_of_started hdep hbranch htimed hc hobeys ha hstarted w (by omega)
      hopened.symm hw.le
    rw [hb.countSignals_eq dep work (show below.length + 1 - dep.period ≤ below.length by omega)
      (Nat.le_refl _), Nat.sub_sub_self hperiodle, ← hrtake, Nat.sub_add_cancel hpos]
    exact hcount
  · intro a ha hstarted floor hfloor h
    have hcount := signalsDecide_of_started hdep hbranch htimed hc hobeys ha hstarted
    by_cases hlt : h < chain.length
    · have hempty : Bip110Cache.Truthful (fun _ => none) { dep with lockInFloorHeight := floor }
          ix.headers := fun _ _ hst => by cases hst
      have hfloorless := seenAt_eq (show 1 ≤ ({ dep with
        lockInFloorHeight := floor } : Bip110Deployment).period from hperiod) hbranch htimed
        hempty hlt
      rw [hfloorless, seenAt_eq hperiod hbranch htimed (hc h) hlt,
        periodState_floor hfloor hcount (hstart hlt)]
    · have hnone : ix.getAncestor tip h = none := by
        cases hstored : ix.getAncestor tip h with
        | none => rfl
        | some stored => exact absurd (lt_length_of_getAncestor hbranch hstored) hlt
      rw [seenAt, seenAt, hnone, map_none, map_none]

end HeaderIndex

/-- **What is said of every deployment**, with or without a duration. -/
def DeploymentsLive : Prop :=
  ∀ [Hashing] (dep : Bip110Deployment) (ix : HeaderIndex) (tip : Hash) (chain : List Header)
    (caches : Nat → Bip110Cache), dep.Aligned → IsBranch ix.headers tip chain →
    TimedBranch chain → chain.length + dep.period < 2 ^ 32 →
    (∀ h, (caches h).Truthful dep ix.headers) → ix.ObeysSignaling dep caches tip →
    ix.Lifecycle dep caches tip

section Sample

attribute [local instance] sampleHashing

/-- Periods of one block, started at once and locked in without a signal. -/
def briefDeployment (duration : Nat) : Bip110Deployment := ⟨1, 4, 0, 0, 9, (8, 8), duration⟩

theorem aligned_briefDeployment (duration : Nat) : (briefDeployment duration).Aligned :=
  ⟨le_refl 1, show 1 ≤ 9 by decide, one_dvd 9, rfl, zero_le 1⟩

theorem isBranch_fourInARow : IsBranch (sampleIndex fourInARow).headers 4#256
    ((sampleIndex fourInARow).branch 4#256) :=
  (ancestorClosed_sampleIndex (by decide) (by decide)).isBranch _

theorem timedBranch_fourInARow : TimedBranch ((sampleIndex fourInARow).branch 4#256) :=
  isBranch_fourInARow.timed (timed_sampleIndex (by decide))

/-- Four blocks do not reach the window. -/
theorem obeysSignaling_fourInARow (duration : Nat) (caches : Nat → Bip110Cache) :
    (sampleIndex fourInARow).ObeysSignaling (briefDeployment duration) caches 4#256 := by
  intro height stored hstored
  have hlt := HeaderIndex.lt_length_of_getAncestor isBranch_fourInARow hstored
  have hlen : ((sampleIndex fourInARow).branch 4#256).length = 4 := by decide
  have hbelow : ¬ 8 ≤ height := by omega
  simp [Bip110Activation.violatesMandatorySignaling, briefDeployment, hbelow]

/-- **A deployment of no duration is active for a period.** -/
theorem not_deploymentsLive : ¬ DeploymentsLive := by
  intro h
  have hlife := h (briefDeployment 0) (sampleIndex fourInARow) 4#256 _ (fun _ _ => none)
    (aligned_briefDeployment 0) isBranch_fourInARow timedBranch_fourInARow (by decide)
    (fun _ _ _ hst => by cases hst) (obeysSignaling_fourInARow 0 _)
  have hseen : (sampleIndex fourInARow).seenAt (briefDeployment 0) (fun _ => none) 4#256 3
      = some ⟨.active, some 3⟩ := by decide
  have hexpiry := ((hlife.active 3 3 _ _ 3 hseen hseen rfl).mp rfl).2
  exact absurd hexpiry (by decide)

/-- A deployment of one block is active for one block. -/
theorem lifecycle_fourInARow :
    (sampleIndex fourInARow).Lifecycle (briefDeployment 1) (fun _ _ => none) 4#256 :=
  HeaderIndex.lifecycle_of_duration (aligned_briefDeployment 1) (le_refl 1) isBranch_fourInARow
    timedBranch_fourInARow (by decide) _ (fun _ _ _ hst => by cases hst)
    (obeysSignaling_fourInARow 1 _)

end Sample
