import BitcoinPR.Core.Validation

/-!
# BIP-110 activation

The deployment's state for a block is computed from its ancestors: the
boundary block that ends each signaling period moves the state on. The walk
back over the boundaries stops at one whose median time is before the start
time or whose state is remembered; the states computed on the way forward are
remembered under the boundary's hash.
-/

/-- The threshold states of a deployment. -/
inductive ThresholdState where
  | defined
  | started
  | lockedIn
  | active
  | expired
deriving DecidableEq, Repr

/-- The deployment as a block sees it. -/
structure Bip110Activation where
  state : ThresholdState
  activationHeight : Option Nat
deriving DecidableEq, Repr

namespace Bip110Activation

def inactive : Bip110Activation := ⟨.defined, none⟩

/-- The test override: active from a height on, for good. -/
def fixed (activationHeight blockHeight : Nat) : Bip110Activation :=
  ⟨if activationHeight ≤ blockHeight then .active else .started, some activationHeight⟩

def enforcing (a : Bip110Activation) : Bool := a.state == .active

/-- While started, a block in the mandatory window must signal. -/
def violatesMandatorySignaling (a : Bip110Activation) (dep : Bip110Deployment)
    (height : Nat) (version : UInt32) : Bool :=
  a.state == .started && decide (dep.mandatoryWindow.1 ≤ height)
    && decide (height ≤ dep.mandatoryWindow.2) && !dep.signals version

end Bip110Activation

/-- The version of a header as unsigned bits. -/
def Header.versionBits (h : Header) : UInt32 := h.version.toUInt32

/-- States remembered by boundary hash. -/
abbrev Bip110Cache := Hash → Option (ThresholdState × Option Nat)

variable [Hashing] (ix : HeaderIndex) (dep : Bip110Deployment)

/-- Signaling blocks from `cur` down to the block at `periodStart`. -/
def countSignals (periodStart : Nat) : Nat → StoredHeader → Nat
  | fuel, cur =>
    let here := if dep.signals cur.header.versionBits then 1 else 0
    match fuel with
    | 0 => here
    | fuel + 1 =>
      if cur.height ≤ periodStart then here
      else match ix.getHeader cur.header.prevBlockhash with
        | some p => if p.height < cur.height then here + countSignals periodStart fuel p else here
        | none => here

/-- The state of the period after the boundary `b`, from the state of the
period `b` ends. -/
def bip110Transition (state : ThresholdState) (activation : Option Nat) (b : StoredHeader) :
    ThresholdState × Option Nat :=
  let nextPeriodStart := b.height + 1
  match state with
  | .defined =>
    if dep.startTime ≤ (getMedianTimePast ix b.header.blockHash).getD 0 then (.started, none)
    else (.defined, none)
  | .started =>
    let signals := countSignals ix dep (b.height + 1 - dep.period) b.height b
    if dep.threshold ≤ signals ∨ dep.lockInFloorHeight ≤ nextPeriodStart then
      (.lockedIn, some (nextPeriodStart + dep.period))
    else (.started, none)
  | .lockedIn => (.active, activation)
  | .active =>
    match activation with
    | some a =>
      if min (a + dep.activeDuration) (2 ^ 32 - 1) ≤ nextPeriodStart then (.expired, activation)
      else (.active, activation)
    | none => (.active, activation)
  | .expired => (.expired, activation)

/-- Walk back over the boundaries to a known state. The boundaries to be
computed come back last pushed first. -/
def boundariesToCompute (cache : Bip110Cache) :
    Nat → StoredHeader → List StoredHeader → List StoredHeader × (ThresholdState × Option Nat)
  | 0, _, stack => (stack, (.defined, none))
  | fuel + 1, cur, stack =>
    match cache cur.header.blockHash with
    | some known => (stack, known)
    | none =>
      if (getMedianTimePast ix cur.header.blockHash).getD 0 < dep.startTime then
        (stack, (.defined, none))
      else if cur.height < dep.period then (cur :: stack, (.defined, none))
      else
        match ix.getAncestor cur.header.prevBlockhash (cur.height - dep.period) with
        | some pb => boundariesToCompute cache fuel pb (cur :: stack)
        | none => (cur :: stack, (.defined, none))

/-- Compute the boundaries one after the other, remembering each. -/
def computeBoundaries : List StoredHeader → ThresholdState × Option Nat → Bip110Cache →
    (ThresholdState × Option Nat) × Bip110Cache
  | [], st, cache => (st, cache)
  | b :: rest, st, cache =>
    let next := bip110Transition ix dep st.1 st.2 b
    computeBoundaries rest next (Function.update cache b.header.blockHash (some next))

/-- The state of the period after a boundary. -/
def stateAtBoundary (cache : Bip110Cache) (boundary : StoredHeader) :
    (ThresholdState × Option Nat) × Bip110Cache :=
  let (stack, base) := boundariesToCompute ix dep cache (boundary.height + 1) boundary []
  computeBoundaries ix dep stack base cache

/-- The deployment for the block at `height` whose parent is `prevHash`. -/
def activationFor (cache : Bip110Cache) (prevHash : Hash) (height : Nat) :
    Bip110Activation × Bip110Cache :=
  let periodIndex := height / dep.period
  if periodIndex = 0 then (.inactive, cache)
  else if (getMedianTimePast ix prevHash).any fun mtp => mtp < dep.startTime then
    (.inactive, cache)
  else
    match ix.getAncestor prevHash (periodIndex * dep.period - 1) with
    | none => (.inactive, cache)
    | some boundary =>
      let (st, cache) := stateAtBoundary ix dep cache boundary
      (⟨st.1, st.2⟩, cache)

/-- The deployment for a block: the fixed height wins, then the signaling
state machine, then nothing. -/
def activationAt (params : ConsensusParams) (checker : Option Bip110Deployment)
    (cache : Bip110Cache) (prevHash : Hash) (height : Nat) : Bip110Activation × Bip110Cache :=
  match params.bip110ActivationHeight with
  | some activation => (.fixed activation height, cache)
  | none =>
    match checker with
    | some dep => activationFor ix dep cache prevHash height
    | none => (.inactive, cache)
