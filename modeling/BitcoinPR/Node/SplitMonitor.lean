import BitcoinPR.P2P.Linked
import Mathlib.Tactic.IntervalCases

/-!
# The chain-split monitor

Branches that contain an invalid block are never adopted, but their headers keep
arriving. The monitor tracks the tips of such branches and reports the heaviest of them,
with the block where it parts from our chain: what an operator decides by when the other
side is winning.

Three things are to hold of the picture: the fork point is the highest common ancestor
of the two tips, the rival is the heaviest tracked tip off our chain, and the tracked
tips are tips – none is an ancestor of another. The walk to the fork point sees to the
first, when it is made. But its result is remembered per rival tip, through every move
of our own tip; and a block that is marked invalid becomes a tip of its own unless it is
one already, whatever descends from it. `MonitorWorld.Keeps` says when neither happens.
-/

open List HeaderIndex Relation.ReflTransGen

open Branches (Ancestor ForkPoint Graded Indexes up)

/-! ## The code -/

/-- A chain tip, ours or a rival's. -/
structure TipInfo where
  hash : Hash
  height : Nat
  work : Bytes
deriving DecidableEq, Repr

/-- The signals of the period a branch is in. -/
structure SignalStats where
  periodStart : Nat
  signals : Nat
  period : Nat
  threshold : Nat
deriving DecidableEq, Repr

/-- **The picture of a split.** -/
structure SplitSnapshot where
  forkHeight : Nat
  forkHash : Hash
  ours : TipInfo
  rival : TipInfo
  blockDeficit : Int
  workDeficit : Bytes
  rivalFirstInvalid : Option (Hash × Nat)
  rivalSignaling : Option SignalStats
  capitulationArmed : Bool
  thresholdBlocks : Nat
deriving DecidableEq, Repr

/-- The monitor. The map of rival tips is the list of its values, which carry their
keys. -/
structure SplitMonitor where
  rivalTips : List TipInfo
  forkCache : Hash → Option (Nat × Hash)
  ourTip : Option TipInfo
  bip110Deployment : Option Bip110Deployment

/-- The lead, in blocks and in work, from which giving up is offered. -/
def capitulationThresholdBlocks : Nat := 6

/-- The bound of the walk to a fork point. -/
def forkWalkMax : Nat := 100000

/-- The difference of two works, zero if it would be negative. -/
def subWork (a b : Bytes) : Bytes :=
  let (result, borrow) := subBorrow a b
  if borrow ≠ 0 then zeroWork else result

namespace SplitMonitor

/-- A monitor that tracks nothing. -/
def new (bip110Deployment : Option Bip110Deployment) : SplitMonitor :=
  ⟨[], fun _ => none, none, bip110Deployment⟩

/-- Track a tip, in place of what is tracked under its hash. -/
def insertTip (m : SplitMonitor) (tip : TipInfo) : SplitMonitor :=
  { m with rivalTips := tip :: m.rivalTips.filter fun t => t.hash ≠ tip.hash }

/-- Stop tracking a tip. -/
def removeTip (m : SplitMonitor) (hash : Hash) : SplitMonitor :=
  { m with rivalTips := m.rivalTips.filter fun t => t.hash ≠ hash }

/-- Carry a remembered fork point over to another tip. -/
def carryFork (m : SplitMonitor) (prev hash : Hash) : SplitMonitor :=
  match m.forkCache prev with
  | some fork =>
    { m with
      forkCache := Function.update (Function.update m.forkCache prev none) hash (some fork) }
  | none => m

/-- A tainted branch has grown to `tip`, from `extendedFrom`. -/
def onTaintedTip (m : SplitMonitor) (tip : TipInfo) (extendedFrom : Option Hash) : SplitMonitor :=
  match extendedFrom with
  | some prev => ((m.carryFork prev tip.hash).removeTip prev).insertTip tip
  | none => m.insertTip tip

/-- The work the index has for a block. -/
def workOf (ix : HeaderIndex) (hash : Hash) : Bytes :=
  ((ix.getHeader hash).map StoredHeader.chainWork).getD zeroWork

/-- A block has been marked invalid. It is tracked as a tip, unless it is one already. -/
def onInvalidMarked (m : SplitMonitor) (ix : HeaderIndex) (hash : Hash) (height : Nat) :
    SplitMonitor :=
  if m.rivalTips.any fun t => t.hash == hash then m
  else m.insertTip ⟨hash, height, workOf ix hash⟩

/-- Our validated tip has moved. -/
def setOurTip (m : SplitMonitor) (ix : HeaderIndex) (hash : Hash) (height : Nat) : SplitMonitor :=
  { m with ourTip := some ⟨hash, height, workOf ix hash⟩ }

/-- Our tip: what has been set, and before that the recorded best tip. -/
def getOurTip (m : SplitMonitor) (ix : HeaderIndex) : Option TipInfo :=
  match m.ourTip with
  | some tip => some tip
  | none => do
    let (hash, _) ← ix.bestTip
    let stored ← ix.getHeader hash
    return ⟨hash, stored.height, stored.chainWork⟩

/-- Walk down a branch to the first block that the height index names, at or below the
height that is trusted. -/
def forkWalk (ix : HeaderIndex) (trustHeight : Nat) : Nat → Hash → Option (Nat × Hash)
  | 0, _ => none
  | fuel + 1, hash =>
    match ix.getHeader hash with
    | none => none
    | some stored =>
      if stored.height ≤ trustHeight ∧ ix.getHashAtHeight stored.height = some hash then
        some (stored.height, hash)
      else if stored.height = 0 then none
      else forkWalk ix trustHeight fuel stored.header.prevBlockhash

def findForkPoint (ix : HeaderIndex) (tip : TipInfo) (trustHeight : Nat) : Option (Nat × Hash) :=
  forkWalk ix trustHeight forkWalkMax tip.hash

/-- What the loop over the tips has found. -/
structure Scan where
  stale : List Hash
  best : Option (TipInfo × (Nat × Hash))
  forkCache : Hash → Option (Nat × Hash)

/-- One tip: dropped if it is on our chain or its fork point is not found, and the best
so far if it is heavier than what was. -/
def scanTip (ix : HeaderIndex) (ours : TipInfo) (scan : Scan) (tip : TipInfo) : Scan :=
  if tip.height ≤ ours.height ∧ ix.getHashAtHeight tip.height = some tip.hash then
    { scan with stale := tip.hash :: scan.stale }
  else
    match (scan.forkCache tip.hash).or (findForkPoint ix tip ours.height) with
    | none => { scan with stale := tip.hash :: scan.stale }
    | some fork =>
      let scan := { scan with forkCache := Function.update scan.forkCache tip.hash (some fork) }
      match scan.best with
      | some (best, _) =>
        if best.work < tip.work then { scan with best := some (tip, fork) } else scan
      | none => { scan with best := some (tip, fork) }

/-- Stop tracking what the loop has dropped. -/
def dropStale (m : SplitMonitor) (scan : Scan) : SplitMonitor :=
  { m with
    rivalTips := m.rivalTips.filter fun t => t.hash ∉ scan.stale
    forkCache := fun hash => if hash ∈ scan.stale then none else scan.forkCache hash }

/-- Count the signals of a branch down to the start of its period. The heights fall along
a branch, so that the height of the tip is fuel enough; a missing header ends the count
without a result. -/
def signalWalk (ix : HeaderIndex) (dep : Bip110Deployment) (periodStart : Nat) :
    Nat → Hash → Nat → Option Nat
  | fuel, hash, signals =>
    match ix.getHeader hash with
    | none => none
    | some stored =>
      if stored.height < periodStart then some signals
      else
        let signals := if dep.signals stored.header.versionBits then signals + 1 else signals
        match fuel with
        | 0 => some signals
        | fuel + 1 =>
          if stored.height = 0 then some signals
          else signalWalk ix dep periodStart fuel stored.header.prevBlockhash signals

def signalStats (m : SplitMonitor) (ix : HeaderIndex) (rival : TipInfo) : Option SignalStats := do
  let dep ← m.bip110Deployment
  let period := max dep.period 1
  let periodStart := rival.height - rival.height % period
  let signals ← signalWalk ix dep periodStart rival.height rival.hash 0
  return ⟨periodStart, signals, period, dep.threshold⟩

/-- The work of as many blocks as the lead is to have, each like the rival's tip. -/
def workThreshold (ix : HeaderIndex) (rival : TipInfo) : Bytes :=
  let blockWork := ((ix.getHeader rival.hash).map fun s => calculateWork s.header.target).getD
    zeroWork
  (List.range capitulationThresholdBlocks).foldl (fun work _ => addChainWork work blockWork)
    zeroWork

/-- The picture of a rival with its fork point. -/
def picture (m : SplitMonitor) (ix : HeaderIndex) (ours rival : TipInfo) (fork : Nat × Hash) :
    SplitSnapshot :=
  let blockDeficit : Int := rival.height - ours.height
  let workDeficit := subWork rival.work ours.work
  { forkHeight := fork.1
    forkHash := fork.2
    ours := ours
    rival := rival
    blockDeficit := blockDeficit
    workDeficit := workDeficit
    rivalFirstInvalid := ix.firstInvalidAncestor rival.hash fork.1 forkWalkMax
    rivalSignaling := m.signalStats ix rival
    capitulationArmed := decide ((capitulationThresholdBlocks : Int) ≤ blockDeficit)
      && !decide (workDeficit < workThreshold ix rival)
    thresholdBlocks := capitulationThresholdBlocks }

/-- The heaviest rival, against our tip. The order in which the tips are visited is that
of the map. -/
def snapshotAgainst (m : SplitMonitor) (ix : HeaderIndex) (ρ : IterOrder TipInfo)
    (ours : TipInfo) : Option SplitSnapshot × SplitMonitor :=
  let scan := (ρ.order m.rivalTips).foldl (scanTip ix ours) ⟨[], none, m.forkCache⟩
  let m' := m.dropStale scan
  (scan.best.map fun best => m'.picture ix ours best.1 best.2, m')

def snapshot (m : SplitMonitor) (ix : HeaderIndex) (ρ : IterOrder TipInfo) :
    Option SplitSnapshot × SplitMonitor :=
  match m.getOurTip ix with
  | some ours => m.snapshotAgainst ix ρ ours
  | none => (none, m)

end SplitMonitor

/-! ## Runs -/

/-- The monitor and the header index it reads. -/
structure MonitorWorld where
  index : HeaderIndex
  monitor : SplitMonitor

/-- What happens to the monitor. When our tip moves, the height index moves with it. -/
inductive MonitorEvent where
  | taintedTip (tip : TipInfo) (extendedFrom : Option Hash)
  | invalidMarked (hash : Hash) (height : Nat)
  | ourTip (hash : Hash) (height : Nat) (heightIndex : Nat → Option Hash)
  | snapshot (ρ : IterOrder TipInfo)

namespace MonitorWorld

def step (w : MonitorWorld) : MonitorEvent → MonitorWorld
  | .taintedTip tip extendedFrom => { w with monitor := w.monitor.onTaintedTip tip extendedFrom }
  | .invalidMarked hash height =>
    { w with monitor := w.monitor.onInvalidMarked w.index hash height }
  | .ourTip hash height heightIndex =>
    ⟨{ w.index with heightIndex }, w.monitor.setOurTip w.index hash height⟩
  | .snapshot ρ => { w with monitor := (w.monitor.snapshot w.index ρ).2 }

def run (w : MonitorWorld) (events : List MonitorEvent) : MonitorWorld := events.foldl step w

/-- Our tip, as the monitor takes it. -/
def ours (w : MonitorWorld) : Option TipInfo := w.monitor.getOurTip w.index

/-- `b` is `a` or an ancestor of it. -/
def Below (w : MonitorWorld) (a b : Hash) : Prop :=
  Ancestor StoredHeader.parent w.index.headers a b

/-- A tip with the height and the work the index has for it. -/
def Describes (w : MonitorWorld) (tip : TipInfo) : Prop :=
  ∃ stored, w.index.headers tip.hash = some stored ∧ stored.height = tip.height
    ∧ stored.chainWork = tip.work

/-- The height index names the chain of our tip. -/
def Follows (w : MonitorWorld) : Prop :=
  ∀ ours, w.ours = some ours → w.Describes ours
    ∧ Indexes StoredHeader.parent w.index.headers w.index.heightIndex ours.hash ours.height

/-- The events there are: tips are of stored headers, and the height index follows our
tip. -/
def Possible (w : MonitorWorld) : MonitorEvent → Prop
  | .taintedTip tip _ => w.Describes tip
  | .invalidMarked hash height => ∃ stored, w.index.headers hash = some stored
      ∧ stored.height = height
  | .ourTip hash height heightIndex => (∃ stored, w.index.headers hash = some stored
      ∧ stored.height = height)
      ∧ Indexes StoredHeader.parent w.index.headers heightIndex hash height
  | .snapshot _ => True

def AllPossible (w : MonitorWorld) : List MonitorEvent → Prop
  | [] => True
  | e :: events => w.Possible e ∧ AllPossible (w.step e) events

/-- Where a run starts: a tree of headers, nothing tracked. -/
structure Starts (genesis : Hash) (w : MonitorWorld) : Prop where
  linked : Linked genesis w.index.headers
  follows : w.Follows
  monitor : ∃ deployment, w.monitor = SplitMonitor.new deployment

/-- **No tracked tip is an ancestor of another.** -/
def TipsApart (w : MonitorWorld) : Prop :=
  ∀ t ∈ w.monitor.rivalTips, ∀ t' ∈ w.monitor.rivalTips, t.hash ≠ t'.hash →
    ¬ w.Below t.hash t'.hash

/-- A height and a hash that are those of the highest common ancestor. -/
def IsFork (w : MonitorWorld) (ours hash : Hash) (fork : Nat × Hash) : Prop :=
  ForkPoint StoredHeader.parent StoredHeader.height w.index.headers ours hash fork.2
    ∧ ∃ stored, w.index.headers fork.2 = some stored ∧ stored.height = fork.1

/-- **A picture that is right**: the fork point is the highest common ancestor of the two
tips, and the rival is the heaviest tracked tip off our chain. -/
structure PictureRight (w : MonitorWorld) (ours : TipInfo) (snap : SplitSnapshot) : Prop where
  against : snap.ours = ours
  fork : w.IsFork ours.hash snap.rival.hash (snap.forkHeight, snap.forkHash)
  tracked : snap.rival ∈ w.monitor.rivalTips
  off : ¬ w.Below ours.hash snap.rival.hash
  heaviest : ∀ t ∈ w.monitor.rivalTips, ¬ w.Below ours.hash t.hash → ¬ snap.rival.work < t.work

/-- The picture a snapshot reports, and that it reports one when there is a rival. -/
structure SnapshotRight (w : MonitorWorld) (ρ : IterOrder TipInfo) : Prop where
  right : ∀ ours snap, w.ours = some ours → (w.monitor.snapshot w.index ρ).1 = some snap →
    w.PictureRight ours snap
  reported : ∀ ours, w.ours = some ours →
    (∃ t ∈ w.monitor.rivalTips, ¬ w.Below ours.hash t.hash) →
    (w.monitor.snapshot w.index ρ).1.isSome

end MonitorWorld

/-! ## The walk to the fork point -/

namespace MonitorWorld

open SplitMonitor

variable {w : MonitorWorld} {genesis : Hash} {ours tip : TipInfo} {stored : StoredHeader}
  {a c : Hash}

/-- A block of our chain is its own fork point. -/
theorem isFork_self (hlinked : Linked genesis w.index.headers)
    (ha : w.index.headers a = some stored) (hon : w.Below ours.hash a) :
    w.IsFork ours.hash a (stored.height, a) := by
  refine ⟨⟨hon, Branches.Ancestor.refl a, fun d u v _ hd hu hv => ?_⟩, stored, ha, rfl⟩
  obtain rfl := Option.mem_unique ha hv
  exact ((hlinked.graded.ancestor_iff ha hu).mp hd).1

section

variable (hlinked : Linked genesis w.index.headers) (hfollows : w.Follows)
  (hours : w.ours = some ours)

include hlinked hfollows hours

section

variable (ha : w.index.headers a = some stored)
include ha

/-- **What the height index names at its height is on our chain.** -/
theorem onChain_iff :
    (stored.height ≤ ours.height ∧ w.index.getHashAtHeight stored.height = some a)
      ↔ w.Below ours.hash a := by
  obtain ⟨⟨tip, htip, hheight, -⟩, hindexes⟩ := hfollows ours hours
  rw [Below, hlinked.graded.ancestor_iff htip ha, hheight]
  refine and_congr_right fun hle => ?_
  rw [getHashAtHeight, hindexes _ hle, Option.some.injEq]

/-- A block that is not on our chain is not the first block, and its ancestors are its
parent's. -/
theorem below_iff_of_off (hoff : ¬ w.Below ours.hash a) :
    stored.height ≠ 0 ∧ ∀ d, w.Below a d ↔ d = a ∨ w.Below stored.header.prevBlockhash d := by
  have hpos : stored.height ≠ 0 := by
    intro hzero
    obtain ⟨⟨tip, htip, -⟩, -⟩ := hfollows ours hours
    have hgenesis := hlinked.graded.ancestor_iterate_up htip tip.height
    rw [hlinked.iterate_up_eq_genesis htip, ← hlinked.eq_genesis ha hzero] at hgenesis
    exact hoff hgenesis
  refine ⟨hpos, fun d => ?_⟩
  rw [Below, Branches.Ancestor.iff_of_eq ha]
  have hparent : stored.parent = some stored.header.prevBlockhash := if_neg hpos
  simp only [hparent, Option.some.injEq, exists_eq_left', Below]

/-- The walk stops at a block of our chain. -/
theorem forkWalk_of_on (hon : w.Below ours.hash a) (fuel : Nat) :
    forkWalk w.index ours.height (fuel + 1) a = some (stored.height, a) := by
  rw [forkWalk, getHeader, ha]
  exact if_pos ((onChain_iff hlinked hfollows hours ha).mpr hon)

/-- Off our chain the walk goes on to the parent. -/
theorem forkWalk_of_off (hoff : ¬ w.Below ours.hash a) (fuel : Nat) :
    forkWalk w.index ours.height (fuel + 1) a
      = forkWalk w.index ours.height fuel stored.header.prevBlockhash := by
  rw [forkWalk, getHeader, ha]
  refine (if_neg ((onChain_iff hlinked hfollows hours ha).not.mpr hoff)).trans ?_
  exact if_neg (below_iff_of_off hlinked hfollows hours ha hoff).1

/-- Off our chain a block and its parent part from it at the same block. -/
theorem isFork_of_parent (hoff : ¬ w.Below ours.hash a) {fork : Nat × Hash}
    (h : w.IsFork ours.hash stored.header.prevBlockhash fork) : w.IsFork ours.hash a fork := by
  have hbelow := (below_iff_of_off hlinked hfollows hours ha hoff).2
  refine ⟨⟨h.1.left, (hbelow _).mpr (Or.inr h.1.right), fun d u v hd hda hu hv => ?_⟩, h.2⟩
  rcases (hbelow d).mp hda with rfl | hparent
  · exact absurd hd hoff
  · exact h.1.highest d u v hd hparent hu hv

end

/-- **What the walk finds is the highest ancestor on our chain.** -/
theorem isFork_of_forkWalk {fuel : Nat} {fork : Nat × Hash}
    (hwalk : forkWalk w.index ours.height fuel a = some fork) :
    w.IsFork ours.hash a fork := by
  induction fuel generalizing a with
  | zero => cases hwalk
  | succ fuel ih =>
    cases ha : w.index.headers a with
    | none =>
      rw [forkWalk, getHeader, ha] at hwalk
      cases hwalk
    | some stored =>
      by_cases hon : w.Below ours.hash a
      · rw [forkWalk_of_on hlinked hfollows hours ha hon] at hwalk
        obtain rfl := Option.some.inj hwalk
        exact isFork_self hlinked ha hon
      · rw [forkWalk_of_off hlinked hfollows hours ha hon] at hwalk
        exact isFork_of_parent hlinked hfollows hours ha hon (ih hwalk)

/-- **The walk ends within its bound** if the branch is short. -/
theorem isSome_forkWalk (ha : w.index.headers a = some stored) {base : StoredHeader}
    (hc : w.index.headers c = some base) (hours_c : w.Below ours.hash c) (hac : w.Below a c)
    {fuel : Nat} (hfuel : stored.height < base.height + fuel) :
    (forkWalk w.index ours.height fuel a).isSome := by
  induction fuel generalizing a stored with
  | zero =>
    have hle := ((hlinked.graded.ancestor_iff ha hc).mp hac).1
    omega
  | succ fuel ih =>
    by_cases hon : w.Below ours.hash a
    · rw [forkWalk_of_on hlinked hfollows hours ha hon]
      rfl
    · rw [forkWalk_of_off hlinked hfollows hours ha hon]
      obtain ⟨hpos, hbelow⟩ := below_iff_of_off hlinked hfollows hours ha hon
      rcases (hbelow c).mp hac with rfl | hpc
      · exact absurd hours_c hon
      · rcases hlinked a stored ha with ⟨-, hzero, -⟩ | ⟨parent, hparent, hheight, -⟩
        · exact absurd hzero hpos
        · exact ih hparent hpc (by omega)

/-! ## The loop over the tips -/

/-- A tip whose branch is short enough for the walk. -/
def NearTip (w : MonitorWorld) (ours tip : TipInfo) : Prop :=
  ∃ c base, w.index.headers c = some base ∧ w.Below ours.hash c ∧ w.Below tip.hash c
    ∧ tip.height < base.height + forkWalkMax

/-- **What the loop has found among the tips it has seen**: right fork points, and the
heaviest of the tips off our chain. -/
structure Scanned (w : MonitorWorld) (ours : TipInfo) (seen : List TipInfo)
    (scan : Scan) : Prop where
  cached : ∀ hash fork, scan.forkCache hash = some fork → w.IsFork ours.hash hash fork
  best : ∀ b fork, scan.best = some (b, fork) → b ∈ seen ∧ ¬ w.Below ours.hash b.hash
    ∧ w.IsFork ours.hash b.hash fork
  heaviest : ∀ t ∈ seen, ¬ w.Below ours.hash t.hash → w.NearTip ours t →
    ∃ b fork, scan.best = some (b, fork) ∧ ¬ b.work < t.work

theorem scanned_scanTip {seen : List TipInfo} {scan : Scan}
    (h : w.Scanned ours seen scan) (htip : w.Describes tip) :
    w.Scanned ours (tip :: seen) (scanTip w.index ours scan tip) := by
  obtain ⟨stored, hstored, hheight, -⟩ := htip
  have hon := onChain_iff hlinked hfollows hours hstored
  rw [hheight] at hon
  have hsame : ∀ b fork, scan.best = some (b, fork) → b ∈ tip :: seen
      ∧ ¬ w.Below ours.hash b.hash ∧ w.IsFork ours.hash b.hash fork := fun b fork hb =>
    (h.best b fork hb).imp_left (mem_cons_of_mem _)
  -- a tip that is dropped leaves what was found
  have hdrop : (¬ w.Below ours.hash tip.hash → ¬ w.NearTip ours tip) →
      w.Scanned ours (tip :: seen) { scan with stale := tip.hash :: scan.stale } := by
    intro hfar
    refine ⟨h.cached, hsame, fun t ht hoff hnear => ?_⟩
    rcases mem_cons.mp ht with rfl | ht
    · exact absurd hnear (hfar hoff)
    · exact h.heaviest t ht hoff hnear
  rw [scanTip]
  by_cases hbelow : w.Below ours.hash tip.hash
  · rw [if_pos (hon.mpr hbelow)]
    exact hdrop fun hoff => absurd hbelow hoff
  · rw [if_neg (hon.not.mpr hbelow)]
    cases hfound : (scan.forkCache tip.hash).or
        (findForkPoint w.index tip ours.height) with
    | none =>
      refine hdrop fun _ hnear => ?_
      obtain ⟨c, base, hc, hoursc, htipc, hlt⟩ := hnear
      have hsome := isSome_forkWalk hlinked hfollows hours hstored hc hoursc htipc (hheight ▸ hlt)
      rw [Option.or_eq_none_iff] at hfound
      rw [findForkPoint] at hfound
      rw [hfound.2] at hsome
      cases hsome
    | some fork =>
      have hfork : w.IsFork ours.hash tip.hash fork := by
        rcases Option.or_eq_some_iff.mp hfound with hcached | ⟨-, hwalk⟩
        · exact h.cached _ _ hcached
        · exact isFork_of_forkWalk hlinked hfollows hours hwalk
      have hcached : ∀ hash f, Function.update scan.forkCache tip.hash (some fork) hash = some f →
          w.IsFork ours.hash hash f := by
        intro hash f hf
        rcases PartialMap.update_eq_some.mp hf with ⟨rfl, hnew⟩ | ⟨-, hold⟩
        · exact Option.some.inj hnew ▸ hfork
        · exact h.cached hash f hold
      -- the tip becomes the best if it is no lighter than what was seen
      have hbest : (∀ t ∈ seen, ¬ w.Below ours.hash t.hash → w.NearTip ours t →
            ¬ tip.work < t.work) →
          w.Scanned ours (tip :: seen) ⟨scan.stale, some (tip, fork),
            Function.update scan.forkCache tip.hash (some fork)⟩ := by
        intro hheavy
        refine ⟨hcached, fun b f hb => ?_, fun t ht hoff hnear => ⟨tip, fork, rfl, ?_⟩⟩
        · obtain ⟨rfl, rfl⟩ := Prod.mk.inj (Option.some.inj hb)
          exact ⟨mem_cons_self, hbelow, hfork⟩
        · rcases List.mem_cons.mp ht with rfl | ht
          · exact List.lt_irrefl _
          · exact hheavy t ht hoff hnear
      obtain ⟨stale, best, cache⟩ := scan
      cases best with
      | none =>
        refine hbest fun t ht hoff hnear => ?_
        obtain ⟨b, f, hb, -⟩ := h.heaviest t ht hoff hnear
        cases hb
      | some best =>
        obtain ⟨b, f⟩ := best
        show w.Scanned ours (tip :: seen) (if b.work < tip.work then _ else _)
        split
        · rename_i hlt
          refine hbest fun t ht hoff hnear hlt' => ?_
          obtain ⟨b', f', hb, hle⟩ := h.heaviest t ht hoff hnear
          obtain ⟨rfl, rfl⟩ := Prod.mk.inj (Option.some.inj hb)
          exact hle (List.lt_trans hlt hlt')
        · rename_i hle
          refine ⟨hcached, hsame, fun t ht hoff hnear => ?_⟩
          rcases mem_cons.mp ht with rfl | ht
          · exact ⟨b, f, rfl, hle⟩
          · exact h.heaviest t ht hoff hnear

theorem scanned_foldl {seen tips : List TipInfo} {scan : Scan}
    (h : w.Scanned ours seen scan) (htips : ∀ t ∈ tips, w.Describes t) :
    w.Scanned ours (tips.reverse ++ seen)
      (tips.foldl (scanTip w.index ours) scan) := by
  induction tips generalizing seen scan with
  | nil => exact h
  | cons tip tips ih =>
    rw [forall_mem_cons] at htips
    rw [reverse_cons, append_assoc]
    exact ih (scanned_scanTip hlinked hfollows hours h htips.1) htips.2

end

/-! ## Runs that keep the picture right -/

/-- **When an event keeps the picture right.** A tip that comes in is neither above nor
below another tracked one; a fork point is carried over only to a descendant, and not
from our own chain; our tip moves only to where the remembered fork points stay what they
are, as it does when our chain grows (`InOrder.keeps_ourTip`); and a snapshot is taken
while the branches are short. -/
def Keeps (w : MonitorWorld) : MonitorEvent → Prop
  | .taintedTip tip extendedFrom =>
    (∀ t ∈ w.monitor.rivalTips, extendedFrom ≠ some t.hash → t.hash ≠ tip.hash →
      ¬ w.Below t.hash tip.hash ∧ ¬ w.Below tip.hash t.hash)
    ∧ ∀ prev fork, extendedFrom = some prev → w.monitor.forkCache prev = some fork →
      w.Below tip.hash prev ∧ ∀ ours, w.ours = some ours → ¬ w.Below ours.hash prev
  | .invalidMarked hash _ => (∃ t ∈ w.monitor.rivalTips, t.hash = hash)
      ∨ ∀ t ∈ w.monitor.rivalTips, ¬ w.Below t.hash hash ∧ ¬ w.Below hash t.hash
  | .ourTip hash _ _ => ∀ rival fork, w.monitor.forkCache rival = some fork →
      w.IsFork hash rival fork
  | .snapshot _ => ∀ ours, w.ours = some ours → ∀ t ∈ w.monitor.rivalTips, w.NearTip ours t

def AllKeep (w : MonitorWorld) : List MonitorEvent → Prop
  | [] => True
  | e :: events => w.Keeps e ∧ AllKeep (w.step e) events

theorem describes_workOf {hash : Hash} (hstored : w.index.headers hash = some stored) :
    w.Describes ⟨hash, stored.height, workOf w.index hash⟩ := by
  refine ⟨stored, hstored, rfl, ?_⟩
  rw [workOf, getHeader, hstored]
  rfl

/-- **A monitor in order**: tips apart and as the index has them, and fork points that are
those of our tip. -/
structure InOrder (genesis : Hash) (w : MonitorWorld) : Prop where
  linked : Linked genesis w.index.headers
  follows : w.Follows
  described : ∀ t ∈ w.monitor.rivalTips, w.Describes t
  apart : w.TipsApart
  cached : ∀ hash fork, w.monitor.forkCache hash = some fork →
    ∃ ours, w.ours = some ours ∧ w.IsFork ours.hash hash fork

theorem Starts.inOrder (h : Starts genesis w) : InOrder genesis w := by
  obtain ⟨deployment, hm⟩ := h.monitor
  refine ⟨h.linked, h.follows, ?_, ?_, ?_⟩
  · rw [hm]
    exact fun _ ht => absurd ht not_mem_nil
  · intro t ht
    rw [hm] at ht
    exact absurd ht not_mem_nil
  · intro hash fork hfork
    rw [hm] at hfork
    cases hfork

/-- A branch that grows keeps its fork point, if it is off our chain already. -/
theorem isFork_of_below (hlinked : Linked genesis w.index.headers) {ours hash prev : Hash}
    {fork : Nat × Hash} (hstored : w.index.headers hash = some stored)
    (h : w.IsFork ours prev fork) (hbelow : w.Below hash prev) (hoff : ¬ w.Below ours prev) :
    w.IsFork ours hash fork := by
  obtain ⟨⟨hleft, hright, hhighest⟩, hheight⟩ := h
  refine ⟨⟨hleft, hbelow.trans hright, fun d u v hd hda hu hv => ?_⟩, hheight⟩
  obtain ⟨p, hp⟩ := Option.isSome_iff_exists.mp
    (Branches.Ancestor.isSome hlinked.graded.closed hbelow (by rw [hstored]; rfl))
  rcases Nat.le_total u.height p.height with hle | hle
  · exact hhighest d u v hd (hlinked.graded.ancestor_of_le hstored hp hu hbelow hda hle) hu hv
  · -- a common ancestor above `prev` would put `prev` on our chain
    exact absurd (hd.trans (hlinked.graded.ancestor_of_le hstored hu hp hda hbelow hle)) hoff

namespace InOrder

variable (h : InOrder genesis w)

include h

/-- Fewer tips, and fork points that are right. -/
theorem restrict {m : SplitMonitor} (hours : m.ourTip = w.monitor.ourTip)
    (htips : ∀ t ∈ m.rivalTips, t ∈ w.monitor.rivalTips)
    (hcached : ∀ hash fork, m.forkCache hash = some fork →
      ∃ ours, w.ours = some ours ∧ w.IsFork ours.hash hash fork) :
    InOrder genesis { w with monitor := m } := by
  have hsame : MonitorWorld.ours { w with monitor := m } = w.ours := by
    unfold MonitorWorld.ours getOurTip
    rw [hours]
  refine ⟨h.linked, fun ours ho => h.follows ours (hsame ▸ ho),
    fun t ht => h.described t (htips t ht),
    fun t ht t' ht' => h.apart t (htips t ht) t' (htips t' ht'), fun hash fork hf => ?_⟩
  rw [hsame]
  exact hcached hash fork hf

/-- A further tip, apart from the others. -/
theorem track (htip : w.Describes tip) (hapart : ∀ t ∈ w.monitor.rivalTips, t.hash ≠ tip.hash →
      ¬ w.Below t.hash tip.hash ∧ ¬ w.Below tip.hash t.hash) :
    InOrder genesis { w with monitor := w.monitor.insertTip tip } := by
  have hmem : ∀ t ∈ (w.monitor.insertTip tip).rivalTips,
      t = tip ∨ t ∈ w.monitor.rivalTips ∧ t.hash ≠ tip.hash := by
    intro t ht
    simpa [insertTip] using ht
  refine ⟨h.linked, h.follows, fun t ht => ?_, fun t ht t' ht' hne => ?_, h.cached⟩
  · rcases hmem t ht with rfl | ⟨hold, -⟩
    · exact htip
    · exact h.described t hold
  · rcases hmem t ht with rfl | ⟨hold, htne⟩
    · rcases hmem t' ht' with rfl | ⟨hold', -⟩
      · exact absurd rfl hne
      · exact (hapart t' hold' hne.symm).2
    · rcases hmem t' ht' with rfl | ⟨hold', -⟩
      · exact (hapart t hold htne).1
      · exact h.apart t hold t' hold' hne

/-- Carrying a fork point over to a descendant off our chain. -/
theorem carried {prev : Hash} (htip : w.Describes tip)
    (hcarry : ∀ fork, w.monitor.forkCache prev = some fork →
      w.Below tip.hash prev ∧ ∀ ours, w.ours = some ours → ¬ w.Below ours.hash prev)
    {hash : Hash} {fork : Nat × Hash}
    (hf : (w.monitor.carryFork prev tip.hash).forkCache hash = some fork) :
    ∃ ours, w.ours = some ours ∧ w.IsFork ours.hash hash fork := by
  unfold carryFork at hf
  cases hprev : w.monitor.forkCache prev with
  | none =>
    rw [hprev] at hf
    exact h.cached hash fork hf
  | some old =>
    rw [hprev] at hf
    rcases PartialMap.update_eq_some.mp hf with ⟨rfl, hnew⟩ | ⟨-, hold⟩
    · obtain rfl := Option.some.inj hnew
      obtain ⟨ours, hours, hfork⟩ := h.cached prev old hprev
      obtain ⟨hbelow, hoff⟩ := hcarry old hprev
      obtain ⟨stored, hstored, -⟩ := htip
      exact ⟨ours, hours, isFork_of_below h.linked hstored hfork hbelow (hoff ours hours)⟩
    · rcases PartialMap.update_eq_some.mp hold with ⟨-, hnone⟩ | ⟨-, hold⟩
      · cases hnone
      · exact h.cached hash fork hold

theorem taintedTip {extendedFrom : Option Hash} (htip : w.Describes tip)
    (hkeeps : w.Keeps (.taintedTip tip extendedFrom)) :
    InOrder genesis (w.step (.taintedTip tip extendedFrom)) := by
  obtain ⟨hapart, hcarry⟩ := hkeeps
  cases extendedFrom with
  | none => exact h.track htip fun t ht hne => hapart t ht (by simp) hne
  | some prev =>
    have hours : (w.monitor.carryFork prev tip.hash).ourTip = w.monitor.ourTip
        ∧ (w.monitor.carryFork prev tip.hash).rivalTips = w.monitor.rivalTips := by
      unfold carryFork
      split <;> exact ⟨rfl, rfl⟩
    have hmem : ∀ t ∈ ((w.monitor.carryFork prev tip.hash).removeTip prev).rivalTips,
        t ∈ w.monitor.rivalTips ∧ t.hash ≠ prev := by
      intro t ht
      simpa [removeTip, hours.2] using ht
    have hdropped := h.restrict (m := (w.monitor.carryFork prev tip.hash).removeTip prev) hours.1
      (fun t ht => (hmem t ht).1)
      (fun hash fork hf => h.carried htip (fun f hfork => hcarry prev f rfl hfork) hf)
    refine hdropped.track htip fun t ht hne => ?_
    obtain ⟨hold, hneprev⟩ := hmem t ht
    refine hapart t hold (fun heq => ?_) hne
    exact hneprev (Option.some.inj heq).symm

theorem invalidMarked {hash : Hash} {height : Nat}
    (hpossible : w.Possible (.invalidMarked hash height))
    (hkeeps : w.Keeps (.invalidMarked hash height)) :
    InOrder genesis (w.step (.invalidMarked hash height)) := by
  obtain ⟨stored, hstored, rfl⟩ := hpossible
  show InOrder genesis { w with monitor := if _ then _ else _ }
  split
  · exact h
  · rename_i hnew
    refine h.track (describes_workOf hstored) fun t ht hne => ?_
    rcases hkeeps with ⟨t', ht', rfl⟩ | hapart
    · exact (hnew (any_eq_true.mpr ⟨t', ht', beq_self_eq_true _⟩)).elim
    · exact hapart t ht

theorem ourTip {hash : Hash} {height : Nat} {heightIndex : Nat → Option Hash}
    (hpossible : w.Possible (.ourTip hash height heightIndex))
    (hkeeps : w.Keeps (.ourTip hash height heightIndex)) :
    InOrder genesis (w.step (.ourTip hash height heightIndex)) := by
  obtain ⟨⟨stored, hstored, rfl⟩, hindexes⟩ := hpossible
  refine ⟨h.linked, fun ours hours => ?_, h.described, h.apart, fun rival fork hf => ?_⟩
  · obtain rfl := Option.some.inj hours
    exact ⟨describes_workOf hstored, hindexes⟩
  · exact ⟨_, rfl, hkeeps rival fork hf⟩

/-- **Our chain may grow**: a tip over ours keeps what is remembered of rivals that do
not descend from ours. -/
theorem keeps_ourTip {ours : TipInfo} (hours : w.ours = some ours) {hash : Hash}
    (hstored : w.index.headers hash = some stored) (hgrows : w.Below hash ours.hash)
    (hoff : ∀ rival fork, w.monitor.forkCache rival = some fork → ¬ w.Below rival ours.hash)
    (height : Nat) (heightIndex : Nat → Option Hash) :
    w.Keeps (.ourTip hash height heightIndex) := by
  intro rival fork hf
  obtain ⟨ours', hours', hfork, hheight⟩ := h.cached rival fork hf
  obtain rfl := Option.mem_unique hours hours'
  have hbelow := isFork_of_below h.linked hstored ⟨hfork.symm, hheight⟩ hgrows (hoff rival fork hf)
  exact hbelow.imp_left ForkPoint.symm

/-- What the loop of a snapshot finds. -/
theorem scanned (ρ : IterOrder TipInfo) {ours : TipInfo} (hours : w.ours = some ours) :
    w.Scanned ours w.monitor.rivalTips ((ρ.order w.monitor.rivalTips).foldl
      (scanTip w.index ours) ⟨[], none, w.monitor.forkCache⟩) := by
  have hstart : w.Scanned ours [] ⟨[], none, w.monitor.forkCache⟩ := by
    refine ⟨fun hash fork hf => ?_, fun b fork hb => (by cases hb), fun t ht => ?_⟩
    · obtain ⟨ours', hours', hfork⟩ := h.cached hash fork hf
      obtain rfl := Option.mem_unique hours hours'
      exact hfork
    · exact absurd ht not_mem_nil
  have hmem : ∀ t, t ∈ (ρ.order w.monitor.rivalTips).reverse ++ [] ↔ t ∈ w.monitor.rivalTips :=
    fun t => by rw [append_nil, mem_reverse, (ρ.perm _).mem_iff]
  have hscan := scanned_foldl h.linked h.follows hours hstart
    (fun t ht => h.described t ((ρ.perm _).mem_iff.mp ht))
  refine ⟨hscan.cached, fun b fork hb => ?_, fun t ht => hscan.heaviest t ((hmem t).mpr ht)⟩
  obtain ⟨hin, hrest⟩ := hscan.best b fork hb
  exact ⟨(hmem b).mp hin, hrest⟩

theorem snapshot (ρ : IterOrder TipInfo) : InOrder genesis (w.step (.snapshot ρ)) := by
  show InOrder genesis { w with monitor := (w.monitor.snapshot w.index ρ).2 }
  rw [SplitMonitor.snapshot]
  cases hours : w.monitor.getOurTip w.index with
  | none => exact h
  | some ours =>
    have hscan := h.scanned ρ hours
    refine h.restrict rfl (fun t ht => ?_) (fun hash fork hf => ?_)
    · exact (mem_filter.mp ht).1
    · change (if _ then none else _) = some fork at hf
      split at hf
      · cases hf
      · exact ⟨ours, hours, hscan.cached hash fork hf⟩

omit h in
/-- **Every event that keeps the picture right leaves the monitor in order.** -/
theorem step (h : InOrder genesis w) {e : MonitorEvent} (hpossible : w.Possible e)
    (hkeeps : w.Keeps e) : InOrder genesis (w.step e) := by
  cases e with
  | taintedTip tip extendedFrom => exact h.taintedTip hpossible hkeeps
  | invalidMarked hash height => exact h.invalidMarked hpossible hkeeps
  | ourTip hash height heightIndex => exact h.ourTip hpossible hkeeps
  | snapshot ρ => exact h.snapshot ρ

omit h in
theorem run (h : InOrder genesis w) {events : List MonitorEvent} (hpossible : w.AllPossible events)
    (hkeeps : w.AllKeep events) : InOrder genesis (w.run events) := by
  induction events generalizing w with
  | nil => exact h
  | cons e events ih => exact ih (h.step hpossible.1 hkeeps.1) hpossible.2 hkeeps.2

/-- What a snapshot reports is what its loop has found. -/
theorem snapshot_eq (ρ : IterOrder TipInfo) {ours : TipInfo} (hours : w.ours = some ours) :
    ∃ scan m, w.Scanned ours w.monitor.rivalTips scan
      ∧ (w.monitor.snapshot w.index ρ).1
        = scan.best.map fun best => picture m w.index ours best.1 best.2 := by
  refine ⟨_, (w.monitor.snapshotAgainst w.index ρ ours).2, h.scanned ρ hours, ?_⟩
  rw [SplitMonitor.snapshot, show w.monitor.getOurTip w.index = some ours from hours]
  rfl

/-- **In order, a snapshot is right.** -/
theorem snapshotRight (ρ : IterOrder TipInfo) (hkeeps : w.Keeps (.snapshot ρ)) :
    w.SnapshotRight ρ := by
  refine ⟨fun ours snap hours hsnap => ?_, fun ours hours hrival => ?_⟩
  · obtain ⟨scan, m, hscan, heq⟩ := h.snapshot_eq ρ hours
    rw [heq, Option.map_eq_some_iff] at hsnap
    obtain ⟨⟨b, fork⟩, hbest, rfl⟩ := hsnap
    obtain ⟨hmem, hoff, hfork⟩ := hscan.best b fork hbest
    refine ⟨rfl, hfork, hmem, hoff, fun t ht htoff => ?_⟩
    obtain ⟨b', fork', hbest', hle⟩ := hscan.heaviest t ht htoff (hkeeps ours hours t ht)
    obtain ⟨rfl, rfl⟩ := Prod.mk.inj (Option.mem_unique hbest hbest')
    exact hle
  · obtain ⟨scan, m, hscan, heq⟩ := h.snapshot_eq ρ hours
    obtain ⟨t, ht, hoff⟩ := hrival
    obtain ⟨b, fork, hbest, -⟩ := hscan.heaviest t ht hoff (hkeeps ours hours t ht)
    rw [heq, hbest]
    rfl

end InOrder

/-- **The picture is right at all times** in every run whose events keep it so: no tracked
tip is an ancestor of another, and a snapshot reports the heaviest rival with the highest
common ancestor of the two tips. -/
theorem pictures_right (hstart : Starts genesis w) {events : List MonitorEvent}
    (hpossible : w.AllPossible events) (hkeeps : w.AllKeep events) :
    (w.run events).TipsApart
      ∧ ∀ ρ, (w.run events).Keeps (.snapshot ρ) → (w.run events).SnapshotRight ρ := by
  have horder := hstart.inOrder.run hpossible hkeeps
  exact ⟨horder.apart, fun ρ hsnapshot => horder.snapshotRight ρ hsnapshot⟩

end MonitorWorld

/-- Whatever happens to the monitor, the picture is right. -/
def PicturesRight : Prop :=
  ∀ (genesis : Hash) (w : MonitorWorld) (events : List MonitorEvent),
    MonitorWorld.Starts genesis w → w.AllPossible events →
    (w.run events).TipsApart
      ∧ ∀ ρ ours snap, (w.run events).ours = some ours →
        ((w.run events).monitor.snapshot (w.run events).index ρ).1 = some snap →
        (w.run events).PictureRight ours snap

/-! ## A run that does not keep it, and one that does -/

section Sample

attribute [local instance] sampleHashing

/-- A header over another, by name. -/
def splitChild (parent : StoredHeader) (prev nonce : Nat) : StoredHeader :=
  parent.child (sampleHeader prev nonce 0 0)

theorem splitChild_chainWork (parent : StoredHeader) (prev nonce : Nat) :
    (splitChild parent prev nonce).chainWork = addChainWork parent.chainWork
      (calculateWork (splitChild parent prev nonce).header.target) := rfl

def splitRoot : StoredHeader := ⟨sampleHeader 0 1 0 0, 0, zeroWork⟩

/-- Header 2, over the first. -/
def splitTwo : StoredHeader := splitChild splitRoot 1 2

/-- Header 1 at the bottom; 2 and 5 over it; 3 and 4 over 2. -/
def splitStored : Nat → Option StoredHeader
  | 1 => some splitRoot
  | 2 => some splitTwo
  | 3 => some (splitChild splitTwo 2 3)
  | 4 => some (splitChild splitTwo 2 4)
  | 5 => some (splitChild splitRoot 1 5)
  | _ => none

def splitWorld : MonitorWorld :=
  ⟨{ HeaderIndex.empty with headers := fun hash => splitStored hash.toNat }, SplitMonitor.new none⟩

theorem linked_splitWorld : Linked 1#256 splitWorld.index.headers := by
  intro hash stored h
  change splitStored hash.toNat = some stored at h
  unfold splitStored at h
  split at h
  · rename_i hone
    obtain rfl := Option.some.inj h
    exact Or.inl ⟨BitVec.eq_of_toNat_eq hone, rfl, rfl⟩
  all_goals cases h
  · exact Or.inr ⟨splitRoot, rfl, rfl, splitChild_chainWork _ _ _⟩
  · exact Or.inr ⟨splitTwo, rfl, rfl, splitChild_chainWork _ _ _⟩
  · exact Or.inr ⟨splitTwo, rfl, rfl, splitChild_chainWork _ _ _⟩
  · exact Or.inr ⟨splitRoot, rfl, rfl, splitChild_chainWork _ _ _⟩

theorem starts_splitWorld : MonitorWorld.Starts 1#256 splitWorld :=
  ⟨linked_splitWorld, fun ours hours => (by cases hours), none, rfl⟩

/-- Heights 0 to 2 name headers 1, 2 and 3. -/
def mainHeights : Nat → Option Hash
  | 0 => some 1#256
  | 1 => some 2#256
  | 2 => some 3#256
  | _ => none

/-- A stored header as a tip. -/
def StoredHeader.tipInfo (stored : StoredHeader) (hash : Hash) : TipInfo :=
  ⟨hash, stored.height, stored.chainWork⟩

theorem describes_tipInfo {w : MonitorWorld} {hash : Hash} {stored : StoredHeader}
    (h : w.index.headers hash = some stored) : w.Describes (stored.tipInfo hash) :=
  ⟨stored, h, rfl, rfl⟩

/-- Header 4, as a tip. -/
def splitTip : TipInfo := (splitChild splitTwo 2 4).tipInfo 4#256

/-- Header 4 is tracked, and header 2 below it marked. -/
def markedRun : List MonitorEvent := [.taintedTip splitTip none, .invalidMarked 2#256 1]

/-- **A marked block is tracked beside its descendant.** -/
theorem not_picturesRight : ¬ PicturesRight := by
  intro h
  have hpossible : splitWorld.AllPossible markedRun :=
    ⟨describes_tipInfo rfl, ⟨_, rfl, rfl⟩, trivial⟩
  have hapart := (h 1#256 splitWorld markedRun starts_splitWorld hpossible).1
  have htips : (splitWorld.run markedRun).monitor.rivalTips
      = [splitTwo.tipInfo 2#256, splitTip] := rfl
  refine hapart splitTip ?_ (splitTwo.tipInfo 2#256) ?_ (by decide) ?_
  · exact mem_cons_of_mem _ mem_cons_self
  · exact mem_cons_self
  · exact single ⟨_, rfl, rfl⟩

theorem indexes_mainHeights :
    Indexes StoredHeader.parent splitWorld.index.headers mainHeights 3#256 2 := by
  intro k hk
  interval_cases k <;> rfl

/-- A run that keeps the picture right: header 4 is tracked, our tip is header 3, and
snapshots are taken. -/
def trackedRun : List MonitorEvent :=
  [.taintedTip splitTip none, .ourTip 3#256 2 mainHeights, .snapshot IterOrder.id]

/-- Header 2 is below both tips. -/
theorem nearTip_splitTip {w : MonitorWorld} {ours : TipInfo}
    (hw : w.index.headers = splitWorld.index.headers) (hours : ours.hash = 3#256) :
    w.NearTip ours splitTip := by
  refine ⟨2#256, splitTwo, hw ▸ rfl, ?_, ?_, by decide⟩
  · rw [MonitorWorld.Below, hw, hours]
    exact single ⟨_, rfl, rfl⟩
  · rw [MonitorWorld.Below, hw]
    exact single ⟨_, rfl, rfl⟩

theorem pictures_right_trackedRun :
    (splitWorld.run trackedRun).TipsApart
      ∧ (splitWorld.run trackedRun).SnapshotRight IterOrder.id := by
  have hpossible : splitWorld.AllPossible trackedRun :=
    ⟨describes_tipInfo rfl, ⟨⟨_, rfl, rfl⟩, indexes_mainHeights⟩, trivial, trivial⟩
  have hnear : ∀ w : MonitorWorld, w.index.headers = splitWorld.index.headers →
      (∀ ours, w.ours = some ours → ours.hash = 3#256) → w.monitor.rivalTips = [splitTip] →
      w.Keeps (.snapshot IterOrder.id) := by
    intro w hw hours htips ours ho t ht
    rw [htips, mem_singleton] at ht
    rw [ht]
    exact nearTip_splitTip hw (hours ours ho)
  have hkeeps : splitWorld.AllKeep trackedRun := by
    refine ⟨⟨fun t ht => absurd ht not_mem_nil, fun prev fork hprev => (by cases hprev)⟩,
      fun rival fork hfork => (by cases hfork), hnear _ rfl (fun ours ho => ?_) rfl, trivial⟩
    obtain rfl := Option.some.inj ho
    rfl
  have hright := MonitorWorld.pictures_right starts_splitWorld hpossible hkeeps
  refine ⟨hright.1, hright.2 _ (hnear _ rfl (fun ours ho => ?_) rfl)⟩
  obtain rfl := Option.some.inj ho
  rfl

end Sample
