import BitcoinPR.Core.Deployment

/-!
# The target of work handed out

A node hands out work on its tip in three places: templates for pools, replies to
`getblocktemplate`, and the blocks `generatetoaddress` makes. The target of a
block is validated against `getNextWorkRequired`, but each of the three finds it
in a way of its own. The template retargets and knows the rule of twenty minutes;
but it goes by the clock and not by the time of the block, looks the first block
of the period up by height and not among the ancestors of the tip, and applies
the rule where nothing is ever retargeted. The other two copy the bits of the tip.
-/

namespace Mining

/-- The bits of the last block that is not of minimum difficulty, from `hash` at
a height down, or of the block that opens the period. -/
def scanBits (ix : HeaderIndex) (interval : Nat) (limitBits : UInt32) :
    Nat → Hash → Option UInt32
  | 0, hash => (ix.getHeader hash).map fun stored => stored.header.bits
  | height + 1, hash =>
    if (height + 1) % interval = 0 then (ix.getHeader hash).map fun stored => stored.header.bits
    else match ix.getHeader hash with
      | some stored =>
        if stored.header.bits ≠ limitBits then some stored.header.bits
        else scanBits ix interval limitBits height stored.header.prevBlockhash
      | none => none

/-- More than twice the spacing has passed since the tip, by the clock. -/
def lateNow (params : ConsensusParams) (tip : Header) (now : UInt32) : Bool :=
  decide ((UInt32.ofNat params.powTargetSpacing * 2).toNat < now.toNat - tip.time.toNat)

/-- **The bits of a template** for a block at `nextHeight`, built at `now`. -/
def calculateNextBits (ix : HeaderIndex) (prevHash : Hash) (nextHeight : Nat)
    (params : ConsensusParams) (now : UInt32) : UInt32 :=
  match ix.getHeader prevHash with
  | none => 0x1d00ffff
  | some prev =>
    let interval := params.difficultyAdjustmentInterval
    if nextHeight % interval = 0 ∧ params.powNoRetargeting = false then
      match (ix.getHashAtHeight (nextHeight - interval)).bind ix.getHeader with
      | some start => calculateNextWorkRequired start.header prev.header params
      | none => prev.header.bits
    else if params.powAllowMinDifficultyBlocks then
      let limitBits := toCompactLossy params.powLimit
      if lateNow params prev.header now then limitBits
      else (scanBits ix interval limitBits (nextHeight - 1) prevHash).getD prev.header.bits
    else prev.header.bits

/-- **The bits of a `getblocktemplate` reply**, left empty when the tip is not
stored. -/
def getBlockTemplateBits (ix : HeaderIndex) (bestHash : Hash) : Option UInt32 :=
  (ix.getHeader bestHash).map fun tip => tip.header.bits

/-- **The bits of a block made by `generatetoaddress`.** -/
def generateToAddressBits (ix : HeaderIndex) (prevHash : Hash) : UInt32 :=
  ((ix.getHeader prevHash).map fun h => h.header.bits).getD 0x207fffff

/-- The time such a block starts from; it is bumped when the nonces run out. -/
def generateToAddressTime (ix : HeaderIndex) (prevHash : Hash) (now : UInt32) : UInt32 :=
  max now (((ix.getHeader prevHash).map fun h => h.header.time).getD 0 + 1)

/-! ## When they are right -/

variable (params : ConsensusParams) (a : Header) (below : List Header)

/-- Every block is of minimum difficulty, down to the one that opens the
period. -/
def PeriodAtLimit : List Header → Prop
  | [] => True
  | a :: below => a.bits = toCompactLossy params.powLimit
      ∧ (below.length % params.difficultyAdjustmentInterval ≠ 0 → PeriodAtLimit below)

/-- The rule of twenty minutes asks for the bits of the tip: if the block is
late, these are of minimum difficulty; if not, they are not, unless no block of
the period has others. -/
def KeepsBits (late : Prop) : Prop :=
  (late → a.bits = toCompactLossy params.powLimit) ∧
    (¬ late → a.bits = toCompactLossy params.powLimit → PeriodAtLimit params (a :: below))

/-- The same by the time of the block. -/
def LateAt (time : UInt32) : Prop := a.time + UInt32.ofNat params.powTargetSpacing * 2 < time

/-- The target of a block that opens a period. -/
def retargeted : Option UInt32 :=
  (a :: below)[params.difficultyAdjustmentInterval - 1]?.map fun start =>
    calculateNextWorkRequired start a params

/-- **The bits of the tip are those required**: nothing is retargeted; or the
block opens a period and retargeting leaves them; or it does not, and the rule of
twenty minutes asks for them, if there is one. -/
def TipRight (time : UInt32) : Prop :=
  params.powNoRetargeting = true ∨
    if (below.length + 1) % params.difficultyAdjustmentInterval = 0 then
      retargeted params a below = some a.bits
    else params.powAllowMinDifficultyBlocks = true →
      KeepsBits params a below (LateAt params a time)

/-- **The bits of a template are those required**: where nothing is retargeted,
the rule of twenty minutes, if there is one, asks by the clock for those of the
tip; else, if the block opens a period, the block the height index names gives
the target the ancestor of the tip gives; and else the rule says the same by the
clock and by the time of the block, or the whole period is of minimum
difficulty. -/
def TemplateRight (ix : HeaderIndex) (now time : UInt32) : Prop :=
  let interval := params.difficultyAdjustmentInterval
  if params.powNoRetargeting = true then
    params.powAllowMinDifficultyBlocks = true → KeepsBits params a below (lateNow params a now)
  else if (below.length + 1) % interval = 0 then
    some ((((ix.getHashAtHeight (below.length + 1 - interval)).bind ix.getHeader).map fun start =>
      calculateNextWorkRequired start.header a params).getD a.bits) = retargeted params a below
  else params.powAllowMinDifficultyBlocks = true →
    (lateNow params a now ↔ LateAt params a time) ∨ PeriodAtLimit params (a :: below)

/-- What the rule falls back on, if a block is not late. -/
def fallback (ix : HeaderIndex) (work : Bytes) : UInt32 :=
  (minDifficultyWalk ix.getHeader params.difficultyAdjustmentInterval
    (toCompactLossy params.powLimit) (below.length + 1) ⟨a, below.length, work⟩).header.bits

/-- The walk to the first block of the period is the walk to an ancestor. -/
theorem periodStartWalk_eq (ix : HeaderIndex) (target fuel : Nat) (cur : StoredHeader) :
    periodStartWalk ix.getHeader target fuel cur = ix.ancestorWalk target fuel cur := by
  induction fuel generalizing cur with
  | zero =>
    rfl
  | succ fuel ih =>
    refine if_congr Iff.rfl rfl ?_
    cases ix.getHeader cur.header.prevBlockhash with
    | none => rfl
    | some parent => exact if_congr Iff.rfl (ih parent) rfl

section

variable {a below} [Hashing] {ix : HeaderIndex} {tip : Hash}
  (h : IsBranch ix.headers tip (a :: below)) (work : Bytes)
include h

/-- **The scan by heights** finds what the walk by stored heights finds, and that
is of minimum difficulty if the whole period is. -/
theorem scanBits_eq :
    scanBits ix params.difficultyAdjustmentInterval (toCompactLossy params.powLimit) below.length
        tip = some (fallback params a below ix work)
      ∧ (fallback params a below ix work = toCompactLossy params.powLimit
        ↔ PeriodAtLimit params (a :: below)) := by
  unfold fallback
  induction below generalizing tip a work with
  | nil =>
    obtain ⟨-, ⟨work', htip⟩, -⟩ := h
    have hget : ix.getHeader tip = some ⟨a, 0, work'⟩ := htip
    simp [scanBits, minDifficultyWalk, hget, PeriodAtLimit]
  | cons b rest ih =>
    obtain ⟨-, ⟨work', htip⟩, hbelow⟩ := h
    have hget : ix.getHeader tip = some ⟨a, rest.length + 1, work'⟩ := htip
    obtain ⟨workb, hb⟩ := hbelow.2.1
    have hgetb : ix.getHeader a.prevBlockhash = some ⟨b, rest.length, workb⟩ := hb
    obtain ⟨hscan, hlimit⟩ := ih hbelow workb
    rw [List.length_cons, scanBits, minDifficultyWalk, PeriodAtLimit]
    by_cases hopen : (rest.length + 1) % params.difficultyAdjustmentInterval = 0
    · simp [hopen, hget]
    · by_cases hbits : a.bits = toCompactLossy params.powLimit
      · simp [hopen, hget, hbits, hgetb, hscan, hlimit]
      · simp [hopen, hget, hbits]

theorem keepsBits_iff (late : Prop) [Decidable late] :
    (if late then toCompactLossy params.powLimit else fallback params a below ix work) = a.bits
      ↔ KeepsBits params a below late := by
  unfold KeepsBits
  by_cases hlate : late
  · simp [hlate, eq_comm]
  · by_cases hbits : a.bits = toCompactLossy params.powLimit
    · simp [hlate, hbits, (scanBits_eq params h work).2]
    · rw [if_neg hlate, fallback, minDifficultyWalk]
      simp [hlate, hbits]

theorem exists_retargeted
    (hopen : (below.length + 1) % params.difficultyAdjustmentInterval = 0) :
    ∃ start, periodStartWalk ix.getHeader
        (below.length + 1 - params.difficultyAdjustmentInterval) below.length
        ⟨a, below.length, work⟩ = some start
      ∧ start.height = below.length + 1 - params.difficultyAdjustmentInterval
      ∧ retargeted params a below = some (calculateNextWorkRequired start.header a params) := by
  obtain ⟨rfl, -, -⟩ := id h
  unfold retargeted
  generalize params.difficultyAdjustmentInterval = interval at hopen
  have hle := Nat.le_of_dvd (Nat.succ_pos below.length) (Nat.dvd_of_mod_eq_zero hopen)
  have hpos : interval ≠ 0 := by
    rintro rfl
    exact Nat.succ_ne_zero _ ((Nat.mod_zero _).symm.trans hopen)
  obtain ⟨b, rest, work', hdrop, -, -, hwalk⟩ := h.ancestorWalk_eq work
    (show below.length + 1 - interval ≤ below.length by omega) (Nat.le_refl _)
  refine ⟨_, (periodStartWalk_eq ix _ _ _).trans hwalk, rfl, ?_⟩
  rw [show below.length - (below.length + 1 - interval) = interval - 1 by omega] at hdrop
  rw [← List.head?_drop, hdrop]
  rfl

omit work in
/-- **When work handed out on a tip has the bits required of it**, for each of the
three builders. -/
theorem bits_eq_required_iff (now time : UInt32) :
    ∃ required, getNextWorkRequired ix params tip below.length time = some required
      ∧ (calculateNextBits ix tip (below.length + 1) params now = required
        ↔ TemplateRight params a below ix now time)
      ∧ (getBlockTemplateBits ix tip = some required ↔ TipRight params a below time)
      ∧ (generateToAddressBits ix tip = required ↔ TipRight params a below time) := by
  obtain ⟨-, ⟨work, htip⟩, -⟩ := id h
  have hget : ix.getHeader tip = some ⟨a, below.length, work⟩ := htip
  obtain ⟨hscan, hlimit⟩ := scanBits_eq params h work
  have hkeeps := keepsBits_iff params h work
  simp only [getBlockTemplateBits, generateToAddressBits, hget, Option.map_some, Option.getD_some,
    Option.some.injEq, and_self]
  unfold getNextWorkRequired getNextWorkRequiredWith calculateNextBits TemplateRight TipRight LateAt
  cases hno : params.powNoRetargeting with
  | true =>
    refine ⟨a.bits, by simp [hget], ?_, iff_of_true rfl (Or.inl rfl)⟩
    cases hmin : params.powAllowMinDifficultyBlocks with
    | false => simp [hget]
    | true => simp [hget, hscan, hkeeps]
  | false =>
    by_cases hopen : (below.length + 1) % params.difficultyAdjustmentInterval = 0
    · obtain ⟨start, hstart, hheight, hretarget⟩ := exists_retargeted params h work hopen
      refine ⟨calculateNextWorkRequired start.header a params, ?_, ?_, ?_⟩
      · simp [hget, hopen, hstart, hheight]
      · simp only [hget, hopen, hretarget]
        cases hindexed : (ix.getHashAtHeight (below.length + 1
          - params.difficultyAdjustmentInterval)).bind ix.getHeader <;> simp
      · simp [hopen, hretarget, eq_comm]
    · cases hmin : params.powAllowMinDifficultyBlocks with
      | false => exact ⟨a.bits, by simp [hget, hopen], by simp [hget, hopen], by simp [hopen]⟩
      | true =>
        have hrequired := hkeeps (a.time + UInt32.ofNat params.powTargetSpacing * 2 < time)
        refine ⟨_, ?_, ?_, (eq_comm.trans hrequired).trans (by simp [hopen])⟩
        -- the block is late or not, and so is the template
        · by_cases htime : a.time + UInt32.ofNat params.powTargetSpacing * 2 < time <;>
            simp [hget, hopen, htime, fallback]
        · by_cases htime : a.time + UInt32.ofNat params.powTargetSpacing * 2 < time <;>
            by_cases hnow : lateNow params a now = true <;>
            simp [hget, hopen, hscan, ← hlimit, htime, hnow, eq_comm]

end

/-- Work handed out on a tip has the bits required of the block, at every time
the block may have. -/
def WorkHasRequiredBits : Prop :=
  ∀ [Hashing] (n : Network) (ix : HeaderIndex) (tip : Hash) (a : Header) (below : List Header)
    (now time : UInt32), IsBranch ix.headers tip (a :: below) →
    let params := ConsensusParams.forNetwork n
    let required := getNextWorkRequired ix params tip below.length time
    ((getMedianTimePast ix tip).getD 0 < time.toNat →
      required = some (calculateNextBits ix tip (below.length + 1) params now)
        ∧ required = getBlockTemplateBits ix tip)
      ∧ (generateToAddressTime ix tip now ≤ time → required = some (generateToAddressBits ix tip))

section Sample

attribute [local instance] sampleHashing

/-- A header that is harder than the limit. -/
def harderHeader (prev nonce : Nat) : Header :=
  { sampleHeader prev nonce 0 0 with bits := 0x1c00ffff }

def harderIndex : HeaderIndex :=
  (HeaderIndex.empty.insertHeader 1#256 ⟨harderHeader 0 1, 0, zeroWork⟩).insertHeader 2#256
    ⟨harderHeader 1 2, 1, zeroWork⟩

theorem isBranch_harderIndex :
    IsBranch harderIndex.headers 2#256 [harderHeader 1 2, harderHeader 0 1] :=
  ⟨by decide, ⟨zeroWork, rfl⟩, by decide, ⟨zeroWork, rfl⟩, rfl⟩

/-- Within a period of the main network, the bits of the tip are right. -/
theorem bits_harderIndex : ∃ required,
    getNextWorkRequired harderIndex ConsensusParams.mainnet 2#256 1 2000 = some required
      ∧ getBlockTemplateBits harderIndex 2#256 = some required := by
  obtain ⟨required, hrequired, -, hreply, -⟩ := bits_eq_required_iff ConsensusParams.mainnet
    isBranch_harderIndex 2000 2000
  refine ⟨required, hrequired, hreply.mpr (Or.inr ?_)⟩
  exact fun hmin => (by cases hmin)

/-- **On the test network** a block that is late may have minimum difficulty, and
then must have it; the reply has the bits of the tip. -/
theorem not_workHasRequiredBits : ¬ WorkHasRequiredBits := by
  intro h
  have hreply := ((h .testnet harderIndex 2#256 _ _ 2000 2000 isBranch_harderIndex).1 (by decide)).2
  exact absurd hreply (by decide +kernel)

end Sample

end Mining
