import BitcoinPR.Core.Rollback
import BitcoinPR.Storage.BlockStore

/-!
# Startup: bringing the tip and the coins together

The coins on disk name the block they are at; the tip is recorded apart from
them. Two startup phases bring the two together. The first trusts the coins and
moves the tip to their block. The second makes sure that the tip block is
stored, walks down to one that is if it is not, and moves the tip there; it is
skipped if the first has confirmed that coins and tip agree.

Only the tip is moved in the second phase, never the coins. That is harmless as
long as the first phase has confirmed whatever it has moved – but it does not
when it moves the tip down to the coins, so that the second may take it further
down. And the first phase does nothing at all while the recorded tip is the
first block. `agrees_startup_iff` says that these are the only two ways in
which the phases leave coins and tip apart.
-/

/-- How blocks are read from the files and parsed. -/
structure BlockReader where
  readBlock : BlockPos → Option Bytes
  deserialize : Bytes → Option Block

/-- What the startup phases are given: the first block, the iteration order of
the write buffer, the reader and the sizes to open the UTXO set with. -/
structure StartupEnv where
  genesis : Hash
  order : MapOrder
  reader : BlockReader
  cacheCapacity : Nat
  writeBufferBudget : Nat

/-- The stores and the tip, as the phases pass them on. -/
structure StartupState where
  index : BlockIndex
  utxoSet : UtxoSet
  bestHeight : Nat
  bestHash : Hash

namespace StartupState

/-- Move the tip, on disk as well. -/
def setTip (s : StartupState) (hash : Hash) (height : Nat) : StartupState :=
  { s with
    index := { s.index with headerIndex := s.index.headerIndex.setBestTip hash height }
    bestHeight := height
    bestHash := hash }

/-- Wipe the UTXO set and start over from the first block. -/
def wipe (env : StartupEnv) (s : StartupState) : StartupState :=
  { s.setTip env.genesis 0 with
    utxoSet := UtxoSet.openDb UtxoDb.empty env.cacheCapacity env.writeBufferBudget }

/-- The block the coins are at: its hash is recorded with them, or else looked
up by height. -/
def flushedBlock (s : StartupState) (utxoHeight : Nat) : Option Hash :=
  match s.utxoSet.getFlushHash with
  | .ok (some hash) => some hash
  | _ => s.index.getHashAtHeight utxoHeight

/-- **Move the tip to the block the coins are at.** The flag says whether the
two are confirmed to agree. -/
def phaseAReconcileUtxo (env : StartupEnv) (s : StartupState) : StartupState × Bool :=
  if 0 < s.bestHeight then
    match s.utxoSet.getFlushHeight with
    | .ok (some utxoHeight) =>
      if utxoHeight < s.bestHeight then
        match s.flushedBlock utxoHeight with
        | some hash => (s.setTip hash utxoHeight, false)
        | none => (s, false)
      else if s.bestHeight < utxoHeight then
        match s.flushedBlock utxoHeight with
        | some hash => (s.setTip hash utxoHeight, true)
        | none =>
          match s.utxoSet.rollbackTo env.order s.bestHeight with
          | (.ok _, utxoSet) => ({ s with utxoSet := utxoSet }, true)
          | (.error _, _) => (s.wipe env, false)
      else (s, true)
    | _ => (s, false)
  else (s, false)

/-- The bytes of a block, if its position is known and can be read. -/
def storedBlock (env : StartupEnv) (s : StartupState) (hash : Hash) : Option Bytes :=
  (s.index.getBlockPos hash).bind env.reader.readBlock

/-- Search `n` heights down, from the one below `height`, for a stored block. -/
def searchStored (env : StartupEnv) (s : StartupState) : Nat → Nat → Option (Hash × Nat)
  | 0, _ => none
  | n + 1, height =>
    match s.index.getHashAtHeight (height - 1) with
    | some hash =>
      if (s.storedBlock env hash).isSome then some (hash, height - 1)
      else searchStored env s n (height - 1)
    | none => searchStored env s n (height - 1)

/-- How far down a stored block is searched for. -/
def searchMax : Nat := 2000

/-- **Make sure that the tip block is stored**, or move the tip down to one that
is. -/
def verifyTipBlockStored (env : StartupEnv) (utxoVerified : Bool) (s : StartupState) :
    StartupState :=
  if 0 < s.bestHeight ∧ utxoVerified = false then
    if ((s.storedBlock env s.bestHash).bind env.reader.deserialize).isSome then s
    else match s.searchStored env (min s.bestHeight searchMax) s.bestHeight with
      | some (hash, height) => s.setTip hash height
      | none => s.wipe env
  else s

/-- The two phases. -/
def startup (env : StartupEnv) (s : StartupState) : StartupState :=
  (s.phaseAReconcileUtxo env).1.verifyTipBlockStored env (s.phaseAReconcileUtxo env).2

end StartupState

/-! ## Coins and tip -/

/-- The lowest `n` blocks of a path, top first. -/
def lowestBlocks (blocks : List Block) (n : Nat) : List Block := blocks.drop (blocks.length - n)

theorem lowestBlocks_zero (blocks : List Block) : lowestBlocks blocks 0 = [] := by
  rw [lowestBlocks, Nat.sub_zero, List.drop_length]

namespace StartupState

variable [Hashing]

/-- **Coins and tip agree**: the tip is a block of the path, and the coins are
those of the path up to it. -/
def Agrees (genesis : Hash) (blocks : List Block) (s : StartupState) : Prop :=
  s.bestHeight ≤ blocks.length ∧ s.bestHash = tipHash genesis (lowestBlocks blocks s.bestHeight)
    ∧ s.utxoSet.db.coin = replayPath (lowestBlocks blocks s.bestHeight)

/-- **The disk at startup**: the height index names a path, the coins are those
of the path up to the height they are flushed at, and the recorded tip is any
block of it. -/
structure OnPath (env : StartupEnv) (blocks : List Block) (flushed : Nat) (s : StartupState) :
    Prop where
  length_lt : blocks.length < 2 ^ 32
  indexed : ∀ n ≤ blocks.length,
    s.index.getHashAtHeight n = some (tipHash env.genesis (lowestBlocks blocks n))
  flushed_le : flushed ≤ blocks.length
  coins : s.utxoSet.db.FlushedAt (replayPath (lowestBlocks blocks flushed)) flushed
    (tipHash env.genesis (lowestBlocks blocks flushed))
  tip_le : s.bestHeight ≤ blocks.length
  tip : s.bestHash = tipHash env.genesis (lowestBlocks blocks s.bestHeight)

omit [Hashing] in
/-- The block at a height can be read. -/
def ReadableAt (env : StartupEnv) (s : StartupState) (height : Nat) : Prop :=
  ∃ hash, s.index.getHashAtHeight height = some hash ∧ (s.storedBlock env hash).isSome

/-- **Nothing moves the tip away from the coins**: if the recorded tip is the
first block, there are no coins; and if the coins are at a block below the
recorded tip that cannot be read and parsed, the next lower block that can be
read – at most 2000 further down – has the same coins. -/
def KeepsTip (env : StartupEnv) (blocks : List Block) (flushed : Nat) (s : StartupState) : Prop :=
  (s.bestHeight = 0 → replayPath (lowestBlocks blocks flushed) = replayPath []) ∧
    (0 < flushed → flushed < s.bestHeight →
      (s.storedBlock env (tipHash env.genesis (lowestBlocks blocks flushed))).bind
        env.reader.deserialize = none →
      ∀ m, flushed - searchMax ≤ m → m < flushed → s.ReadableAt env m →
        (∀ i, m < i → i < flushed → ¬ s.ReadableAt env i) →
        replayPath (lowestBlocks blocks flushed) = replayPath (lowestBlocks blocks m))

section Search

variable {env : StartupEnv} {s : StartupState}

omit [Hashing]

/-- **What the search finds**: the highest block below that can be read, if
there is one among the heights searched. -/
theorem searchStored_cases (env : StartupEnv) (s : StartupState) {n height : Nat}
    (hn : n ≤ height) :
    (s.searchStored env n height = none
        ∧ ∀ i, height - n ≤ i → i < height → ¬ s.ReadableAt env i)
      ∨ ∃ hash m, s.searchStored env n height = some (hash, m) ∧ height - n ≤ m ∧ m < height
        ∧ s.index.getHashAtHeight m = some hash ∧ s.ReadableAt env m
        ∧ ∀ i, m < i → i < height → ¬ s.ReadableAt env i := by
  induction n generalizing height with
  | zero => exact Or.inl ⟨rfl, fun i hle hlt => by omega⟩
  | succ n ih =>
    by_cases hread : s.ReadableAt env (height - 1)
    · obtain ⟨hash, hat, hstored⟩ := hread
      refine Or.inr ⟨hash, height - 1, ?_, by omega, by omega, hat, ⟨hash, hat, hstored⟩,
        fun i hgt hlt => by omega⟩
      simp only [searchStored, hat, hstored, if_true]
    · have hstep : s.searchStored env (n + 1) height = s.searchStored env n (height - 1) := by
        rw [searchStored]
        cases hat : s.index.getHashAtHeight (height - 1) with
        | none => rfl
        | some hash => exact if_neg fun hstored => hread ⟨hash, hat, hstored⟩
      -- what cannot be read at the next height is passed over
      have hbelow : ∀ i, (i < height - 1 → ¬ s.ReadableAt env i) → i < height →
          ¬ s.ReadableAt env i := by
        intro i hi hlt
        rcases Nat.lt_or_ge i (height - 1) with hlow | hge
        · exact hi hlow
        · rwa [show i = height - 1 by omega]
      rw [hstep]
      rcases @ih (height - 1) (by omega) with
        ⟨hnone, hall⟩ | ⟨hash, m, hsome, hle, hlt, hat, hfound, hall⟩
      · exact Or.inl ⟨hnone, fun i hle hlt => hbelow i (hall i (by omega)) hlt⟩
      · exact Or.inr ⟨hash, m, hsome, by omega, by omega, hat, hfound,
          fun i hgt hlt => hbelow i (hall i hgt) hlt⟩

end Search

section Phases

variable {env : StartupEnv} {blocks : List Block} {flushed : Nat} {s : StartupState}

/-- A tip moved along the path agrees with the coins exactly if these are the
coins up to it. -/
theorem OnPath.agrees_setTip_iff (h : s.OnPath env blocks flushed) {m : Nat}
    (hm : m ≤ blocks.length) :
    (s.setTip (tipHash env.genesis (lowestBlocks blocks m)) m).Agrees env.genesis blocks
      ↔ replayPath (lowestBlocks blocks flushed) = replayPath (lowestBlocks blocks m) := by
  unfold Agrees setTip
  rw [h.coins.coins]
  exact ⟨fun hagrees => hagrees.2.2, fun heq => ⟨hm, rfl, heq⟩⟩

/-- After a wipe there are no coins, and the tip is the first block. -/
theorem agrees_wipe (env : StartupEnv) (blocks : List Block) (s : StartupState) :
    (s.wipe env).Agrees env.genesis blocks := by
  refine ⟨Nat.zero_le _, ?_, ?_⟩
  · show env.genesis = tipHash env.genesis (lowestBlocks blocks 0)
    rw [lowestBlocks_zero]
    rfl
  · show UtxoDb.empty.coin = replayPath (lowestBlocks blocks 0)
    rw [lowestBlocks_zero]
    rfl

/-- The first phase moves the tip to the coins, unless it is the first block. -/
theorem OnPath.phaseAReconcileUtxo_eq (h : s.OnPath env blocks flushed) :
    s.phaseAReconcileUtxo env =
      if s.bestHeight = 0 then (s, false)
      else if flushed = s.bestHeight then (s, true)
      else (s.setTip (tipHash env.genesis (lowestBlocks blocks flushed)) flushed,
        decide (s.bestHeight < flushed)) := by
  have hheight := h.coins.getFlushHeight_eq (Nat.lt_of_le_of_lt h.flushed_le h.length_lt)
  have hblock : s.flushedBlock flushed
      = some (tipHash env.genesis (lowestBlocks blocks flushed)) := by
    unfold flushedBlock
    rw [h.coins.getFlushHash_eq]
  unfold phaseAReconcileUtxo
  by_cases hzero : s.bestHeight = 0
  · rw [if_neg (by omega), if_pos hzero]
  · rw [if_pos (by omega), if_neg hzero, hheight]
    simp only [hblock]
    rcases Nat.lt_trichotomy flushed s.bestHeight with hlt | heq | hgt
    · rw [if_pos hlt, if_neg (by omega), decide_eq_false (by omega)]
    · rw [if_neg (by omega), if_neg (by omega), if_pos heq]
    · rw [if_neg (by omega), if_pos hgt, if_neg (by omega), decide_eq_true hgt]

/-- The second phase on a tip it has to check. -/
theorem OnPath.agrees_verify_iff (h : s.OnPath env blocks flushed) (hpos : 0 < flushed) :
    ((s.setTip (tipHash env.genesis (lowestBlocks blocks flushed)) flushed).verifyTipBlockStored env
        false).Agrees env.genesis blocks
      ↔ ((s.storedBlock env (tipHash env.genesis (lowestBlocks blocks flushed))).bind
          env.reader.deserialize = none →
        ∀ m, flushed - searchMax ≤ m → m < flushed → s.ReadableAt env m →
          (∀ i, m < i → i < flushed → ¬ s.ReadableAt env i) →
          replayPath (lowestBlocks blocks flushed) = replayPath (lowestBlocks blocks m)) := by
  generalize hmoved : s.setTip (tipHash env.genesis (lowestBlocks blocks flushed)) flushed = moved
  have hheight : moved.bestHeight = flushed := by rw [← hmoved]; rfl
  have hhash : moved.bestHash = tipHash env.genesis (lowestBlocks blocks flushed) := by
    rw [← hmoved]; rfl
  have hstored : ∀ hash, moved.storedBlock env hash = s.storedBlock env hash := fun hash => by
    rw [← hmoved]; rfl
  have hread : ∀ m, moved.ReadableAt env m ↔ s.ReadableAt env m := fun m => by
    rw [← hmoved]; rfl
  unfold verifyTipBlockStored
  rw [if_pos ⟨by omega, rfl⟩, hstored, hhash, hheight]
  by_cases hblock : ((s.storedBlock env (tipHash env.genesis (lowestBlocks blocks flushed))).bind
      env.reader.deserialize).isSome
  · rw [if_pos hblock, ← hmoved]
    refine iff_of_true ((h.agrees_setTip_iff h.flushed_le).mpr rfl) fun hnone => ?_
    rw [hnone] at hblock
    cases hblock
  · rw [if_neg hblock]
    have hnone := Option.not_isSome_iff_eq_none.mp hblock
    rcases moved.searchStored_cases env (Nat.min_le_left flushed searchMax) with
      ⟨hsearch, hall⟩ | ⟨hash, m, hsearch, hle, hlt, hat, hfound, hall⟩
    · rw [hsearch]
      refine iff_of_true (agrees_wipe env blocks moved) fun _ m hle hlt hm _ => ?_
      exact absurd ((hread m).mpr hm) (hall m (by omega) hlt)
    · rw [hsearch]
      have hmle : m ≤ blocks.length := hlt.le.trans h.flushed_le
      have hhashm : hash = tipHash env.genesis (lowestBlocks blocks m) := by
        rw [← hmoved] at hat
        exact Option.mem_unique hat (h.indexed m hmle)
      have hsame : (moved.setTip hash m).Agrees env.genesis blocks
          ↔ replayPath (lowestBlocks blocks flushed) = replayPath (lowestBlocks blocks m) := by
        rw [← hmoved, hhashm]
        exact h.agrees_setTip_iff hmle
      refine hsame.trans ?_
      constructor
      · intro heq _ m' hle' hlt' hm' hall'
        -- the highest readable block is the one found
        have hmm : m' = m := by
          rcases Nat.lt_trichotomy m' m with hlow | heq' | hhigh
          · exact absurd ((hread m).mp hfound) (hall' m hlow hlt)
          · exact heq'
          · exact absurd ((hread m').mpr hm') (hall m' hhigh hlt')
        rw [hmm]
        exact heq
      · intro hkeeps
        exact hkeeps hnone m (by omega) hlt ((hread m).mp hfound)
          fun i hgt hi hr => hall i hgt hi ((hread i).mpr hr)

/-- **When startup leaves coins and tip in agreement**: exactly if nothing moves
the tip away from the coins, whatever the heights of the two and whichever
blocks can be read. -/
theorem agrees_startup_iff (h : s.OnPath env blocks flushed) :
    (s.startup env).Agrees env.genesis blocks ↔ s.KeepsTip env blocks flushed := by
  unfold startup KeepsTip
  rw [h.phaseAReconcileUtxo_eq]
  by_cases hzero : s.bestHeight = 0
  · -- nothing is moved at all
    rw [if_pos hzero]
    have hsame : s.verifyTipBlockStored env false = s :=
      if_neg fun hpos => absurd hpos.1 (by omega)
    rw [hsame]
    unfold Agrees
    rw [h.coins.coins, hzero, lowestBlocks_zero]
    constructor
    · rintro ⟨-, -, heq⟩
      exact ⟨fun _ => heq, fun _ hlt => by omega⟩
    · rintro ⟨heq, -⟩
      refine ⟨Nat.zero_le _, ?_, heq rfl⟩
      rw [h.tip, hzero, lowestBlocks_zero]
  · rw [if_neg hzero]
    by_cases heq : flushed = s.bestHeight
    · rw [if_pos heq]
      have hsame : s.verifyTipBlockStored env true = s :=
        if_neg fun hpos => absurd hpos.2 (by simp)
      rw [hsame]
      refine iff_of_true ⟨h.tip_le, h.tip, ?_⟩ ⟨fun hz => absurd hz hzero, fun _ hlt => by omega⟩
      rw [h.coins.coins, heq]
    · rw [if_neg heq]
      rcases Nat.lt_or_ge s.bestHeight flushed with hahead | hbehind
      · -- the coins are ahead, and the tip is moved up to them
        rw [decide_eq_true hahead]
        have hsame : ∀ t : StartupState, t.verifyTipBlockStored env true = t := fun t =>
          if_neg fun hpos => absurd hpos.2 (by simp)
        rw [hsame]
        exact iff_of_true ((h.agrees_setTip_iff h.flushed_le).mpr rfl)
          ⟨fun hz => absurd hz hzero, fun _ hlt => by omega⟩
      · rw [decide_eq_false (Nat.not_lt.mpr hbehind)]
        by_cases hpos : 0 < flushed
        · rw [h.agrees_verify_iff hpos]
          exact ⟨fun hkeeps => ⟨fun hz => absurd hz hzero, fun _ _ => hkeeps⟩,
            fun hkeeps => hkeeps.2 hpos (by omega)⟩
        · -- the tip is moved to the first block, which is not checked
          have hsame : (s.setTip (tipHash env.genesis (lowestBlocks blocks flushed)) flushed
              ).verifyTipBlockStored env false
              = s.setTip (tipHash env.genesis (lowestBlocks blocks flushed)) flushed :=
            if_neg fun hcheck => hpos hcheck.1
          rw [hsame]
          exact iff_of_true ((h.agrees_setTip_iff h.flushed_le).mpr rfl)
            ⟨fun hz => absurd hz hzero, fun hp => absurd hp hpos⟩

end Phases

end StartupState

/-- Startup leaves coins and tip in agreement, whatever the disk was like. -/
def StartupAgrees : Prop :=
  ∀ [Hashing] (env : StartupEnv) (blocks : List Block) (flushed : Nat) (s : StartupState),
    s.OnPath env blocks flushed → (s.startup env).Agrees env.genesis blocks

section Sample

attribute [local instance] sampleHashing

/-- Blocks 4, 3 and 2 on block 1. -/
def threeBlocks : List Block :=
  sampleBlock 3 4 12 3 1003 [] :: twoLevels.map Prod.fst

/-- Every position can be read, and what is read is a block. -/
def startupEnv : StartupEnv :=
  ⟨1, sampleEnv.order, ⟨fun _ => some [], fun _ => some (sampleBlock 2 3 11 2 1002 [])⟩, 100, 1000⟩

/-- A disk on which some blocks are stored and the coins are at block 3. -/
def startupDisk (stored : List Hash) (tipHeight : Nat) (tip : Hash) : StartupState :=
  ⟨⟨sampleIndex [(4, 3, 3), (3, 2, 2), (2, 1, 1), (1, 0, 0)],
      fun hash => if hash ∈ stored then some ⟨0, 0, 0⟩ else none, none⟩,
    storeAtTwo [], tipHeight, tip⟩

theorem onPath_startupDisk {stored : List Hash} {tipHeight : Nat} {tip : Hash}
    (hle : tipHeight ≤ 3) (htip : tip = tipHash 1 (lowestBlocks threeBlocks tipHeight)) :
    (startupDisk stored tipHeight tip).OnPath startupEnv threeBlocks 2 := by
  refine ⟨by decide, fun n hn => ?_, by decide, ?_, hle, htip⟩
  · have hcases : ∀ n ≤ 3, (sampleIndex [(4, 3, 3), (3, 2, 2), (2, 1, 1), (1, 0, 0)]).heightIndex n
        = some (tipHash 1 (lowestBlocks threeBlocks n)) := by decide
    exact hcases n hn
  · exact (@storedChain_storeAtTwo [] fun l hl => Or.inl rfl).flushed

/-- The coins are at block 3, below the recorded tip, and block 3 is stored. -/
theorem agrees_startupDisk :
    ((startupDisk [3] 3 4).startup startupEnv).Agrees 1 threeBlocks :=
  (StartupState.agrees_startup_iff (onPath_startupDisk (by decide) (by decide))).mpr
    ⟨fun hzero => absurd hzero (by decide), fun _ _ hnone => absurd hnone (by decide)⟩

/-- **The tip is moved below the coins, or left there**: the coins are at block
3, which is not stored, so that the tip goes down to block 2, which is; and if
the recorded tip is block 1, it stays. -/
theorem not_startupAgrees : ¬ StartupAgrees
    ∧ ¬ ((startupDisk [2] 0 1).startup startupEnv).Agrees 1 threeBlocks := by
  constructor
  · intro h
    obtain ⟨-, -, hcoins⟩ := h startupEnv threeBlocks 2 (startupDisk [2] 3 4)
      (onPath_startupDisk (by decide) (by decide))
    have hcoin := congrFun hcoins ⟨1002#256, 0⟩
    exact absurd hcoin (by decide +kernel)
  · rintro ⟨-, -, hcoins⟩
    have hcoin := congrFun hcoins ⟨1002#256, 0⟩
    exact absurd hcoin (by decide +kernel)

end Sample
