import BitcoinPR.Core.Supply

/-!
# Runs of blocks connected and disconnected

A run starts over an empty store and connects and disconnects blocks. What a
run has connected and not disconnected again is a stack, and as long as every
block is connected to the top of it and taken off as it was put on, the store
is what the stack says: `Built` lists the blocks with their batches and gives
the coins level by level, and `History.Tracked` says that the chain state is
at the top of such a stack. Disconnecting goes one level down, where the
store is worth what it was worth before.

The code checks neither of the two. A block whose parent is not the tip
connects; disconnecting it makes its parent the tip, and what is disconnected
next is put back over coins that other blocks have spent since.
-/

open List ConsensusParams Nat

open Mass (AtMost worth)

/-! ## The subsidies of a chain -/

/-- The subsidies of the heights from 1 to `height`. -/
def ConsensusParams.subsidyUpTo (p : ConsensusParams) (height : Nat) : Nat :=
  ∑ i ∈ Finset.range height, (p.blockSubsidy (i + 1)).toNat

theorem ConsensusParams.subsidyUpTo_le (p : ConsensusParams) (height : Nat) :
    p.subsidyUpTo height ≤ height * 5000000000 := by
  induction height with
  | zero => exact le_refl 0
  | succ height ih =>
    rw [subsidyUpTo, Finset.sum_range_succ, Nat.succ_mul]
    exact Nat.add_le_add ih (p.blockSubsidy_le (height + 1))

/-- **Halving converges**: a value paid `n` times and then halved, again and
again, pays less than `2 * n` times the value. What is left of the bound is
what the rest of the period and all periods after it can pay. -/
theorem sum_halvings_le (c : Nat) {n : Nat} (hn : 0 < n) (k : Nat) :
    ∑ i ∈ Finset.range k, c / 2 ^ (i / n) + (2 * n - k % n) * (c / 2 ^ (k / n))
      ≤ 2 * n * c := by
  induction k with
  | zero => simp
  | succ k ih =>
    refine le_trans ?_ ih
    rw [Finset.sum_range_succ, Nat.add_assoc]
    refine Nat.add_le_add_left ?_ _
    have hr := Nat.mod_lt k hn
    have hk := div_add_mod k n
    generalize k / n = q at hk ⊢
    generalize k % n = r at hk hr ⊢
    by_cases hlast : r + 1 = n
    · -- the period ends: two halves of the next one are one of this
      have hdiv : (k + 1) / n = q + 1 := by
        rw [← hk, Nat.add_assoc, hlast, ← Nat.mul_succ, Nat.mul_div_cancel_left _ hn]
      have hmod : (k + 1) % n = 0 := by
        rw [← hk, Nat.add_assoc, hlast, ← Nat.mul_succ, Nat.mul_mod_right]
      rw [hdiv, hmod, Nat.pow_succ, ← Nat.div_div_eq_div_mul]
      have hhalf : 2 * (c / 2 ^ q / 2) ≤ c / 2 ^ q := Nat.mul_div_le _ 2
      calc c / 2 ^ q + (2 * n - 0) * (c / 2 ^ q / 2) = c / 2 ^ q + n * (2 * (c / 2 ^ q / 2)) := by
            rw [Nat.sub_zero, Nat.mul_comm 2 n, Nat.mul_assoc]
        _ ≤ c / 2 ^ q + n * (c / 2 ^ q) := Nat.add_le_add_left (Nat.mul_le_mul_left n hhalf) _
        _ = (n + 1) * (c / 2 ^ q) := by rw [Nat.succ_mul, Nat.add_comm]
        _ = (2 * n - r) * (c / 2 ^ q) := by
            congr 1
            omega
    · have hdiv : (k + 1) / n = q := by
        rw [← hk, add_assoc, mul_add_div hn, div_eq_of_lt (by omega), add_zero]
      have hmod : (k + 1) % n = r + 1 := by
        rw [← hk, add_assoc, mul_add_mod, mod_eq_of_lt (by omega)]
      rw [hdiv, add_comm, ← succ_mul]
      refine le_of_eq ?_
      congr 1
      omega

/-- **No network pays more than the money supply** in subsidies. -/
theorem ConsensusParams.subsidyUpTo_le_maxMoney (n : Network) (height : Nat) :
    (forNetwork n).subsidyUpTo height ≤ maxMoney := by
  have hinterval : 0 < (forNetwork n).subsidyHalvingInterval
      ∧ 2 * (forNetwork n).subsidyHalvingInterval * 5000000000 ≤ maxMoney := by
    cases n <;> decide
  refine le_trans ?_ ((sum_halvings_le 5000000000 hinterval.1 (height + 1)).trans hinterval.2)
  refine le_trans ?_ (le_add_right _ _)
  rw [Finset.sum_range_succ']
  exact (Finset.sum_le_sum fun i _ =>
    (forNetwork n).blockSubsidy_le_div (i + 1)).trans (le_add_right _ _)

/-! ## Runs -/

/-- A call on the chain state. -/
inductive ChainCall where
  | connect (env : Env) (block : Block) (height : Nat)
  | disconnect (env : Env) (block : Block) (height : Nat)

/-- A chain state with the blocks connected and not disconnected since, last
first. -/
structure History where
  state : ChainState
  connected : List Block

namespace History

variable [Hashing] [ScriptEngine]

/-- One call, whatever comes of it. -/
def step (h : History) : ChainCall → History
  | .connect env block height =>
    match h.state.connectBlock env block height with
    | (.ok _, s) => ⟨s, block :: h.connected⟩
    | (.error _, s) => ⟨s, h.connected⟩
  | .disconnect env block height =>
    match h.state.disconnectBlock env block height with
    | (.ok _, s) => ⟨s, h.connected.tail⟩
    | (.error _, s) => ⟨s, h.connected⟩

def run (h : History) (calls : List ChainCall) : History := calls.foldl step h

/-- **The calls of a linear chain**: a block that connects is on the tip, one
above it, creates nothing that is unspent, and is not connected already; a
block is disconnected as it was connected. Nothing is asked of a call that is
refused. -/
def Admissible (h : History) : ChainCall → Prop
  | .connect env block height =>
    (h.state.connectBlock env block height).1.isOk →
      block.header.prevBlockhash = h.state.bestHash ∧ height = h.state.bestHeight + 1
        ∧ height < 2 ^ 31
        ∧ (∀ o ∈ ChainState.createdOutpoints block, h.state.utxoSet.contains o = false)
        ∧ block.blockHash ∉ h.connected.map Block.blockHash
  | .disconnect _ block _ =>
    ∀ top ∈ h.connected.head?, top.blockHash = block.blockHash → top = block

def RunAdmissible (h : History) : List ChainCall → Prop
  | [] => True
  | c :: cs => h.Admissible c ∧ RunAdmissible (h.step c) cs

end History

/-! ## What the stack says -/

/-- **A stack of blocks and the coins on top of it**: every block is on the one
below, creates nothing that was unspent, and adds no more than its subsidy. -/
inductive Built [Hashing] (p : ConsensusParams) (genesis : Hash) :
    List (Block × UtxoBatch) → (OutPoint → Option UtxoEntry) → Hash → Prop
  | nil : Built p genesis [] (fun _ => none) genesis
  | cons {levels : List (Block × UtxoBatch)} {base : OutPoint → Option UtxoEntry} {block : Block}
      {batch : UtxoBatch} (below : Built p genesis levels base block.header.prevBlockhash)
      (committed : batch.Committed base block (levels.length + 1))
      (fresh : ∀ o ∈ ChainState.createdOutpoints block, base o = none)
      (worth : AtMost (fun o => coinValue
          (PartialMap.eraseAll (PartialMap.putAll base batch.inserts) batch.removals o))
        (p.subsidyUpTo (levels.length + 1)))
      (unique : block.blockHash ∉ levels.map fun l => l.1.blockHash) :
      Built p genesis ((block, batch) :: levels)
        (PartialMap.eraseAll (PartialMap.putAll base batch.inserts) batch.removals)
        block.blockHash

namespace Built

variable [Hashing] {p : ConsensusParams} {genesis tip : Hash}
  {levels : List (Block × UtxoBatch)} {view : OutPoint → Option UtxoEntry}

/-- The coins are worth at most the subsidies of the stack. -/
theorem atMost (h : Built p genesis levels view tip) :
    AtMost (fun o => coinValue (view o)) (p.subsidyUpTo levels.length) := by
  cases h with
  | nil => exact Mass.atMost_worth_none _
  | cons _ _ _ worth _ => exact worth

/-- No coin is higher than the stack. -/
theorem height_le (h : Built p genesis levels view tip) {o : OutPoint} {e : UtxoEntry}
    (he : view o = some e) : e.height ≤ levels.length := by
  induction h generalizing e with
  | nil => cases he
  | @cons levels base block batch _ committed _ _ _ ih =>
    rcases PartialMap.eraseAll_putAll_eq_some he with hin | hold
    · exact le_of_eq (committed.accepted.exists_output_of_mem hin).1
    · exact le_succ_of_le (ih hold)

end Built

namespace ChainState

/-- **A chain state on top of a stack**: the store holds what the stack says,
and the undo records are those of its blocks. -/
structure Tracked [Hashing] (p : ConsensusParams) (genesis : Hash)
    (levels : List (Block × UtxoBatch)) (s : ChainState) : Prop where
  sound : s.utxoSet.Sound
  params : s.params = p
  built : Built p genesis levels s.utxoSet.view s.bestHash
  bestHeight : s.bestHeight = levels.length
  height_lt : levels.length < 2 ^ 31
  recorded : ∀ l ∈ levels,
    s.utxoSet.Recorded l.1.blockHash (some (UtxoBatch.undoRecord l.1 l.2))
  unrecorded : ∀ hash, hash ∉ levels.map (fun l => l.1.blockHash) →
    s.utxoSet.Recorded hash none

namespace Tracked

variable [Hashing] {p : ConsensusParams} {genesis : Hash} {levels : List (Block × UtxoBatch)}
  {s s' : ChainState} {env : Env} {block : Block} {height : Nat}

section

variable (h : s.Tracked p genesis levels)
include h

theorem consistent : s.Consistent :=
  ⟨h.sound, fun _ _ he => lt_of_le_of_lt (h.built.height_le he) h.height_lt⟩

/-- A rejected block changes nothing that is tracked. -/
theorem of_rejected (hr : Rejected s s') : s'.Tracked p genesis levels := by
  have hrec : ∀ {hash record}, s.utxoSet.Recorded hash record →
      s'.utxoSet.Recorded hash record := fun hrec =>
    hrec.of_eq (by rw [hr.recached.writeBuffer]) (by rw [hr.recached.db])
  refine ⟨h.sound.recached hr.recached, hr.params.trans h.params, ?_,
    hr.bestHeight.trans h.bestHeight, h.height_lt, fun l hl => hrec (h.recorded l hl),
    fun hash hne => hrec (h.unrecorded hash hne)⟩
  rw [hr.recached.view_eq, hr.bestHash]
  exact h.built

/-- **Connecting to the tip** puts a level on the stack. -/
theorem connect {batch : UtxoBatch} (hmoney : p.subsidyUpTo levels.length ≤ maxMoney)
    (hconn : Connected s env block height batch s')
    (hprev : block.header.prevBlockhash = s.bestHash) (hheight : height = s.bestHeight + 1)
    (hlt : height < 2 ^ 31) (hnew : ∀ o ∈ createdOutpoints block, s.utxoSet.view o = none)
    (hunique : block.blockHash ∉ levels.map fun l => l.1.blockHash) :
    s'.Tracked p genesis ((block, batch) :: levels) := by
  rw [h.bestHeight] at hheight
  subst hheight
  have hlt' : levels.length + 1 < 2 ^ 32 := by omega
  have hcomm := hconn.committed h.sound hlt'
  have hview := hconn.view_eq h.sound hlt'
  refine ⟨hconn.sound h.sound hlt' hnew, hconn.params.trans h.params, ?_, hconn.bestHeight, hlt,
    fun l hl => ?_, fun hash hne => ?_⟩
  · rw [hview, hconn.bestHash]
    refine .cons (hprev ▸ h.built) hcomm hnew ?_ hunique
    have hworth := hconn.validated.atMost hmoney h.built.atMost
    rw [h.params] at hworth
    rwa [subsidyUpTo, Finset.sum_range_succ]
  · rcases mem_cons.mp hl with rfl | hl
    · refine hconn.recorded fun hmem => ?_
      obtain ⟨r, hr, hrh⟩ := mem_map.mp hmem
      cases (h.unrecorded _ hunique).buffered r hr hrh
    · refine hconn.recorded_of_ne (h.recorded l hl) fun heq => hunique ?_
      exact mem_map.mpr ⟨l, hl, heq.symm⟩
  · rw [map_cons, mem_cons, not_or] at hne
    exact hconn.recorded_of_ne (h.unrecorded hash hne.2) (Ne.symm hne.1)

/-- **Disconnecting the block on top** goes one level down. -/
theorem disconnect {u : Unit} (hdis : s.disconnectBlock env block height = (.ok u, s'))
    (htop : ∀ top ∈ (levels.map Prod.fst).head?, top.blockHash = block.blockHash → top = block) :
    s'.Tracked p genesis levels.tail := by
  obtain ⟨hhash, hheight, undo, hload, rfl⟩ := disconnectBlock_eq_ok.mp hdis
  obtain ⟨hsound, hparams, hbuilt, hbest, hlt, hrecs, hnorecs⟩ := h
  generalize hv : s.utxoSet.view = view at hbuilt
  generalize htip : s.bestHash = tip at hbuilt
  cases hbuilt with
  | nil =>
    -- nothing was connected, so there is no record to undo with
    have hnone := (hnorecs block.blockHash not_mem_nil).undoBytes_eq
    rw [UtxoSet.loadUndo, hnone] at hload
    cases hload
  | @cons levels base top batch below committed fresh worth unique =>
    obtain rfl : top = block := htop top rfl (htip.symm.trans hhash.symm)
    obtain rfl : height = levels.length + 1 := hheight.trans hbest
    obtain ⟨undo', hdis', hsound', hview'⟩ := disconnectBlock_of_committed committed env hsound hv
      htip hheight.symm (hrecs _ mem_cons_self)
    rw [hdis] at hdis'
    have hs := (Prod.mk.inj hdis').2
    rw [if_created_eq fresh] at hview'
    rw [← hs] at hsound' hview'
    refine ⟨hsound', hparams, ?_, rfl, lt_of_succ_lt hlt, fun l hl => ?_, fun hash hne => ?_⟩
    · rw [hview']
      exact below
    · refine recorded_undoBlock_of_ne (hrecs l (mem_cons_of_mem _ hl)) (fun heq => ?_) undo
      exact unique (mem_map.mpr ⟨l, hl, heq.symm⟩)
    · by_cases heq : top.blockHash = hash
      · exact heq ▸ recorded_undoBlock undo
      · refine recorded_undoBlock_of_ne (hnorecs hash ?_) heq undo
        rw [map_cons, mem_cons, not_or]
        exact ⟨Ne.symm heq, hne⟩

end

end Tracked

end ChainState

/-! ## No inflation -/

namespace ChainState

/-- A chain state at height 0 over an empty store. -/
structure Fresh (n : Network) (s : ChainState) : Prop where
  params : s.params = ConsensusParams.forNetwork n
  utxoSet : ∃ cap budget, s.utxoSet = UtxoSet.openDb UtxoDb.empty cap budget
  bestHeight : s.bestHeight = 0

/-- What a lookup says an outpoint is worth. -/
def amountAt (s : ChainState) (o : OutPoint) : Nat :=
  match (s.utxoSet.get o).1 with
  | .ok found => coinValue found
  | .error _ => 0

/-- **No inflation and no overflow**: the coins are worth at most the subsidies
of the connected heights, these are within the money supply, and no addition
made when a block is validated overflows. -/
structure NoInflation [Hashing] [ScriptEngine] (s : ChainState) : Prop where
  supply : AtMost s.amountAt (s.params.subsidyUpTo s.bestHeight)
  money : s.params.subsidyUpTo s.bestHeight ≤ maxMoney
  additions : ∀ env block height mtp bip110 msg,
    (s.validateTransactions env block height mtp bip110).1 ≠ .error (.panic msg)

variable [Hashing] {n : Network} {s : ChainState}

theorem Fresh.tracked (h : s.Fresh n) :
    s.Tracked (forNetwork n) s.bestHash [] := by
  obtain ⟨cap, budget, hu⟩ := h.utxoSet
  have hdb : UtxoDb.empty.WellFormed := fun _ _ hd => (by cases hd)
  refine ⟨?_, h.params, ?_, h.bestHeight, by decide, fun _ hl => (by cases hl), fun hash _ => ?_⟩
  · rw [hu]
    exact UtxoSet.sound_openDb hdb cap budget
  · rw [hu]
    exact .nil
  · rw [hu]
    exact ⟨fun _ hp => (by cases hp), Or.inr rfl⟩

theorem Tracked.noInflation [ScriptEngine] {genesis : Hash} {levels : List (Block × UtxoBatch)}
    (h : s.Tracked (forNetwork n) genesis levels) : s.NoInflation := by
  have hmoney := subsidyUpTo_le_maxMoney n levels.length
  have hworth := h.built.atMost
  refine ⟨?_, ?_, fun env block height mtp bip110 msg he => ?_⟩
  · rw [h.params, h.bestHeight]
    refine hworth.of_le fun o => ?_
    rw [amountAt, h.consistent.get_eq]
  · rw [h.params, h.bestHeight]
    exact hmoney
  · have hno := noOverflow_validateTransactions h.consistent (hworth.mono hmoney) env block height
      mtp bip110 _ he
    cases hno

end ChainState

namespace History

variable [Hashing] [ScriptEngine] {n : Network} {h : History}

section

variable {genesis : Hash} {levels : List (Block × UtxoBatch)}
  (ht : h.state.Tracked (forNetwork n) genesis levels)
  (hl : levels.map Prod.fst = h.connected)
include ht hl

/-- **One call** of a linear chain leaves the state on top of the stack. -/
theorem exists_tracked_step {c : ChainCall} (hc : h.Admissible c) :
    ∃ levels', (h.step c).state.Tracked (ConsensusParams.forNetwork n) genesis levels'
      ∧ levels'.map Prod.fst = (h.step c).connected := by
  cases c with
  | connect env block height =>
    rcases hconn : h.state.connectBlock env block height with ⟨_ | txids, s'⟩ <;>
      simp only [step, hconn]
    · exact ⟨levels, ht.of_rejected (ChainState.rejected_of_connectBlock_eq_error hconn), hl⟩
    · obtain ⟨hprev, hheight, hlt, hnew, hunique⟩ := hc (by rw [hconn]; rfl)
      obtain ⟨batch, hb⟩ := ChainState.exists_connected ht.consistent hconn
      refine ⟨(block, batch) :: levels, ht.connect
        (subsidyUpTo_le_maxMoney n _) hb hprev hheight hlt (fun o ho => ?_) ?_,
        congrArg (block :: ·) hl⟩
      · have hcontains := hnew o ho
        rwa [ht.sound.contains_eq, Option.isSome_eq_false_iff, Option.isNone_iff_eq_none]
          at hcontains
      · rwa [← hl, map_map] at hunique
  | disconnect env block height =>
    rcases hdis : h.state.disconnectBlock env block height with ⟨_ | u, s'⟩ <;>
      simp only [step, hdis]
    · obtain rfl := ChainState.disconnectBlock_of_error hdis
      exact ⟨levels, ht, hl⟩
    · refine ⟨levels.tail, ht.disconnect hdis ?_, ?_⟩
      · rw [hl]
        exact hc
      · rw [map_tail, hl]

theorem exists_tracked_run {calls : List ChainCall} (hcalls : h.RunAdmissible calls) :
    ∃ levels', (h.run calls).state.Tracked (ConsensusParams.forNetwork n) genesis levels' := by
  induction calls generalizing h levels with
  | nil => exact ⟨levels, ht⟩
  | cons c cs ih =>
    obtain ⟨levels', ht', hl'⟩ := exists_tracked_step ht hl hcalls.1
    exact ih ht' hl' hcalls.2

end

/-- **No inflation along a linear chain**: from an empty store at height 0,
however blocks are connected to the tip and disconnected as they were
connected. -/
theorem noInflation_of_runAdmissible {s : ChainState} (hs : s.Fresh n) {calls : List ChainCall}
    (hcalls : RunAdmissible ⟨s, []⟩ calls) : (run ⟨s, []⟩ calls).state.NoInflation := by
  have ht : (⟨s, []⟩ : History).state.Tracked (forNetwork n) s.bestHash [] :=
    hs.tracked
  obtain ⟨levels, hrun⟩ := exists_tracked_run ht rfl hcalls
  exact hrun.noInflation

/-- A block is connected one above the tip. -/
def FollowsTip (h : History) : ChainCall → Bool
  | .connect _ _ height => height == h.state.bestHeight + 1
  | .disconnect _ _ _ => true

/-- Every block of a run is connected one above the tip. -/
def Consecutive (h : History) : List ChainCall → Bool
  | [] => true
  | c :: cs => h.FollowsTip c && Consecutive (h.step c) cs

end History

/-- No run from an empty store at height 0 inflates, in whatever order blocks
are connected at consecutive heights and disconnected. -/
def NeverInflates : Prop :=
  ∀ [Hashing] [ScriptEngine] (n : Network) (s : ChainState) (calls : List ChainCall),
    s.Fresh n → History.Consecutive ⟨s, []⟩ calls →
    (History.run ⟨s, []⟩ calls).state.NoInflation

section Sample

attribute [local instance] sampleHashing sampleScripts

/-- An empty store, with the header of the first block. -/
def emptyChain : ChainState :=
  sampleState (sampleIndex [(1, 0, 0)]) (UtxoSet.openDb UtxoDb.empty 0 0) 1 0

theorem fresh_emptyChain : emptyChain.Fresh .regtest := ⟨rfl, ⟨0, 0, rfl⟩, rfl⟩

/-- Two blocks, the second disconnected again. -/
theorem noInflation_twoBlocks :
    (History.run ⟨emptyChain, []⟩
      [.connect sampleEnv (sampleBlock 1 2 10 1 1001 []) 1,
        .connect sampleEnv (sampleBlock 2 3 11 2 1002 []) 2,
        .disconnect sampleEnv (sampleBlock 2 3 11 2 1002 []) 2]).state.NoInflation :=
  History.noInflation_of_runAdmissible fresh_emptyChain
    ⟨fun _ => ⟨by decide, by decide, by decide, by decide, by decide⟩,
      fun _ => ⟨by decide, by decide, by decide, by decide, by decide⟩, by
        intro top htop _
        exact (Option.some.inj htop).symm, trivial⟩

/-- Block 102 spends the first coinbase. -/
def spendingBlock : Block :=
  sampleBlock 101 102 200 101 3001 [sampleSpend 2001 [⟨1001#256, 0⟩] [5000000000]]

/-- Block 103, on block 102, moves the coin on. -/
def movingBlock : Block :=
  sampleBlock 102 103 201 102 1101 [sampleSpend 1102 [⟨2001#256, 0⟩] [5000000000]]

/-- Block 104 is on block 102 as well. -/
def siblingBlock : Block := sampleBlock 102 104 202 103 3003 []

/-- A hundred blocks, then blocks 102 and 103 and, at the height after, block
104. Disconnecting block 104 makes block 102 the tip, and disconnecting that
puts the first coinbase back, which has moved on in block 103. -/
def siblingRun : List ChainCall :=
  (List.range 100).map (fun i =>
    .connect sampleEnv (sampleBlock (i + 1) (i + 2) (10 + i) (i + 1) (1001 + i) []) (i + 1))
  ++ [.connect sampleEnv spendingBlock 101, .connect sampleEnv movingBlock 102,
    .connect sampleEnv siblingBlock 103, .disconnect sampleEnv siblingBlock 103,
    .disconnect sampleEnv spendingBlock 102]

/-- Outpoints named from 1001 on. -/
def siblingOutpoints : List OutPoint :=
  (List.range 102).map fun i => ⟨BitVec.ofNat 256 (1001 + i), 0⟩

theorem siblingRun_inflates : History.Consecutive ⟨emptyChain, []⟩ siblingRun = true
    ∧ (History.run ⟨emptyChain, []⟩ siblingRun).state.bestHeight = 101
    ∧ (siblingOutpoints.map (History.run ⟨emptyChain, []⟩ siblingRun).state.amountAt).sum
      = 102 * 5000000000 := by
  decide +kernel

/-- **A run inflates**: a hundred and one heights are connected, and a hundred
and two subsidies unspent. -/
theorem not_neverInflates : ¬ NeverInflates := by
  intro h
  obtain ⟨hcons, hheight, hsum⟩ := siblingRun_inflates
  have hsupply := (h .regtest emptyChain siblingRun fresh_emptyChain hcons).supply.sum_list_le
    (by decide +kernel : siblingOutpoints.Nodup)
  rw [hsum, hheight] at hsupply
  exact absurd (hsupply.trans (subsidyUpTo_le _ 101)) (by decide)

end Sample
