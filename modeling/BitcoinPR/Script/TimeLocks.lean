import BitcoinPR.Core.Positions
import BitcoinPR.Core.Reorg
import BitcoinPR.Core.SequenceLocks
import BitcoinPR.Script.Executions

/-!
# Time locks on the chain

A script can ask for its coin to be old (`OP_CHECKSEQUENCEVERIFY`) or for the
block to be late (`OP_CHECKLOCKTIMEVERIFY`). Neither opcode looks at the chain:
each compares its operand with a field of the transaction, and block validation
gives that field its meaning – finality to the locktime, BIP 68 to the sequence
numbers. The guarantee holds where the two halves meet.

For the locktime they meet at every height but zero. For sequence numbers they
do not. BIP 68 leaves transactions below version 2 alone, and the opcode does not
ask for the version, so that such a transaction may name whatever sequence number
its script wants to see. Where BIP 68 does look, its sums are taken modulo 2^32, and
the age of a coin is counted from the height index, which need not name an
ancestor of the block.
-/

namespace ChainState

/-! ## The age of a coin -/

/-- The `k`-th header up from a header. -/
def ancestorHash (ix : HeaderIndex) : Nat → Hash → Option Hash
  | 0, hash => some hash
  | k + 1, hash => (ix.getHeader hash).bind fun v => ancestorHash ix k v.header.prevBlockhash

section Age

variable (s : ChainState) (block : Block) (height : Nat)

/-- The header before the block that confirmed a coin, on the block's own branch; that of
the first block is the first block itself. -/
def coinParent (e : UtxoEntry) : Option Hash :=
  ancestorHash s.headerIndex (height - max e.height 1) block.header.prevBlockhash

/-- The median time a coin's age counts from. -/
def coinMtp (e : UtxoEntry) : Option Nat :=
  (s.coinParent block height e).bind (getMedianTimePast s.headerIndex)

/-- The median time past of the block. -/
def parentMtp : Option Nat := getMedianTimePast s.headerIndex block.header.prevBlockhash

/-- **A coin is as old as a sequence number asks**, in blocks or in units of 512 seconds
of median time. -/
def OldEnough (e : UtxoEntry) (sequence : UInt32) : Prop :=
  if sequenceTimeBased sequence then
    ∃ t mtp, s.coinMtp block height e = some t ∧ s.parentMtp block = some mtp
      ∧ t + (sequence &&& 0xffff).toNat * 512 ≤ mtp
  else e.height + (sequence &&& 0xffff).toNat ≤ height

/-- **A block is past a locktime**: its height, or its median time, is above it. -/
def Past (n : Nat) : Prop :=
  if n < locktimeThreshold then n < height else ∃ mtp, s.parentMtp block = some mtp ∧ n < mtp

/-- **BIP 68 measures the age of a coin right**: the transaction is of version 2 or above,
the sums stay in 32 bits, and the height index names the block's own ancestor. -/
structure Measured (tx : Tx) (e : UtxoEntry) : Prop where
  version : 2 ≤ tx.version
  heights : e.height + 0xffff < 2 ^ 32
  times : ∀ t, s.coinMtp block height e = some t → t + 0xffff * 512 < 2 ^ 32
  branch : s.headerIndex.getHashAtHeight (e.height - 1) = s.coinParent block height e

variable {s block height}

/-- Older than asked is old enough. -/
theorem OldEnough.mono {e : UtxoEntry} {a b : UInt32}
    (h : s.OldEnough block height e b) (htype : sequenceTimeBased a = sequenceTimeBased b)
    (hle : a &&& 0xffff ≤ b &&& 0xffff) : s.OldEnough block height e a := by
  have hle' : (a &&& 0xffff).toNat ≤ (b &&& 0xffff).toNat := UInt32.le_iff_toNat_le.mp hle
  unfold OldEnough at h ⊢
  rw [htype]
  split at h
  · rename_i ht
    obtain ⟨t, mtp, hcoin, hmtp, hage⟩ := h
    rw [if_pos ht]
    exact ⟨t, mtp, hcoin, hmtp,
      Nat.le_trans (Nat.add_le_add_left (Nat.mul_le_mul_right 512 hle') t) hage⟩
  · rename_i ht
    rw [if_neg ht]
    exact Nat.le_trans (Nat.add_le_add_left hle' e.height) h

theorem and_ffff_le (a : UInt32) : (a &&& 0xffff).toNat ≤ 0xffff := by
  exact Nat.and_le_right

/-! ## What block validation checks -/

variable [Hashing] {env : Env}

omit [Hashing] in
/-- The median times that BIP 68 looks up, one for each input. -/
theorem getElem?_inputTimes {ctx : TxContext} {txid : Hash} {heights times : List Nat}
    (h : inputTimes ctx txid heights = .ok times) {i coinHeight : Nat}
    (hi : heights[i]? = some coinHeight) :
    ∃ t, ctx.coinTime coinHeight = some t ∧ times[i]? = some t := by
  induction heights generalizing times i with
  | nil => cases hi
  | cons first heights ih =>
    cases htime : ctx.coinTime first with
    | none => simp [inputTimes, htime] at h
    | some t =>
      simp only [inputTimes, htime, Except.bind_eq_ok, Except.pure_eq_ok] at h
      obtain ⟨rest, hrest, rfl⟩ := h
      cases i with
      | zero =>
        obtain rfl := Option.some.inj hi
        exact ⟨t, htime, rfl⟩
      | succ i => exact ih hrest hi

omit [Hashing] in
/-- What BIP 68 has compared for an input, with the time it looked up. -/
theorem exists_checkSequenceLock {ctx : TxContext} {txid : Hash} {tx : Tx} {heights : List Nat}
    (h : checkBip68 ctx txid tx heights = .ok ()) (hcsv : ctx.params.csvHeight ≤ ctx.height)
    (hversion : 2 ≤ tx.version) {vin coinHeight : Nat} {input : TxIn}
    (hinput : tx.input[vin]? = some input) (hcoin : heights[vin]? = some coinHeight)
    (hd : sequenceDisabled input.sequence = false) :
    ∃ t, checkSequenceLock vin input coinHeight t ctx.height ctx.blockMtp = .ok ()
      ∧ (sequenceTimeBased input.sequence = true → ctx.coinTime coinHeight = some t) := by
  obtain ⟨times, htimes, hlocks⟩ := Except.bind_eq_ok.mp (checkIf_eq_ok.mp h hcsv)
  rw [validateSequenceLocks, if_neg (Int32.not_lt.mpr hversion)] at hlocks
  have hcheck := checkSequenceLocks_eq_ok.mp hlocks vin input hinput
  rw [Nat.zero_add, List.getD_eq_getElem?_getD, hcoin] at hcheck
  refine ⟨times.getD vin 0, hcheck, fun ht => ?_⟩
  have hneeds : needsTimeMtp tx = true := by
    unfold needsTimeMtp
    rw [decide_eq_true hversion, Bool.true_and, List.any_eq_true]
    exact ⟨input, List.mem_of_getElem? hinput, by rw [hd, ht]; rfl⟩
  rw [lockTimes, if_pos hneeds] at htimes
  obtain ⟨t, htime, hget⟩ := getElem?_inputTimes htimes hcoin
  rw [htime, List.getD_eq_getElem?_getD, hget]
  rfl

theorem parentMtp_of_blockMtp {mtp : Nat} (hheight : 0 < height)
    (h : s.blockMtp block height = .ok mtp) : s.parentMtp block = some mtp := by
  rw [blockMtp, if_pos hheight] at h
  unfold parentMtp
  cases hm : getMedianTimePast s.headerIndex block.header.prevBlockhash with
  | none => simp [hm] at h
  | some m =>
    simp only [hm, Except.ok.injEq] at h
    rw [h]

variable {i : Nat} {tx : Tx} {mtp vin : Nat} {input : TxIn}
  (hp : s.Placed env block height i tx mtp) (hmtp : s.blockMtp block height = .ok mtp)
  (hcsv : s.params.csvHeight ≤ height) (hheight : 0 < height)
  (hinput : tx.input[vin]? = some input)
include hp hmtp hcsv hheight hinput

/-- **BIP 68 has checked the age of a coin**, where it measures right. -/
theorem Placed.oldEnough {e : UtxoEntry}
    (he : (s.spentCoins block height i tx)[vin]? = some e)
    (hm : s.Measured block height tx e) (hd : sequenceDisabled input.sequence = false) :
    s.OldEnough block height e input.sequence := by
  have hcoin : ((s.spentCoins block height i tx).map UtxoEntry.height)[vin]? = some e.height := by
    rw [List.getElem?_map, he]
    rfl
  obtain ⟨t, hcheck, htime⟩ := exists_checkSequenceLock hp.locks hcsv hm.version hinput hcoin hd
  have hmask := and_ffff_le input.sequence
  unfold OldEnough
  by_cases ht : sequenceTimeBased input.sequence = true
  · rw [if_pos ht]
    have hcoinMtp : s.coinMtp block height e = some t := by
      unfold coinMtp
      rw [← hm.branch]
      exact htime ht
    have hrange := hm.times t hcoinMtp
    have hmet := (checkSequenceLock_eq_ok fun _ => ?_).mp hcheck hd
    · unfold SequenceMet lockStart lockValue at hmet
      simp only [if_pos ht] at hmet
      exact ⟨t, mtp, hcoinMtp, parentMtp_of_blockMtp hheight hmtp, hmet⟩
    · unfold lockStart lockValue
      rw [if_pos ht, if_pos ht]
      exact Nat.lt_of_le_of_lt (Nat.add_le_add_left (Nat.mul_le_mul_right 512 hmask) t) hrange
  · rw [if_neg ht]
    have hrange := hm.heights
    have hmet := (checkSequenceLock_eq_ok fun _ => ?_).mp hcheck hd
    · unfold SequenceMet lockStart lockValue at hmet
      simp only [if_neg ht, Nat.mul_one] at hmet
      exact hmet
    · unfold lockStart lockValue
      rw [if_neg ht, if_neg ht, Nat.mul_one]
      exact Nat.lt_of_le_of_lt (Nat.add_le_add_left hmask e.height) hrange

/-- **Finality has checked the locktime**, if an input does not opt out of it. -/
theorem Placed.past {n : Nat} (hseq : input.sequence ≠ 0xffffffff) (hn : n ≤ tx.lockTime.toNat)
    (htype : locktimeThreshold ≤ n ↔ locktimeThreshold ≤ tx.lockTime.toNat) :
    s.Past block height n := by
  have hfinal := hp.final
  have htime : (s.blockContext env block height mtp).locktimeTime = mtp := if_pos hcsv
  rw [htime, isFinalTx] at hfinal
  unfold Past
  by_cases h0 : tx.lockTime.toNat = 0
  · have hn0 : n = 0 := by omega
    rw [if_pos (by rw [hn0]; decide)]
    omega
  · have hopt : (tx.input.all fun i => i.sequence == 0xffffffff) = false := by
      rw [List.all_eq_false]
      exact ⟨input, List.mem_of_getElem? hinput, by simpa using hseq⟩
    simp only [if_neg h0, hopt] at hfinal
    by_cases hlt : tx.lockTime.toNat < locktimeThreshold
    · simp only [if_pos hlt] at hfinal
      have hpast : tx.lockTime.toNat < height := by
        by_contra hle
        rw [if_neg hle] at hfinal
        cases hfinal
      rw [if_pos (by omega)]
      omega
    · simp only [if_neg hlt] at hfinal
      have hpast : tx.lockTime.toNat < mtp := by
        by_contra hle
        rw [if_neg hle] at hfinal
        cases hfinal
      rw [if_neg (by omega)]
      exact ⟨mtp, parentMtp_of_blockMtp hheight hmtp, by omega⟩

end Age

/-! ## Scripts and blocks together -/

section Engine

attribute [local instance] Script.engine

variable [Hashing] [ScriptCrypto] (s : ChainState) (env : Env) (block : Block) (height : Nat)

/-- The flags a check is run under. -/
def checkFlags (c : ScriptCheck) : ScriptFlags :=
  (s.blockFlags block height).withBip110 c.enforceBip110

/-- The script of a check is executed when the block is connected, or would pass if the cache
did not vouch for it. -/
def Executed (c : ScriptCheck) : Prop :=
  c ∈ s.executedChecks env block height
    ∨ Script.verifyScript c.tx c.vin c.prevouts (s.checkFlags block height c) = .ok ()

/-- **A check ran a lock-time opcode on an operand**, in whatever script it executes. -/
def RanOn (c : ScriptCheck) (code : UInt8) (n : Nat) : Prop :=
  ∃ sp : Script.Spend, sp.tx = c.tx ∧ sp.inputIndex = c.vin ∧ sp.prevouts = c.prevouts
    ∧ sp.RanOn (s.checkFlags block height c) code n

/-- **Relative locks hold for an input**: whatever operand `OP_CHECKSEQUENCEVERIFY` ran on,
the coin is that old. -/
def SequencesHold (i : Nat) (tx : Tx) (vin : Nat) : Prop :=
  ∀ e n, (s.spentCoins block height i tx)[vin]? = some e →
    s.Executed env block height (s.inputCheck block height i tx vin) →
    s.RanOn block height (s.inputCheck block height i tx vin) 0xb2 n →
    sequenceDisabled (UInt32.ofNat n) = false → s.OldEnough block height e (UInt32.ofNat n)

/-- **Absolute locks hold for an input**: the block is past whatever operand
`OP_CHECKLOCKTIMEVERIFY` ran on. -/
def LockTimesHold (i : Nat) (tx : Tx) (vin : Nat) : Prop :=
  ∀ n, s.Executed env block height (s.inputCheck block height i tx vin) →
    s.RanOn block height (s.inputCheck block height i tx vin) 0xb1 n → s.Past block height n

/-- **The age of a coin is enforced**: BIP 68 measures it right, or the coin is as old as
the input says anyway. -/
def AgeEnforced (i : Nat) (tx : Tx) (vin : Nat) : Prop :=
  ∀ e input, (s.spentCoins block height i tx)[vin]? = some e → tx.input[vin]? = some input →
    sequenceDisabled input.sequence = false →
    (0 < height ∧ s.Measured block height tx e) ∨ s.OldEnough block height e input.sequence

variable {s env block height}

/-- A check that was executed, in a block that was connected, has passed. -/
theorem Executed.verify {c : ScriptCheck} {sp : Script.Spend}
    (hexec : ∀ c ∈ s.executedChecks env block height,
      Script.verifyScript c.tx c.vin c.prevouts (s.checkFlags block height c) = .ok ())
    (h : s.Executed env block height c) (htx : sp.tx = c.tx) (hvin : sp.inputIndex = c.vin)
    (hprev : sp.prevouts = c.prevouts) : sp.verify (s.checkFlags block height c) = .ok () := by
  rw [← Script.verifyScript_spend, htx, hvin, hprev]
  exact h.elim (hexec c) id

/-- **Time locks of a connected block.** Every input is checked; its relative locks hold
where the age of its coin is enforced, and its absolute locks above the first block. -/
theorem locksHold_of_connectBlock {s' : ChainState} {txids : List Hash}
    (h : s.connectBlock env block height = (.ok txids, s'))
    (hon : s.verifyScripts block.blockHash height = true)
    (hcsv : s.params.csvHeight ≤ height) (hcltv : s.params.bip65Height ≤ height) {i : Nat}
    {tx : Tx} {vin : Nat} (hi : 0 < i) (htx : block.txdata[i]? = some tx)
    (hvin : vin < tx.input.length) :
    (s.inputCheck block height i tx vin ∈ s.queuedChecks env block height
      ∧ (s.spentCoins block height i tx).length = tx.input.length)
      ∧ (s.AgeEnforced block height i tx vin → s.SequencesHold env block height i tx vin)
      ∧ (0 < height → s.LockTimesHold env block height i tx vin) := by
  obtain ⟨mtp, hmtp, hplaced, hexec⟩ := placed_of_connectBlock h
  have hp := hplaced i tx hi htx
  have hflag : (s.checkFlags block height
      (s.inputCheck block height i tx vin)).verifyChecksequenceverify = true :=
    decide_eq_true hcsv
  have hflag' : (s.checkFlags block height
      (s.inputCheck block height i tx vin)).verifyChecklocktimeverify = true :=
    decide_eq_true hcltv
  refine ⟨⟨hp.queued hon vin hvin, hp.resolved.length_eq.symm⟩, ?_, ?_⟩
  · rintro hage e n he hex ⟨sp, hsptx, hspvin, hspprev, hran⟩ hd
    have hverify := hex.verify hexec hsptx hspvin hspprev
    obtain ⟨hdisabled, htype, hle⟩ := Script.Spend.sequence_of_ranOn hflag' hflag hverify hran hd
    have hinput : tx.input[vin]? = some sp.input := by
      have := sp.input_eq
      rw [hsptx, hspvin] at this
      exact this
    rcases hage e sp.input he hinput hdisabled with ⟨hheight, hm⟩ | hold
    · exact (hp.oldEnough hmtp hcsv hheight hinput he hm hdisabled).mono htype hle
    · exact hold.mono htype hle
  · rintro hheight n hex ⟨sp, hsptx, hspvin, hspprev, hran⟩
    have hverify := hex.verify hexec hsptx hspvin hspprev
    obtain ⟨htype, hn, hseq⟩ := Script.Spend.lockTime_of_ranOn hflag' hflag hverify hran
    have hinput : tx.input[vin]? = some sp.input := by
      have := sp.input_eq
      rw [hsptx, hspvin] at this
      exact this
    rw [hsptx] at htype hn
    exact hp.past hmtp hcsv hheight hinput hseq hn htype

end Engine

end ChainState

attribute [local instance] Script.engine in
/-- **Time locks hold on chain**, for every block connected with its scripts and every
input. -/
def TimeLocksHold : Prop :=
  ∀ [Hashing] [ScriptCrypto] (s s' : ChainState) (env : Env) (block : Block) (height : Nat)
    (txids : List Hash), s.connectBlock env block height = (.ok txids, s') →
    s.verifyScripts block.blockHash height = true → s.params.csvHeight ≤ height →
    s.params.bip65Height ≤ height → ∀ (i : Nat) (tx : Tx) (vin : Nat), 0 < i →
    block.txdata[i]? = some tx → vin < tx.input.length →
      s.SequencesHold env block height i tx vin ∧ s.LockTimesHold env block height i tx vin

section Sample

attribute [local instance] sampleHashing Script.sampleCrypto Script.engine

/-- A coin of the first block, locked for `n` blocks: `<n> OP_CHECKSEQUENCEVERIFY`. -/
def lockedCoin (n : UInt8) : ChainState :=
  sampleState (sampleIndex [(2, 1, 1), (1, 0, 0)])
    (sampleStore [(⟨5#256, 0⟩, ⟨10, [0x50 + n, 0xb2], 0, false⟩)]) 2 1

/-- A transaction that spends it, with a sequence number that says so. -/
def lockedSpend (version : Int32) (n : UInt8) : Tx :=
  ⟨version, 1, [⟨⟨5#256, 0⟩, [], n.toUInt32, []⟩], [⟨10, [0x51]⟩]⟩

/-- The block that holds it, at height 2. -/
def lockedBlock (version : Int32) (n : UInt8) : Block :=
  sampleBlock 2 3 10 2 77 [lockedSpend version n]

/-- The spend of a coin locked for ten blocks, as verification sees it. -/
def lockedInput (version : Int32) : Script.Spend :=
  ⟨lockedSpend version 10, 0, [⟨10, [0x5a, 0xb2]⟩], ⟨⟨5#256, 0⟩, [], 10, []⟩, ⟨10, [0x5a, 0xb2]⟩,
    rfl, rfl⟩

/-- It runs `OP_CHECKSEQUENCEVERIFY` on ten. -/
theorem ranOn_lockedInput (version : Int32) (flags : ScriptFlags)
    (hprogram : Script.Spend.program flags [0x5a, 0xb2] = none) :
    (lockedInput version).RanOn flags 0xb2 10 := by
  have hsaved : (lockedInput version).runScriptSig flags = .ok [] := rfl
  refine ⟨_, ⟨[[10]], [], []⟩, .scriptPubkey hprogram hsaved, ⟨rfl, ?_⟩, [10], [], rfl, rfl⟩
  refine ⟨⟨⟨[[10]], [], []⟩, 0, 0, 1⟩, rfl, ?_⟩
  exact Reached.cons rfl Reached.head

/-- A transaction of version 2 spends a coin that is locked for one block. -/
theorem locksHold_lockedBlock :
    (lockedCoin 1).SequencesHold sampleEnv (lockedBlock 2 1) 2 1 (lockedSpend 2 1) 0
      ∧ (lockedCoin 1).LockTimesHold sampleEnv (lockedBlock 2 1) 2 1 (lockedSpend 2 1) 0 := by
  have hconnect : ((lockedCoin 1).connectBlock sampleEnv (lockedBlock 2 1) 2).1
      = .ok [77#256, 1#256] := by decide +kernel
  have htx : (lockedBlock 2 1).txdata[1]? = some (lockedSpend 2 1) := rfl
  have hvin : 0 < (lockedSpend 2 1).input.length := by decide
  have hholds := ChainState.locksHold_of_connectBlock (Prod.ext hconnect rfl) (by decide)
    (by decide) (by decide) (by decide) htx hvin
  refine ⟨hholds.2.1 ?_, hholds.2.2 (by decide)⟩
  intro e input he hinput _
  have hcoin : (lockedCoin 1).spentCoins (lockedBlock 2 1) 2 1 (lockedSpend 2 1)
      = [⟨10, [0x51, 0xb2], 0, false⟩] := by decide +kernel
  rw [hcoin] at he
  obtain rfl := Option.some.inj he
  refine Or.inl ⟨by decide, by decide, by decide, ?_, by decide +kernel⟩
  have hmtp : (lockedCoin 1).coinMtp (lockedBlock 2 1) 2 ⟨10, [0x51, 0xb2], 0, false⟩ = some 0 := by
    decide +kernel
  intro t ht
  obtain rfl := Option.some.inj ht
  decide

/-- A transaction of version 1 spends a coin locked for ten blocks after two. -/
theorem not_timeLocksHold : ¬ TimeLocksHold := by
  intro h
  have hconnect : ((lockedCoin 10).connectBlock sampleEnv (lockedBlock 1 10) 2).1
      = .ok [77#256, 1#256] := by decide +kernel
  have hcoin : (lockedCoin 10).spentCoins (lockedBlock 1 10) 2 1 (lockedSpend 1 10)
      = [⟨10, [0x5a, 0xb2], 0, false⟩] := by decide +kernel
  have hholds := (h (lockedCoin 10) _ sampleEnv (lockedBlock 1 10) 2 _ (Prod.ext hconnect rfl)
    (by decide) (by decide) (by decide) 1 (lockedSpend 1 10) 0 (by decide) rfl (by decide)).1
  have hprev : (lockedInput 1).prevouts
      = ((lockedCoin 10).inputCheck (lockedBlock 1 10) 2 1 (lockedSpend 1 10) 0).prevouts := by
    unfold ChainState.inputCheck
    rfl
  have hold := hholds ⟨10, [0x5a, 0xb2], 0, false⟩ 10 (by rw [hcoin]; rfl)
    (Or.inl (by decide +kernel))
    ⟨lockedInput 1, rfl, rfl, hprev, ranOn_lockedInput 1 _ (by decide +kernel)⟩ (by decide)
  rw [ChainState.OldEnough, if_neg (by decide)] at hold
  exact absurd hold (by decide)

end Sample
