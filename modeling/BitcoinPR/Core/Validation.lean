import BitcoinPR.Core.Merkle
import BitcoinPR.Core.Work
import BitcoinPR.Storage.HeaderIndex
import BitcoinPR.Lib.Checked
import Mathlib.Data.List.Sort

/-!
# Context-free and contextual checks of a block

The checks `connectBlock` makes before it looks at coins, each with the error
the code returns. The clock is an argument. Walks along parent links are
bounded as the code bounds them – eleven headers for the median time – or by
the height, which decreases.
-/

section

variable [Hashing]

/-- Check a header: proof of work, target, parent, and a timestamp at most two
hours ahead of `now`. The addition of the two hours wraps in 32 bits. -/
def validateBlockHeader (header : Header) (height : Nat) (prevHeader : Option Header)
    (params : ConsensusParams) (now : UInt32) : Except CoreError Unit := do
  let target := header.target
  rejectIf (params.signetChallenge.isNone && !header.validatePow) .invalidProofOfWork
  rejectIf (params.powLimit < target) (.invalidDifficultyTarget
    s!"target Target({target}) exceeds pow limit Target({params.powLimit})")
  match prevHeader with
  | some prev =>
    rejectIf (header.prevBlockhash ≠ prev.blockHash)
      (.invalidBlockHash prev.blockHash header.prevBlockhash)
  | none =>
    rejectIf (height = 0 ∧ header.prevBlockhash ≠ Hash.allZeros)
      (.invalidBlockHash Hash.allZeros header.prevBlockhash)
  rejectIf (now + 2 * 60 * 60 < header.time) (.invalidTimestamp
    s!"block time {header.time} is more than 2 hours in the future (adjusted now: {now})")

/-- The merkle root of the block is that of its transaction ids, and the tree
is not mutated. Mutation is reported first. -/
def verifyMerkleRootWithTxids (block : Block) (txids : List Hash) : Except CoreError Unit :=
  match rootDetectingMutation txids with
  | .error e => .error e
  | .ok (none, _) => .error .invalidMerkleRoot
  | .ok (some computed, mutated) =>
    if mutated then
      .error (.invalidTransaction "bad-txns-duplicate (CVE-2012-2459: mutated merkle tree)")
    else if computed ≠ block.header.merkleRoot then .error .invalidMerkleRoot
    else .ok ()

end

/-- The money supply, in satoshis. -/
def maxMoney : Nat := 21000000 * 100000000

/-- Each output value and their sum are at most `maxMoney`. -/
def checkOutputValues : List TxOut → Nat → Except CoreError Unit
  | [], _ => .ok ()
  | o :: os, total =>
    if maxMoney < o.value.toNat then .error (.invalidTransaction "bad-txns-vout-toolarge")
    else if total + o.value.toNat < 2 ^ 64 ∧ total + o.value.toNat ≤ maxMoney then
      checkOutputValues os (total + o.value.toNat)
    else .error (.invalidTransaction "bad-txns-txouttotal-toolarge")

/-- Context-free checks of a transaction. -/
def checkTransaction (tx : Tx) : Except CoreError Unit := do
  rejectIf tx.input.isEmpty (.invalidTransaction "bad-txns-vin-empty")
  rejectIf tx.output.isEmpty (.invalidTransaction "bad-txns-vout-empty")
  checkOutputValues tx.output 0
  rejectIf (!tx.isCoinbase && tx.input.any fun i => i.previousOutput == OutPoint.null)
    (.invalidTransaction "bad-txns-prevout-null")
  -- the code looks for a repeated prevout in three ways, by the input count
  rejectIf (¬ (tx.input.map TxIn.previousOutput).Nodup)
    (.invalidTransaction "bad-txns-inputs-duplicate")

def validateBlockWeight (block : Block) (params : ConsensusParams) : Except CoreError Unit :=
  if params.maxBlockWeight.toNat < block.weight then
    .error (.blockWeightExceeded block.weight params.maxBlockWeight.toNat)
  else .ok ()

/-- The height a coinbase script starts with (BIP 34). -/
def encodedHeight (script : Bytes) : Except CoreError Nat :=
  match script with
  | [] => .error (.invalidCoinbase "BIP 34: coinbase scriptSig is empty")
  | first :: rest =>
    if first = 0x00 then .ok 0
    else if 0x51 ≤ first ∧ first ≤ 0x60 then .ok (first.toNat - 0x50)
    else if 0x01 ≤ first ∧ first ≤ 0x09 then
      if rest.length < first.toNat then
        .error (.invalidCoinbase "BIP 34: invalid height encoding (truncated push)")
      else
        let data := rest.take first.toNat
        let value := if data.getLast? = some 0x00 ∧ 1 < first.toNat then data.dropLast else data
        if 4 < value.length then .error (.invalidCoinbase "BIP 34: height too large")
        else .ok (ofLeBytes value)
    else
      .error (.invalidCoinbase
        s!"BIP 34: unsupported height encoding (first byte 0x{hexPad 2 first.toNat})")

/-- The first transaction is a well-formed coinbase that names its height. -/
def validateCoinbase (block : Block) (height : Nat) (params : ConsensusParams) :
    Except CoreError Unit := do
  match block.txdata with
  | [] => .error (.invalidCoinbase "block has no transactions")
  | coinbase :: _ =>
    rejectIf (!coinbase.isCoinbase) (.invalidCoinbase "first transaction is not coinbase")
    let script := (coinbase.input.head?.map TxIn.scriptSig).getD []
    let scriptLen := script.length
    rejectIf (¬ (2 ≤ scriptLen ∧ scriptLen ≤ 100)) (.invalidCoinbase
      s!"coinbase script too small or large: {scriptLen} bytes (must be 2–100)")
    if params.bip34Height ≤ height then
      let encoded ← encodedHeight script
      rejectIf (encoded ≠ height) (.invalidCoinbase
        s!"BIP 34: height mismatch: encoded={encoded}, expected={height}")

/-! ## Witness commitment -/

/-- Whether a transaction other than the coinbase carries a witness. -/
def blockHasWitness (block : Block) : Bool :=
  block.txdata.tail.any fun tx => tx.input.any fun i => !i.witness.isEmpty

/-- Whether a script is a witness commitment. -/
def isCommitment (script : Bytes) : Bool :=
  decide (38 ≤ script.length)
    && script.take 6 == [0x6a, 0x24, 0xaa, 0x21, 0xa9, 0xed]

/-- The number 32 bytes spell, as a hash. -/
def hashOfBytes (bytes : Bytes) : Hash := BitVec.ofNat 256 (ofLeBytes bytes)

/-- The coinbase commits to the witness ids of the block; a block without
witnesses needs no commitment. -/
def validateWitnessCommitmentWithWtxids [Hashing] (block : Block) (wtxids : List Hash) :
    Except CoreError Unit :=
  if !blockHasWitness block then .ok ()
  else
    match block.txdata with
    | [] => .ok ()
    | coinbase :: _ =>
      match coinbase.output.reverse.find? fun o => isCommitment o.scriptPubkey with
      | none =>
        .error (.invalidTransaction "BIP 141: missing witness commitment in coinbase")
      | some o =>
        let expected := (o.scriptPubkey.drop 6).take 32
        let nonce := match coinbase.input.head?.bind fun i => i.witness.head? with
          | some item => if item.length = 32 then item else List.replicate 32 0
          | none => List.replicate 32 0
        let witnessRoot := merkleRoot (Hash.allZeros :: wtxids.tail)
        if Hashing.hashPair witnessRoot (hashOfBytes nonce) ≠ hashOfBytes expected then
          .error (.invalidTransaction "BIP 141: witness commitment mismatch")
        else .ok ()

/-- The commitment is checked where a block needs one. -/
def checkCommitment [Hashing] (params : ConsensusParams) (block : Block) (height : Nat) :
    Except CoreError Unit :=
  checkIf (params.segwitHeight ≤ height ∧ blockHasWitness block)
    (validateWitnessCommitmentWithWtxids block (block.txdata.map Tx.computeWtxid))

/-! ## Median time past and required work -/

/-- The times of at most `n` headers, from `hash` down. -/
def ancestorTimes (ix : HeaderIndex) : Nat → Hash → List Nat
  | 0, _ => []
  | n + 1, hash =>
    match ix.getHeader hash with
    | some stored => stored.header.time.toNat :: ancestorTimes ix n stored.header.prevBlockhash
    | none => []

/-- The median time of eleven headers; `none` when the first is missing. -/
def getMedianTimePast (ix : HeaderIndex) (tip : Hash) : Option Nat :=
  let times := ancestorTimes ix 11 tip
  (times.insertionSort (· ≤ ·))[times.length / 2]?

/-- Multiply 64-bit limbs, lowest first; the carry out of the last is
dropped. -/
def mulLimbs (numerator : Nat) : List Nat → Nat → List Nat
  | [], _ => []
  | limb :: limbs, carry =>
    let product := limb * numerator + carry
    product % 2 ^ 64 :: mulLimbs numerator limbs (product / 2 ^ 64)

/-- Divide 64-bit limbs, from the highest down; the remainder comes back with
the quotient. -/
def divLimbs (denominator : Nat) : List Nat → List Nat × Nat
  | [] => ([], 0)
  | limb :: limbs =>
    let (quotient, remainder) := divLimbs denominator limbs
    let dividend := remainder * 2 ^ 64 + limb
    (dividend / denominator % 2 ^ 64 :: quotient, dividend % denominator)

/-- Multiply a 256-bit target by a ratio, in four 64-bit limbs. -/
def multiplyTargetByRatio (target numerator denominator : Nat) : Nat :=
  let limbs := (List.range 4).map fun i => target / 2 ^ (64 * i) % 2 ^ 64
  (divLimbs denominator (mulLimbs numerator limbs 0)).1.foldr (fun l n => l + 2 ^ 64 * n) 0

/-- The target after a difficulty period. -/
def calculateNextWorkRequired (first last : Header) (params : ConsensusParams) : UInt32 :=
  if params.powNoRetargeting then last.bits
  else
    let minTimespan : Int := params.powTargetTimespan / 4
    let maxTimespan : Int := params.powTargetTimespan * 4
    let actual := max minTimespan
      (min maxTimespan ((last.time.toNat : Int) - (first.time.toNat : Int)))
    let newTarget :=
      multiplyTargetByRatio last.target actual.toNat params.powTargetTimespan
    toCompactLossy (min newTarget params.powLimit)

/-- Walk down from `scan` while its target is the limit and it does not open a
period; heights decrease along stored parents, and a missing parent ends the
walk. -/
def minDifficultyWalk (lookup : Hash → Option StoredHeader) (interval : Nat)
    (limitBits : UInt32) : Nat → StoredHeader → StoredHeader
  | 0, scan => scan
  | fuel + 1, scan =>
    if scan.height % interval ≠ 0 ∧ scan.header.bits = limitBits then
      match lookup scan.header.prevBlockhash with
      | some parent => minDifficultyWalk lookup interval limitBits fuel parent
      | none => scan
    else scan

/-- Walk down to the first block of the period. -/
def periodStartWalk (lookup : Hash → Option StoredHeader) (target : Nat) :
    Nat → StoredHeader → Option StoredHeader
  | fuel, cur =>
    if cur.height ≤ target then some cur
    else match fuel with
      | 0 => none
      | fuel + 1 =>
        match lookup cur.header.prevBlockhash with
        | some parent =>
          if parent.height < cur.height then periodStartWalk lookup target fuel parent else none
        | none => none

/-- The compact target required of the block after `prevHash`; `none` when an
ancestor is missing. -/
def getNextWorkRequiredWith (lookup : Hash → Option StoredHeader) (params : ConsensusParams)
    (prevHash : Hash) (prevHeight : Nat) (candidateTime : UInt32) : Option UInt32 := do
  let prev ← lookup prevHash
  let nextHeight := prevHeight + 1
  if params.powNoRetargeting then return prev.header.bits
  let interval := params.difficultyAdjustmentInterval
  if nextHeight % interval ≠ 0 then
    if params.powAllowMinDifficultyBlocks then
      let limitBits := toCompactLossy params.powLimit
      if prev.header.time + UInt32.ofNat params.powTargetSpacing * 2 < candidateTime then
        return limitBits
      return (minDifficultyWalk lookup interval limitBits (prev.height + 1) prev).header.bits
    return prev.header.bits
  let start ← periodStartWalk lookup (nextHeight - interval) prev.height prev
  if start.height ≠ nextHeight - interval then none
  return calculateNextWorkRequired start.header prev.header params

def getNextWorkRequired (ix : HeaderIndex) (params : ConsensusParams) (prevHash : Hash)
    (prevHeight : Nat) (candidateTime : UInt32) : Option UInt32 :=
  getNextWorkRequiredWith ix.getHeader params prevHash prevHeight candidateTime

/-! ## Lock times -/

/-- Locktimes below this are heights. -/
def locktimeThreshold : Nat := 500000000

def isFinalTx (tx : Tx) (height blockTime : Nat) : Bool :=
  let lt := tx.lockTime.toNat
  if lt = 0 then true
  else
    let threshold := if lt < locktimeThreshold then height else blockTime
    if lt < threshold then true else tx.input.all fun i => i.sequence == 0xffffffff

/-- Whether a sequence number opts out of relative locktime. -/
def sequenceDisabled (s : UInt32) : Bool := s &&& ((1 : UInt32) <<< 31) != 0

/-- Whether a relative locktime is in time units. -/
def sequenceTimeBased (s : UInt32) : Bool := s &&& ((1 : UInt32) <<< 22) != 0

/-- The relative locktime of one input. -/
def checkSequenceLock (i : Nat) (input : TxIn) (inputHeight inputTime blockHeight blockMtp : Nat) :
    Except CoreError Unit :=
  if sequenceDisabled input.sequence then .ok ()
  else
    let masked := (input.sequence &&& 0xffff).toNat
    if sequenceTimeBased input.sequence then
      let required := (inputTime + masked * 512) % 2 ^ 32
      if blockMtp < required then
        .error (.invalidTransaction
          s!"BIP 68: input {i} time lock not satisfied (need MTP >= {required}, have {blockMtp})")
      else .ok ()
    else
      let required := (inputHeight + masked) % 2 ^ 32
      if blockHeight < required then
        .error (.invalidTransaction
          s!"BIP 68: input {i} height lock not satisfied (need >= {required}, have {blockHeight})")
      else .ok ()

def checkSequenceLocks (inputHeights inputTimes : List Nat) (blockHeight blockMtp : Nat) :
    Nat → List TxIn → Except CoreError Unit
  | _, [] => .ok ()
  | i, input :: inputs => do
    checkSequenceLock i input (inputHeights.getD i 0) (inputTimes.getD i 0) blockHeight blockMtp
    checkSequenceLocks inputHeights inputTimes blockHeight blockMtp (i + 1) inputs

/-- BIP 68, for transactions of version 2 and above. -/
def validateSequenceLocks (tx : Tx) (inputHeights inputTimes : List Nat)
    (blockHeight blockMtp : Nat) : Except CoreError Unit :=
  if tx.version < 2 then .ok ()
  else checkSequenceLocks inputHeights inputTimes blockHeight blockMtp 0 tx.input

/-- The least height and the least median time at which the relative locktimes
of the inputs from the `i`-th on are met, from those of the inputs before. -/
def lockPoints (inputHeights inputTimes : List Nat) : Nat → List TxIn → Nat × Nat → Nat × Nat
  | _, [], points => points
  | i, input :: inputs, points =>
    let masked := (input.sequence &&& 0xffff).toNat
    let points :=
      if sequenceDisabled input.sequence then points
      else if sequenceTimeBased input.sequence then
        (points.1, max points.2 ((inputTimes.getD i 0 + masked * 512) % 2 ^ 32))
      else (max points.1 ((inputHeights.getD i 0 + masked) % 2 ^ 32), points.2)
    lockPoints inputHeights inputTimes (i + 1) inputs points

/-- The lock points of a transaction (BIP 68). -/
def sequenceLockPoints (tx : Tx) (inputHeights inputTimes : List Nat) : Nat × Nat :=
  if tx.version < 2 then (0, 0) else lockPoints inputHeights inputTimes 0 tx.input (0, 0)
