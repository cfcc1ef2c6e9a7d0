import BitcoinPR.Core.Bip110
import BitcoinPR.Core.Script
import BitcoinPR.Storage.Undo

/-!
# Connecting and disconnecting blocks

`ChainState.connectBlock` validates a block against the chain state and, when
it accepts, stores its undo record, applies its batch of coins and moves the
tip. It never compares the block's parent with the tip: the parent only has to
be in the header index. `ChainState.disconnectBlock` undoes the tip block.

What the code reads besides the chain state is in `Env`: the clock, the
orders in which hash maps are iterated and parallel script checks end, and
whether the build checks overflow. A failed call may still have filled caches,
so every operation returns the state beside its result.

Transactions are validated one after the other against the store *as it was
before the block*, with an overlay of the outputs the block has created so
far. The lookups of that loop leave the store as the prefetch made it
(`UtxoSet.get_prefetch`), so the loop takes the lookup as a function.
-/

/-- A script check queued by the loop: input `vin` of `tx`, with all outputs
the transaction spends. -/
structure ScriptCheck where
  tx : Tx
  vin : Nat
  prevouts : List TxOut
  wtxid : Hash
  enforceBip110 : Bool
deriving DecidableEq, Repr

/-- What a call reads besides the chain state. -/
structure Env where
  /-- The network-adjusted time. -/
  now : UInt32
  /-- How the maps of the UTXO set are iterated. -/
  order : MapOrder
  /-- The order in which parallel script checks end. -/
  checkOrder : IterOrder ScriptCheck
  /-- How the shards of the signature cache are iterated. -/
  sigOrder : IterOrder SigKey
  /-- Whether the build checks integer overflow. -/
  overflow : Overflow

/-- The chain state. -/
structure ChainState where
  params : ConsensusParams
  headerIndex : HeaderIndex
  utxoSet : UtxoSet
  sigCache : SigCache
  bestHeight : Nat
  bestHash : Hash
  bip110Cache : Bip110Cache

/-! ## The transaction loop -/

/-- What the loop reads: the block's context and the store's lookups. -/
structure TxContext where
  params : ConsensusParams
  height : Nat
  blockTime : Nat
  blockMtp : Nat
  flags : ScriptFlags
  verifyScripts : Bool
  bip110 : Bip110Activation
  get : OutPoint → Except StorageError (Option UtxoEntry)
  contains : OutPoint → Bool
  /-- The median time before the block that confirmed a coin of this height. -/
  coinTime : Nat → Option Nat
  overflow : Overflow

/-- What the loop has gathered so far. -/
structure LoopState where
  batch : UtxoBatch
  spentInBlock : List OutPoint
  intraBlockUtxos : OutPoint → Option UtxoEntry
  totalFees : UInt64
  totalSigopCost : Nat
  scriptChecks : List ScriptCheck

def LoopState.init : LoopState := ⟨UtxoBatch.new, [], fun _ => none, 0, 0, []⟩

/-- What the inputs of one transaction have gathered so far. -/
structure InputState where
  loop : LoopState
  inputSum : UInt64
  prevouts : List TxOut
  inputHeights : List Nat

/-- The coins a transaction creates: its outputs other than `OP_RETURN`. -/
def createdCoins (txid : Hash) (height : Nat) (isCoinbase : Bool) :
    Nat → List TxOut → List (OutPoint × UtxoEntry)
  | _, [] => []
  | vout, o :: os =>
    if isOpReturn o.scriptPubkey then createdCoins txid height isCoinbase (vout + 1) os
    else (Tx.outpoint txid vout, ⟨o.value, o.scriptPubkey, height, isCoinbase⟩)
      :: createdCoins txid height isCoinbase (vout + 1) os

/-- Add created coins to the overlay and to the batch. -/
def LoopState.create (st : LoopState) (coins : List (OutPoint × UtxoEntry)) : LoopState :=
  { st with
    batch := { st.batch with inserts := st.batch.inserts ++ coins }
    intraBlockUtxos := PartialMap.putAll st.intraBlockUtxos coins }

/-- BIP 30 applies below the BIP 34 height, with two exceptions. -/
def TxContext.checksBip30 (ctx : TxContext) : Bool :=
  !(decide (ctx.height = 91842 ∨ ctx.height = 91880) && ctx.params.network == .bitcoin)
    && decide (ctx.height < ctx.params.bip34Height)

/-- BIP 30: no output of the transaction is unspent. -/
def checkBip30 (ctx : TxContext) (txid : Hash) (outputs : Nat) : Except CoreError Unit :=
  if ctx.checksBip30
      && (List.range outputs).any fun vout => ctx.contains (Tx.outpoint txid vout) then
    .error (.invalidTransaction
      s!"BIP 30: duplicate txid {Hash.hex txid} has unspent outputs")
  else .ok ()

/-- The sigops of a transaction that do not depend on what it spends. -/
def legacySigops (tx : Tx) : Nat :=
  (tx.output.map fun o => countSigops o.scriptPubkey false).sum
    + (tx.input.map fun i => countSigops i.scriptSig false).sum

/-- The sigop cost of an input given the script it spends: P2SH sigops four
times, witness sigops once. -/
def inputSigopCost (flags : ScriptFlags) (scriptPubkey : Bytes) (input : TxIn) : Nat :=
  (if flags.verifyP2sh && isP2sh scriptPubkey then
    match p2shRedeemScript input.scriptSig with
    | some redeem => countSigops redeem true * 4
    | none => 0
  else 0)
  + (if flags.verifyWitness then
      witnessSigopCost scriptPubkey input.scriptSig input.witness
    else 0)

/-- The coin an input spends: the store first, then the overlay of the outputs
this block has created. -/
def lookupCoin (ctx : TxContext) (overlay : OutPoint → Option UtxoEntry) (o : OutPoint) :
    Except CoreError UtxoEntry :=
  match ctx.get o with
  | .error e => .error (.storage e)
  | .ok found =>
    match found.or (overlay o) with
    | some utxo => .ok utxo
    | none => .error (.missingUtxo o.display)

/-- What spending a coin adds to what is gathered. -/
def InputState.spend (acc : InputState) (flags : ScriptFlags) (input : TxIn) (utxo : UtxoEntry)
    (inputSum : UInt64) : InputState where
  loop := { acc.loop with
    batch := { acc.loop.batch with
      removals := acc.loop.batch.removals ++ [input.previousOutput]
      spentUtxos := acc.loop.batch.spentUtxos ++ [⟨input.previousOutput, utxo⟩] }
    spentInBlock := input.previousOutput :: acc.loop.spentInBlock
    totalSigopCost :=
      acc.loop.totalSigopCost + inputSigopCost flags utxo.scriptPubkey input }
  inputSum := inputSum
  prevouts := acc.prevouts ++ [⟨utxo.amount, utxo.scriptPubkey⟩]
  inputHeights := acc.inputHeights ++ [utxo.height]

/-- A coinbase output can be spent only some blocks later. -/
def TxContext.immature (ctx : TxContext) (utxo : UtxoEntry) : Bool :=
  utxo.isCoinbase && decide (ctx.height - utxo.height < ctx.params.coinbaseMaturity)

/-- Spend one input. -/
def spendInput (ctx : TxContext) (txid : Hash) (acc : InputState) (vin : Nat) (input : TxIn) :
    Except CoreError InputState := do
  let o := input.previousOutput
  rejectIf (o ∈ acc.loop.spentInBlock)
    (.doubleSpend s!"outpoint {o.display} spent twice in block")
  let utxo ← lookupCoin ctx acc.loop.intraBlockUtxos o
  rejectIf (ctx.immature utxo)
    (.invalidTransaction (s!"tx {Hash.hex txid} input {vin}: spending immature coinbase "
      ++ s!"at height {ctx.height} (coinbase height={utxo.height}, "
      ++ s!"age={ctx.height - utxo.height}, required={ctx.params.coinbaseMaturity})"))
  let inputSum ← addU64 ctx.overflow acc.inputSum utxo.amount
  return acc.spend ctx.flags input utxo inputSum

def spendInputs (ctx : TxContext) (txid : Hash) :
    Nat → List TxIn → InputState → Except CoreError InputState
  | _, [], acc => .ok acc
  | vin, input :: inputs, acc => do
    spendInputs ctx txid (vin + 1) inputs (← spendInput ctx txid acc vin input)

/-- Whether the relative locktimes of a transaction need median times. -/
def needsTimeMtp (tx : Tx) : Bool :=
  decide (2 ≤ tx.version)
    && tx.input.any fun i => !sequenceDisabled i.sequence && sequenceTimeBased i.sequence

/-- The median times the relative locktimes of the inputs count from. -/
def inputTimes (ctx : TxContext) (txid : Hash) : List Nat → Except CoreError (List Nat)
  | [] => .ok []
  | coinHeight :: rest =>
    match ctx.coinTime coinHeight with
    | none => .error (.chainContext
        (s!"cannot compute BIP 68 time reference (MTP at height {coinHeight - 1}) for tx "
          ++ s!"{Hash.hex txid} input prevout confirmed at height {coinHeight}"))
    | some t => do return t :: (← inputTimes ctx txid rest)

/-- The median times are looked up only if they are needed. -/
def lockTimes (ctx : TxContext) (txid : Hash) (tx : Tx) (inputHeights : List Nat) :
    Except CoreError (List Nat) :=
  if needsTimeMtp tx then inputTimes ctx txid inputHeights
  else .ok (List.replicate tx.input.length 0)

/-- BIP 68, from its activation on. -/
def checkBip68 (ctx : TxContext) (txid : Hash) (tx : Tx) (inputHeights : List Nat) :
    Except CoreError Unit :=
  checkIf (ctx.params.csvHeight ≤ ctx.height) do
    let times ← lockTimes ctx txid tx inputHeights
    validateSequenceLocks tx inputHeights times ctx.height ctx.blockMtp

/-- The script checks of a transaction. -/
def queueChecks (ctx : TxContext) (tx : Tx) (wtxid : Hash) (prevouts : List TxOut)
    (inputHeights : List Nat) : List ScriptCheck :=
  if ctx.verifyScripts then
    inputHeights.zipIdx.map fun p =>
      ⟨tx, p.2, prevouts, wtxid,
        ctx.bip110.enforcing && ctx.bip110.activationHeight.any fun a => decide (a ≤ p.1)⟩
  else []

/-- What every transaction is checked for, whatever it spends. -/
def checkTxShape (ctx : TxContext) (txid : Hash) (tx : Tx) : Except CoreError Unit := do
  checkTransaction tx
  checkIf ctx.bip110.enforcing (checkBip110OutputScripts tx)
  checkBip30 ctx txid tx.output.length

variable [Hashing]

/-- The coinbase only creates. -/
def validateCoinbaseTx (ctx : TxContext) (tx : Tx) (st : LoopState) : LoopState :=
  LoopState.create { st with totalSigopCost := st.totalSigopCost + legacySigops tx * 4 }
    (createdCoins tx.computeTxid ctx.height true 0 tx.output)

/-- What a transaction adds to what is gathered, once its inputs are spent. -/
def LoopState.accept (ctx : TxContext) (tx : Tx) (acc : InputState) (totalFees : UInt64) :
    LoopState :=
  LoopState.create { acc.loop with
    scriptChecks := acc.loop.scriptChecks
      ++ queueChecks ctx tx tx.computeWtxid acc.prevouts acc.inputHeights
    totalFees := totalFees }
    (createdCoins tx.computeTxid ctx.height false 0 tx.output)

/-- The time that time-based locktimes are compared with (BIP 113). -/
def TxContext.locktimeTime (ctx : TxContext) : Nat :=
  if ctx.params.csvHeight ≤ ctx.height then ctx.blockMtp else ctx.blockTime

/-- What the inputs of a transaction start from. -/
def LoopState.startInputs (st : LoopState) (tx : Tx) : InputState :=
  ⟨{ st with totalSigopCost := st.totalSigopCost + legacySigops tx * 4 }, 0, [], []⟩

/-- A transaction other than the coinbase spends, pays a fee and creates. -/
def validateSpendingTx (ctx : TxContext) (tx : Tx) (st : LoopState) :
    Except CoreError LoopState := do
  let txid := tx.computeTxid
  rejectIf (!isFinalTx tx ctx.height ctx.locktimeTime)
    (.invalidTransaction (s!"bad-txns-nonfinal: tx {Hash.hex txid} is not final at "
      ++ s!"height {ctx.height} (locktime_time {ctx.locktimeTime})"))
  let acc ← spendInputs ctx txid 0 tx.input (st.startInputs tx)
  checkBip68 ctx txid tx acc.inputHeights
  let outputSum ← sumU64 ctx.overflow (tx.output.map TxOut.value) 0
  rejectIf (acc.inputSum < outputSum)
    (.invalidTransaction s!"outputs ({outputSum}) exceed inputs ({acc.inputSum})")
  let totalFees ← addU64 ctx.overflow acc.loop.totalFees (acc.inputSum - outputSum)
  return LoopState.accept ctx tx acc totalFees

/-- Validate the transaction at position `txIdx`. -/
def validateTx (ctx : TxContext) (txIdx : Nat) (tx : Tx) (st : LoopState) :
    Except CoreError LoopState := do
  checkTxShape ctx tx.computeTxid tx
  if txIdx = 0 then return validateCoinbaseTx ctx tx st
  else validateSpendingTx ctx tx st

def validateTxs (ctx : TxContext) : Nat → List Tx → LoopState → Except CoreError LoopState
  | _, [], st => .ok st
  | txIdx, tx :: txs, st => do
    validateTxs ctx (txIdx + 1) txs (← validateTx ctx txIdx tx st)

/-- The cost limit on signature operations. -/
def maxBlockSigopsCost : Nat := 80000

/-- The limits on the whole block: signature operations, and the value of the
coinbase. -/
def checkBlockTotals (ctx : TxContext) (txs : List Tx) (st : LoopState) :
    Except CoreError Unit := do
  rejectIf (maxBlockSigopsCost < st.totalSigopCost) (.invalidTransaction
    s!"block sigop cost {st.totalSigopCost} exceeds limit {maxBlockSigopsCost}")
  match txs with
  | [] => return ()
  | coinbase :: _ =>
    let coinbaseValue ← sumU64 ctx.overflow (coinbase.output.map TxOut.value) 0
    let maxValue ← addU64 ctx.overflow (ctx.params.blockSubsidy ctx.height) st.totalFees
    rejectIf (maxValue < coinbaseValue) (.invalidSubsidy maxValue coinbaseValue)

/-- The loop and the totals: everything but the scripts. -/
def validateLoop (ctx : TxContext) (txs : List Tx) : Except CoreError LoopState := do
  let st ← validateTxs ctx 0 txs LoopState.init
  checkBlockTotals ctx txs st
  return st

/-! ## Script checks -/

section Scripts

variable [ScriptEngine]

/-- Run one check, unless the cache vouches for it; a success is cached. -/
def runScriptCheck (flags : ScriptFlags) (ρ : IterOrder SigKey) (cache : SigCache)
    (c : ScriptCheck) : Except CoreError SigCache :=
  let flags := { flags with verifyBip110 := c.enforceBip110 }
  let key := SigCache.key c.wtxid c.vin flags
  if cache.contains key then .ok cache
  else do
    ScriptEngine.verifyScript c.tx c.vin c.prevouts flags
    return cache.insert ρ key

/-- Run the checks in the order they end; the first failure is the result, and
the cache keeps what succeeded before it. -/
def runScriptChecks (flags : ScriptFlags) (ρ : IterOrder SigKey) :
    List ScriptCheck → SigCache → Except CoreError Unit × SigCache
  | [], cache => (.ok (), cache)
  | c :: cs, cache =>
    match runScriptCheck flags ρ cache c with
    | .error e => (.error (.invalidScript s!"script check failed: {e.display}"), cache)
    | .ok cache => runScriptChecks flags ρ cs cache

end Scripts

namespace ChainState

/-- The BIP-110 state machine runs when a deployment is defined and no height
overrides it. -/
def bip110Checker (s : ChainState) : Option Bip110Deployment :=
  match s.params.bip110Deployment, s.params.bip110ActivationHeight with
  | some dep, none => some dep
  | _, _ => none

def bip110Activation (s : ChainState) (prevHash : Hash) (height : Nat) :
    Bip110Activation × Bip110Cache :=
  activationAt s.headerIndex s.params s.bip110Checker s.bip110Cache prevHash height

/-- Whether the scripts of a block are verified: not at or below the
assume-valid block, if that block's header is known. -/
def verifyScripts (s : ChainState) (hash : Hash) (height : Nat) : Bool :=
  match s.params.assumeValid with
  | none => true
  | some assumeHash =>
    if hash = assumeHash then false
    else match s.headerIndex.getHeader assumeHash with
      | some av => decide (av.height < height)
      | none => true

/-- The median time past of a block's parent; the first block has none. -/
def blockMtp (s : ChainState) (block : Block) (height : Nat) : Except CoreError Nat :=
  if 0 < height then
    match getMedianTimePast s.headerIndex block.header.prevBlockhash with
    | some mtp => .ok mtp
    | none => .error (.chainContext
        (s!"cannot compute median-time-past for block {Hash.hex block.blockHash} at height "
          ++ s!"{height} (prev header {Hash.hex block.header.prevBlockhash} missing)"))
  else .ok 0

/-- The block's target is the one required of it. -/
def checkBits (s : ChainState) (block : Block) (height : Nat) : Except CoreError Unit :=
  if 0 < height ∧ s.params.signetChallenge.isNone then
    match getNextWorkRequired s.headerIndex s.params block.header.prevBlockhash (height - 1)
        block.header.time with
    | none => .error (.chainContext
        (s!"cannot compute required nBits for block {Hash.hex block.blockHash} at height "
          ++ s!"{height} (ancestor headers missing)"))
    | some expected =>
      if block.header.bits ≠ expected then
        .error (.invalidDifficultyTarget
          (s!"nBits mismatch at height {height}: expected 0x{hexPad 8 expected.toNat}, "
            ++ s!"got 0x{hexPad 8 block.header.bits.toNat}"))
      else .ok ()
  else .ok ()

/-- The header checks, which come first. -/
def checkHeader (s : ChainState) (now : UInt32) (block : Block) (height : Nat) :
    Except CoreError Unit :=
  let prevHeader := if 0 < height then
      (s.headerIndex.getHeader block.header.prevBlockhash).map StoredHeader.header
    else none
  validateBlockHeader block.header height prevHeader s.params now

/-- The checks of the body that need no coins: merkle root, weight, coinbase,
witness commitment. -/
def checkBody (s : ChainState) (block : Block) (height : Nat) : Except CoreError Unit := do
  verifyMerkleRootWithTxids block (block.txdata.map Tx.computeTxid)
  validateBlockWeight block s.params
  validateCoinbase block height s.params
  checkCommitment s.params block height

/-- The checks against the ancestors: median time and target. The median time
is what locktimes are compared with. -/
def checkAncestors (s : ChainState) (block : Block) (height : Nat) :
    Except CoreError Nat := do
  let mtp ← s.blockMtp block height
  rejectIf (0 < height ∧ block.header.time.toNat ≤ mtp) (.invalidTimestamp
    s!"block time {block.header.time} is not after median-time-past {mtp}")
  s.checkBits block height
  return mtp

/-- Everything checked before the coins, in order. -/
def checkBlock (s : ChainState) (now : UInt32) (block : Block) (height : Nat) :
    Except CoreError Nat := do
  s.checkHeader now block height
  s.checkBody block height
  s.checkAncestors block height

/-- In the mandatory-signaling window a block signals. -/
def checkMandatorySignaling (s : ChainState) (bip110 : Bip110Activation) (block : Block)
    (height : Nat) : Except CoreError Unit :=
  match s.bip110Checker with
  | some dep =>
    rejectIf (bip110.violatesMandatorySignaling dep height block.header.versionBits)
      (.invalidBlock (s!"BIP-110: block at height {height} in the mandatory-signaling window "
        ++ s!"must signal bit {dep.bit}"))
  | none => .ok ()

/-- The context of the transaction loop. -/
def txContext (s : ChainState) (overflow : Overflow) (block : Block) (height mtp : Nat)
    (bip110 : Bip110Activation) : TxContext where
  params := s.params
  height := height
  blockTime := block.header.time.toNat
  blockMtp := mtp
  flags := ScriptFlags.forHeight height block.header.time.toNat s.params
  verifyScripts := s.verifyScripts block.blockHash height
  bip110 := bip110
  get o := (s.utxoSet.get o).1
  contains := s.utxoSet.contains
  coinTime coinHeight :=
    (s.headerIndex.getHashAtHeight (coinHeight - 1)).bind (getMedianTimePast s.headerIndex)
  overflow := overflow

/-- The outpoints a block spends, the coinbase apart. -/
def spentOutpoints (block : Block) : List OutPoint :=
  block.txdata.tail.flatMap fun tx => tx.input.map TxIn.previousOutput

/-- Fetch the coins a block spends. -/
def prefetchBlock (s : ChainState) (block : Block) : ChainState :=
  { s with utxoSet := s.utxoSet.prefetch (spentOutpoints block) }

variable [ScriptEngine]

/-- Validate the transactions of a block and build its batch. -/
def validateTransactions (s : ChainState) (env : Env) (block : Block) (height mtp : Nat)
    (bip110 : Bip110Activation) : Except CoreError UtxoBatch × ChainState :=
  let s := s.prefetchBlock block
  let ctx := s.txContext env.overflow block height mtp bip110
  match validateLoop ctx block.txdata with
  | .error e => (.error e, s)
  | .ok st =>
    let (result, cache) :=
      runScriptChecks ctx.flags env.sigOrder (env.checkOrder.order st.scriptChecks) s.sigCache
    let s := { s with sigCache := cache }
    match result with
    | .error e => (.error e, s)
    | .ok _ => (.ok st.batch, s)

/-- Make the header of a connected block canonical, and store it with its work
if it is not stored yet. -/
def indexHeader (ix : HeaderIndex) (block : Block) (height : Nat) : HeaderIndex :=
  let hash := block.blockHash
  let ix := ix.setHeightHash height hash
  match ix.getHeader hash with
  | some _ => ix
  | none =>
    match ix.getHeader block.header.prevBlockhash with
    | some parent => ix.insertHeader hash
        ⟨block.header, height, addChainWork parent.chainWork (calculateWork block.header.target)⟩
    | none => ix

/-- Record a validated block: header, undo record, coins, tip. -/
def commitBlock (s : ChainState) (env : Env) (block : Block) (height : Nat)
    (batch : UtxoBatch) : ChainState :=
  let hash := block.blockHash
  let ix := indexHeader s.headerIndex block height
  let utxo := (s.utxoSet.storeUndo hash batch.spentUtxos (batch.inserts.map Prod.fst)
    block.header.prevBlockhash).setPendingFlushHeight height hash
  let (utxo, flushed) := utxo.applyBatch env.order batch
  { s with
    headerIndex := if flushed then (ix.setBestTip hash height).setValidatedHeight height else ix
    utxoSet := utxo
    sigCache := if height % 10000 = 0 then s.sigCache.clear else s.sigCache
    bestHeight := height
    bestHash := hash }

/-- **Connect a block**: validate it, update the UTXO set, move the tip. The
transaction ids come back. -/
def connectBlock (s : ChainState) (env : Env) (block : Block) (height : Nat) :
    Except CoreError (List Hash) × ChainState :=
  match s.checkBlock env.now block height with
  | .error e => (.error e, s)
  | .ok mtp =>
    let (bip110, cache) := s.bip110Activation block.header.prevBlockhash height
    let s := { s with bip110Cache := cache }
    match s.checkMandatorySignaling bip110 block height with
    | .error e => (.error e, s)
    | .ok _ =>
      match s.validateTransactions env block height mtp bip110 with
      | (.error e, s) => (.error e, s)
      | (.ok batch, s) =>
        (.ok (block.txdata.map Tx.computeTxid), s.commitBlock env block height batch)

omit [ScriptEngine]

/-- The outpoints a block created, last transaction first. -/
def createdOutpoints (block : Block) : List OutPoint :=
  block.txdata.reverse.flatMap fun tx =>
    (createdCoins tx.computeTxid 0 false 0 tx.output).map Prod.fst

/-- The batch that reverses a block. -/
def reverseBatch (block : Block) (undo : UndoData) : UtxoBatch :=
  ⟨undo.coins, createdOutpoints block, []⟩

/-- Drop the canonical entry of a height, unless it already names another
block. -/
def unindexHeight (ix : HeaderIndex) (hash : Hash) (height : Nat) : HeaderIndex :=
  match ix.getHashAtHeight height with
  | some h => if h ≠ hash then ix else ix.deleteHeightEntry height
  | none => ix.deleteHeightEntry height

/-- Undo a block with its undo record: coins, header index, tip. -/
def undoBlock (s : ChainState) (env : Env) (block : Block) (height : Nat) (undo : UndoData) :
    ChainState :=
  let hash := block.blockHash
  let prev := block.header.prevBlockhash
  let utxo := ((s.utxoSet.setPendingFlushHeight (height - 1) prev).applyBatch env.order
    (reverseBatch block undo)).1
  { s with
    headerIndex := (unindexHeight s.headerIndex hash height).setBestTip prev (height - 1)
    utxoSet := (utxo.deleteUndo hash).flushToDisk env.order
    bestHeight := height - 1
    bestHash := prev }

/-- **Disconnect the tip block**, from its undo record. -/
def disconnectBlock (s : ChainState) (env : Env) (block : Block) (height : Nat) :
    Except CoreError Unit × ChainState :=
  let hash := block.blockHash
  if hash ≠ s.bestHash then
    (.error (.invalidTransaction (s!"cannot disconnect block {Hash.hex hash} — not the current "
      ++ s!"tip {Hash.hex s.bestHash}")), s)
  else if height ≠ s.bestHeight then
    (.error (.invalidTransaction
      s!"height mismatch: expected {s.bestHeight}, got {height}"), s)
  else
    match s.utxoSet.loadUndo hash with
    | .error e => (.error (.storage e), s)
    | .ok none => (.error (.undoMissing hash height), s)
    | .ok (some undo) => (.ok (), s.undoBlock env block height undo)

end ChainState
