import BitcoinPR.Mempool.Pool

/-!
# Accepting a transaction

`Mempool.addTransaction` checks a transaction as if it were in the next block:
its shape, policy and finality, then its inputs – unspent coins or outputs of
transactions of the pool – with their relative locktimes, then fees, families
and scripts. A transaction that spends what others of the pool spend replaces
them with their descendants, if they allow it and it pays more; one that does
not fit into the memory of the pool evicts the cheapest entries.

All of that is planned before anything is changed (`planAdmission`,
`planRoom`), so that a rejected transaction leaves the pool as it was. The one
thing it may leave behind is what the signature cache has learnt.

Confirmed coins are looked up through a function. A lookup may fill the cache
of the store, which changes no later answer.
-/

/-- What a transaction is checked against: the tip, its median time past, the
header index and the BIP-110 state of the next block. -/
structure MempoolChainContext where
  tipHeight : Nat
  tipMtp : Nat
  headerIndex : HeaderIndex
  bip110 : Bip110Activation

/-- The height of the next block. -/
def MempoolChainContext.nextHeight (ctx : MempoolChainContext) : Nat := ctx.tipHeight + 1

/-- What a call reads besides its arguments. -/
structure AcceptEnv (R : Type) where
  /-- Seconds since the epoch. -/
  now : Nat
  /-- How the pool is iterated. -/
  entryOrder : IterOrder (MempoolEntry R)
  /-- How a set of transaction ids is iterated. -/
  idOrder : IterOrder Hash
  /-- The order in which parallel script checks end. -/
  checkOrder : IterOrder ScriptCheck
  /-- How the shards of the signature cache are iterated. -/
  sigOrder : IterOrder SigKey

/-- What the inputs of a transaction have gathered. -/
structure GatheredInputs where
  inputSum : UInt64
  conflicts : List Hash
  prevouts : List TxOut
  inputHeights : List Nat

/-- A transaction that may be admitted, and what it replaces. -/
structure Admission (R : Type) where
  txid : Hash
  fee : UInt64
  size : Nat
  weight : Nat
  feeRate : R
  lockHeight : Nat
  lockTime : Nat
  prevouts : List TxOut
  inputHeights : List Nat
  /-- The transactions replaced, with their descendants. -/
  evict : List Hash
  ancestors : List Hash

/-- The entries given up to make room. -/
structure RoomPlan (R : Type) where
  /-- Everything that is to leave, replaced transactions included. -/
  victims : List Hash
  /-- What leaves to make room. -/
  trimmed : List Hash
  freed : Nat
  newFloor : R

namespace Mempool

variable {R : Type}

/-! ## The transaction by itself -/

/-- The checks that look at neither coins nor pool. -/
def checkAlone [RelayFilters] (policy : RelayPolicy) (ctx : MempoolChainContext) (txid : Hash)
    (tx : Tx) : Except CoreError Unit := do
  rejectIf tx.isCoinbase (.invalidTransaction "coinbase transactions cannot be in mempool")
  checkTransaction tx
  checkRelayPolicy policy txid tx
  checkIf ctx.bip110.enforcing (checkBip110OutputScripts tx)
  rejectIf (!isFinalTx tx ctx.nextHeight ctx.tipMtp) (.invalidTransaction
    (s!"non-final: tx {Hash.hex txid} is not final at next height {ctx.nextHeight} "
      ++ s!"(mtp {ctx.tipMtp})"))

/-! ## Inputs -/

/-- Note the transaction of the pool that spends an outpoint, if it may be
replaced. -/
def noteConflict (pool : Mempool R) (conflicts : List Hash) (o : OutPoint) :
    Except CoreError (List Hash) :=
  match pool.spender o with
  | none => .ok conflicts
  | some existing =>
    match pool.get existing with
    | some entry =>
      if signalsRbf entry.tx then
        .ok (if existing ∈ conflicts then conflicts else conflicts ++ [existing])
      else .error (.doubleSpend
        s!"outpoint {o.display} already spent by non-RBF tx {Hash.hex existing}")
    | none => .error (.doubleSpend
        s!"outpoint {o.display} already spent by mempool tx {Hash.hex existing}")

/-- The output an input spends, with the height it counts as confirmed at: an
unspent coin, or else an output of the pool, which counts as confirmed in the
next block. -/
def lookupPrevout (pool : Mempool R) (get : OutPoint → Except StorageError (Option UtxoEntry))
    (nextHeight : Nat) (o : OutPoint) : Except CoreError (TxOut × Nat) :=
  match get o with
  | .error e => .error (.storage e)
  | .ok (some utxo) => .ok (⟨utxo.amount, utxo.scriptPubkey⟩, utxo.height)
  | .ok none =>
    match pool.poolOutput o with
    | some out => .ok (out, nextHeight)
    | none => .error (.missingUtxo o.display)

/-- Gather one input. -/
def gatherInput (pool : Mempool R) (get : OutPoint → Except StorageError (Option UtxoEntry))
    (overflow : Overflow) (nextHeight : Nat) (acc : GatheredInputs) (input : TxIn) :
    Except CoreError GatheredInputs := do
  let conflicts ← pool.noteConflict acc.conflicts input.previousOutput
  let prevout ← pool.lookupPrevout get nextHeight input.previousOutput
  let inputSum ← addU64 overflow acc.inputSum prevout.1.value
  return ⟨inputSum, conflicts, acc.prevouts ++ [prevout.1], acc.inputHeights ++ [prevout.2]⟩

def gatherInputs (pool : Mempool R) (get : OutPoint → Except StorageError (Option UtxoEntry))
    (overflow : Overflow) (nextHeight : Nat) :
    List TxIn → GatheredInputs → Except CoreError GatheredInputs
  | [], acc => .ok acc
  | input :: inputs, acc => do
    gatherInputs pool get overflow nextHeight inputs
      (← pool.gatherInput get overflow nextHeight acc input)

/-! ## Relative locktimes -/

/-- The median time a relative locktime counts from: that before the block
that confirmed the coin, or the tip's if it is not confirmed. -/
def timeReference (ctx : MempoolChainContext) (txid : Hash) (coinHeight : Nat) :
    Except CoreError Nat :=
  if ctx.tipHeight < coinHeight then .ok ctx.tipMtp
  else
    let h := coinHeight - 1
    match (ctx.headerIndex.getHashAtHeight h).bind (getMedianTimePast ctx.headerIndex) with
    | some mtp => .ok mtp
    | none => .error (.invalidTransaction
        (s!"bip68-time-reference-unavailable: cannot compute MTP at height {h} for tx "
          ++ s!"{Hash.hex txid} input prevout confirmed at height {coinHeight}"))

def timeReferences (ctx : MempoolChainContext) (txid : Hash) :
    List Nat → Except CoreError (List Nat)
  | [] => .ok []
  | coinHeight :: rest => do
    let t ← timeReference ctx txid coinHeight
    return t :: (← timeReferences ctx txid rest)

/-- The text of a locktime that is not met names BIP 68. -/
def nonBip68Final : CoreError → CoreError
  | .invalidTransaction msg => .invalidTransaction s!"non-BIP68-final: {msg}"
  | e => e

/-- Check the relative locktimes as of the next block, from the activation of
BIP 68 on; the median times they count from come back. -/
def checkLocksAtTip (params : ConsensusParams) (ctx : MempoolChainContext) (txid : Hash) (tx : Tx)
    (inputHeights : List Nat) : Except CoreError (List Nat) :=
  let none := List.replicate tx.input.length 0
  if params.csvHeight ≤ ctx.nextHeight then do
    let times ← if needsTimeMtp tx then timeReferences ctx txid inputHeights else .ok none
    (validateSequenceLocks tx inputHeights times ctx.nextHeight ctx.tipMtp).mapError nonBip68Final
    return times
  else .ok none

/-! ## Replacement and fees -/

/-- What is replaced must not be spent, and must not be too much. -/
def checkEvictions (txid : Hash) (tx : Tx) (evict : List Hash) : Except CoreError Unit := do
  rejectIf (tx.input.any fun i => decide (i.previousOutput.txid ∈ evict)) (.invalidTransaction
    (s!"bad-txns-spends-conflicting-tx: tx {Hash.hex txid} spends an output of a tx "
      ++ "it replaces"))
  rejectIf (maxRbfReplacements < evict.length) (.invalidTransaction
    s!"RBF: too many conflicts ({evict.length}), max {maxRbfReplacements}")

section Fees

variable [FeeRates R]

/-- The fee rate reaches the relay rate and the floor of the pool. -/
def checkFeeFloors (pool : Mempool R) (now : Nat) (feeRate : R) : Except CoreError Unit := do
  let rate := FeeRates.display 2 feeRate
  let relay := FeeRates.display 2 (minRelayFeeRate : R)
  rejectIf (feeRate < minRelayFeeRate) (.invalidTransaction
    s!"min relay fee not met: {rate} sat/vB < {relay} sat/vB")
  let floor := FeeRates.display 2 (pool.feeFloor now)
  rejectIf (feeRate < pool.feeFloor now) (.invalidTransaction
    s!"mempool min fee not met: {rate} sat/vB < {floor} sat/vB")

/-- A replacement pays more than everything it replaces, and at a higher
rate. -/
def checkReplacementFees (pool : Mempool R) (overflow : Overflow) (evict : List Hash)
    (fee : UInt64) (feeRate : R) : Except CoreError Unit :=
  checkIf (!evict.isEmpty) do
    let replaced := evict.filterMap pool.get
    let total ← sumU64 overflow (replaced.map MempoolEntry.fee) 0
    rejectIf (fee ≤ total) (.invalidTransaction
      s!"RBF: replacement fee {fee} must exceed conflicting fees {total}")
    let highest := (replaced.map MempoolEntry.feeRate).foldl max FeeRates.zero
    rejectIf (feeRate ≤ highest) (.invalidTransaction
      (s!"RBF: replacement fee rate {FeeRates.display 1 feeRate} must exceed conflicting rate "
        ++ s!"{FeeRates.display 1 highest}"))

/-! ## Families -/

omit [FeeRates R] in
/-- No ancestor gets too many descendants. -/
def checkDescendants (pool : Mempool R) : List Hash → Except CoreError Unit
  | [] => .ok ()
  | ancestor :: rest => do
    let descendants := pool.countDescendants ancestor
    rejectIf (maxDescendants < descendants + 1) (.invalidTransaction
      (s!"too many descendants: ancestor {Hash.hex ancestor} would have {descendants + 1} > "
        ++ s!"{maxDescendants}"))
    pool.checkDescendants rest

omit [FeeRates R] in
def checkFamily (pool : Mempool R) (ρ : IterOrder Hash) (ancestors : List Hash) :
    Except CoreError Unit := do
  rejectIf (maxAncestors < ancestors.length) (.invalidTransaction
    s!"too many ancestors: {ancestors.length} > {maxAncestors}")
  pool.checkDescendants (ρ.order ancestors)

/-! ## The plan -/

variable [Hashing] [RelayFilters]

/-- **Everything checked before the scripts**, in order. -/
def planAdmission (pool : Mempool R) (policy : RelayPolicy) (params : ConsensusParams)
    (get : OutPoint → Except StorageError (Option UtxoEntry)) (overflow : Overflow)
    (ctx : MempoolChainContext) (env : AcceptEnv R) (tx : Tx) :
    Except CoreError (Admission R) := do
  let txid := tx.computeTxid
  checkAlone policy ctx txid tx
  let gathered ← pool.gatherInputs get overflow ctx.nextHeight tx.input ⟨0, [], [], []⟩
  let times ← checkLocksAtTip params ctx txid tx gathered.inputHeights
  let locks := sequenceLockPoints tx gathered.inputHeights times
  let evict := pool.withDescendants gathered.conflicts.reverse []
  checkEvictions txid tx evict
  let outputSum ← sumU64 overflow (tx.output.map TxOut.value) 0
  rejectIf (gathered.inputSum < outputSum) (.invalidTransaction
    s!"outputs ({outputSum}) exceed inputs ({gathered.inputSum})")
  let fee := gathered.inputSum - outputSum
  let feeRate := FeeRates.rate fee ((tx.weight + 3) / 4)
  pool.checkFeeFloors env.now feeRate
  pool.checkReplacementFees overflow evict fee feeRate
  let ancestors := pool.inMempoolAncestors tx
  pool.checkFamily env.idOrder ancestors
  return {
    txid := txid
    fee := fee
    size := tx.totalSize
    weight := tx.weight
    feeRate := feeRate
    lockHeight := locks.1
    lockTime := locks.2
    prevouts := gathered.prevouts
    inputHeights := gathered.inputHeights
    evict := evict
    ancestors := ancestors }

end Fees

/-! ## Scripts -/

/-- The script checks of a transaction: BIP-110 applies to the inputs that
spend coins from its activation on. -/
def scriptChecks [Hashing] (ctx : MempoolChainContext) (tx : Tx) (prevouts : List TxOut)
    (inputHeights : List Nat) : List ScriptCheck :=
  inputHeights.zipIdx.map fun p =>
    ⟨tx, p.2, prevouts, tx.computeWtxid,
      ctx.bip110.enforcing && ctx.bip110.activationHeight.any fun a => decide (a ≤ p.1)⟩

/-- Verify one input, with the signature cache or without. -/
def verifyOne [ScriptEngine] (flags : ScriptFlags) (ρ : IterOrder SigKey)
    (cache : Option SigCache) (c : ScriptCheck) : Except CoreError (Option SigCache) :=
  match cache with
  | some cache => (runScriptCheck flags ρ cache c).map some
  | none => do
    ScriptEngine.verifyScript c.tx c.vin c.prevouts { flags with verifyBip110 := c.enforceBip110 }
    return none

/-- Verify the inputs in the order in which the checks end. -/
def verifyInputs [ScriptEngine] (flags : ScriptFlags) (ρ : IterOrder SigKey) :
    List ScriptCheck → Option SigCache → Except CoreError Unit × Option SigCache
  | [], cache => (.ok (), cache)
  | c :: cs, cache =>
    match verifyOne flags ρ cache c with
    | .error e => (.error e, cache)
    | .ok cache => verifyInputs flags ρ cs cache

/-! ## Making room -/

section Room

variable [FeeRates R]

/-- The first entry of lowest fee rate. -/
def cheapest : List (MempoolEntry R) → Option (MempoolEntry R)
  | [] => none
  | e :: es => some (es.foldl (fun best e => if e.feeRate < best.feeRate then e else best) e)

/-- Give up an entry and its descendants. -/
def giveUp (pool : Mempool R) (plan : RoomPlan R) (victim : MempoolEntry R) : RoomPlan R :=
  let victims := pool.withDescendants [victim.txid] plan.victims
  let found := victims.drop plan.victims.length
  { victims := victims
    trimmed := plan.trimmed ++ found
    freed := plan.freed + (found.map pool.costOf).sum
    newFloor := max plan.newFloor (FeeRates.plus victim.feeRate incrementalRelayFeeRate) }

/-- **Plan what to give up** until the new transaction fits. Every round gives
up an entry that was not given up before, so that the number of entries is
fuel enough. -/
def planRoom (pool : Mempool R) (ρ : IterOrder (MempoolEntry R)) (adm : Admission R)
    (inputs : Nat) : Nat → RoomPlan R → Except CoreError (RoomPlan R)
  | fuel, plan =>
    if pool.memoryUsage + entryCost inputs adm.size ≤ pool.maxMemoryBytes + plan.freed then
      .ok plan
    else
      let full : CoreError := .invalidTransaction
        (s!"mempool full: tx {Hash.hex adm.txid} ({adm.size} bytes) exceeds the mempool "
          ++ "budget")
      match cheapest ((ρ.order pool.entries).filter fun e => decide (e.txid ∉ plan.victims)) with
      | none => .error full
      | some victim =>
        if adm.feeRate ≤ victim.feeRate then
          .error (.invalidTransaction
            (s!"mempool full: fee rate {FeeRates.display 2 adm.feeRate} sat/vB does not exceed "
              ++ s!"the cheapest mempool entry ({FeeRates.display 2 victim.feeRate} sat/vB)"))
        else if victim.txid ∈ adm.ancestors then
          .error (.invalidTransaction
            ("mempool full: making room would evict an in-mempool ancestor of tx "
              ++ Hash.hex adm.txid))
        else match fuel with
          | 0 => .error full
          | fuel + 1 => planRoom pool ρ adm inputs fuel (pool.giveUp plan victim)

/-- The plan before anything is given up: only what is replaced leaves. -/
def startRoom (pool : Mempool R) (adm : Admission R) : RoomPlan R :=
  ⟨adm.evict, [], (adm.evict.map pool.costOf).sum, pool.evictionFeeFloor⟩

/-! ## The change -/

omit [FeeRates R] in
/-- Remove what is replaced and what is given up, and raise the floor. -/
def evictPlanned (pool : Mempool R) (adm : Admission R) (plan : RoomPlan R) (now : Nat) :
    Mempool R :=
  let pool := pool.removeAll adm.evict
  if plan.trimmed.isEmpty then pool
  else { pool.removeAll plan.trimmed with
    evictionFeeFloor := plan.newFloor
    evictionFloorTime := now }

omit [FeeRates R] in
/-- Record an entry and the outpoints it spends. -/
def insertEntry (pool : Mempool R) (entry : MempoolEntry R) : Mempool R :=
  { pool with
    txs := pool.txs.insert entry.txid entry
    spentOutpoints := entry.tx.input.foldl (fun m i => m.insert i.previousOutput entry.txid)
      pool.spentOutpoints
    totalTxBytes := pool.totalTxBytes + entry.size }

omit [FeeRates R] in
/-- The entry of an admitted transaction. -/
def entryOf (adm : Admission R) (tx : Tx) (now : Nat) : MempoolEntry R :=
  ⟨tx, adm.txid, adm.fee, adm.size, adm.weight, adm.feeRate, now, adm.lockHeight, adm.lockTime⟩

variable [Hashing] [ScriptEngine] [RelayFilters]

/-- **Add a transaction** to the pool. -/
def addTransaction (pool : Mempool R) (policy : RelayPolicy) (params : ConsensusParams)
    (get : OutPoint → Except StorageError (Option UtxoEntry)) (overflow : Overflow)
    (flags : ScriptFlags) (ctx : MempoolChainContext) (env : AcceptEnv R) (tx : Tx)
    (cache : Option SigCache) : Except CoreError Hash × Mempool R × Option SigCache :=
  if pool.contains tx.computeTxid then (.ok tx.computeTxid, pool, cache)
  else
    match pool.planAdmission policy params get overflow ctx env tx with
    | .error e => (.error e, pool, cache)
    | .ok adm =>
      match verifyInputs flags env.sigOrder
          (env.checkOrder.order (scriptChecks ctx tx adm.prevouts adm.inputHeights)) cache with
      | (.error e, cache) => (.error e, pool, cache)
      | (.ok _, cache) =>
        match pool.planRoom env.entryOrder adm tx.input.length pool.entries.length
            (pool.startRoom adm) with
        | .error e => (.error e, pool, cache)
        | .ok plan =>
          (.ok adm.txid,
            (pool.evictPlanned adm plan env.now).insertEntry (entryOf adm tx env.now), cache)

end Room

end Mempool
