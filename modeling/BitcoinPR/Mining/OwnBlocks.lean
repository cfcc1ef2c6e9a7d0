import BitcoinPR.Mining.NextBits

/-!
# Blocks mined here

A block mined here is connected without the drain loop: `generatetoaddress` makes
one over the tip, and pools hand in theirs. The one stores the header, and with it
the height entry, before the block is connected, the other afterwards. A block
that is rejected is therefore left behind at its height by the first, and the
drain loop takes it for the best header chain: what a peer delivers for that height
is skipped as stale.
-/

/-- Count the nonce up – and the time, when the nonces run out – until the hash
meets the target. -/
def Mining.mine [Hashing] : Nat → Header → Option Header
  | 0, _ => none
  | fuel + 1, header =>
    if header.validatePow then some header
    else
      let header := { header with nonce := header.nonce + 1 }
      mine fuel (if header.nonce = 0 then { header with time := header.time + 1 } else header)

namespace ChainState

/-- The drain loop skips the block as stale. -/
def Stale (s : ChainState) (hash : Hash) : Prop :=
  let expectedHash := s.headerIndex.getHashAtHeight (s.bestHeight + 1)
  expectedHash.isSome ∧ expectedHash ≠ some hash

/-- **Nothing is left in fork choice**: no height entry, no header tip, no block
that would be skipped now. -/
structure KeepsForkChoice (s s' : ChainState) : Prop where
  heights : ∀ i, s'.headerIndex.getHashAtHeight i = s.headerIndex.getHashAtHeight i
  headerTip : s'.headerIndex.headerTip = s.headerIndex.headerTip
  stale : ∀ hash, s'.Stale hash ↔ s.Stale hash

theorem keepsForkChoice_of_heights {s s' : ChainState} (hbest : s'.bestHeight = s.bestHeight)
    (htip : s'.headerIndex.headerTip = s.headerIndex.headerTip)
    (h : ∀ i, s'.headerIndex.getHashAtHeight i = s.headerIndex.getHashAtHeight i) :
    s.KeepsForkChoice s' :=
  ⟨h, htip, fun hash => by rw [Stale, Stale, hbest, h]⟩

section

variable [Hashing] (s : ChainState)

/-- **The block `generatetoaddress` makes** over the tip of a coinbase and what it
takes from the mempool, at `now`. -/
def generatedBlock (now : UInt32) (version : Int32) (txdata : List Tx) (fuel : Nat) :
    Option Block :=
  (Mining.mine fuel ⟨version, s.bestHash, merkleRoot (txdata.map Tx.computeTxid),
    Mining.generateToAddressTime s.headerIndex s.bestHash now,
    Mining.generateToAddressBits s.headerIndex s.bestHash, 0⟩).map fun header => ⟨header, txdata⟩

/-- Store a header over its parent. -/
def storeHeader (header : Header) (height : Nat) : ChainState :=
  let prevWork := ((s.headerIndex.getHeader header.prevBlockhash).map fun h => h.chainWork).getD
    zeroWork
  let stored := ⟨header, height, addChainWork prevWork (calculateWork header.target)⟩
  { s with headerIndex := s.headerIndex.insertHeader header.blockHash stored }

variable [ScriptEngine] (env : Env) (block : Block)

/-- **Connect a block `generatetoaddress` has made.** -/
def connectGenerated : Except CoreError (List Hash) × ChainState :=
  let height := s.bestHeight + 1
  match (s.storeHeader block.header height).connectBlock env block height with
  | (.ok txids, s) =>
    (.ok txids, { s with headerIndex := s.headerIndex.setHeaderTip block.blockHash height })
  | (.error e, s) => (.error e, s)

/-- **Connect a block a pool hands in**, unless it is not over the tip. -/
def submitMinedBlock (height : Nat) : Option (Except CoreError (List Hash)) × ChainState :=
  if block.header.prevBlockhash ≠ s.bestHash then (none, s)
  else match s.connectBlock env block height with
    | (.ok txids, s) =>
      let s := s.storeHeader block.header height
      (some (.ok txids),
        { s with headerIndex := s.headerIndex.setHeaderTip block.blockHash height })
    | (.error e, s) => (some (.error e), s)

variable {s env block} {s' : ChainState} {e : CoreError}

/-- **What a rejected block leaves behind**: nothing, if a pool has handed it in;
if `generatetoaddress` has made it, nothing if and only if the height over the tip
had its entry before. -/
theorem keepsForkChoice_iff :
    (∀ height, s.submitMinedBlock env block height = (some (.error e), s') →
        s.KeepsForkChoice s')
      ∧ (s.connectGenerated env block = (.error e, s') → (s.KeepsForkChoice s'
        ↔ s.headerIndex.getHashAtHeight (s.bestHeight + 1) = some block.blockHash)) := by
  constructor
  · intro height h
    unfold submitMinedBlock at h
    split at h
    · cases h
    · rcases hconnect : s.connectBlock env block height with ⟨result, s₁⟩
      rw [hconnect] at h
      cases result with
      | ok txids => cases h
      | error e' =>
        obtain rfl := (Prod.mk.inj h).2
        have hrej := rejected_of_connectBlock_eq_error hconnect
        exact keepsForkChoice_of_heights hrej.bestHeight (by rw [hrej.headerIndex])
          fun i => by rw [hrej.headerIndex]
  · intro h
    unfold connectGenerated at h
    rcases hconnect : (s.storeHeader block.header (s.bestHeight + 1)).connectBlock env block
      (s.bestHeight + 1) with ⟨result, s₁⟩
    simp only [hconnect] at h
    cases result with
    | ok txids => cases h
    | error e' =>
      obtain rfl := (Prod.mk.inj h).2
      have hrej := rejected_of_connectBlock_eq_error hconnect
      have hheights : ∀ i, s₁.headerIndex.getHashAtHeight i
          = Function.update s.headerIndex.heightIndex (s.bestHeight + 1) (some block.blockHash) i :=
        fun i => by rw [hrej.headerIndex]; rfl
      constructor
      · intro hkeeps
        rw [← hkeeps.heights, hheights, Function.update_self]
      · intro hnamed
        refine keepsForkChoice_of_heights hrej.bestHeight (by rw [hrej.headerIndex]; rfl)
          fun i => ?_
        rw [hheights, Function.update_eq_self_iff.mpr hnamed.symm]
        rfl

end

/-- A block mined here that is rejected leaves nothing in fork choice. -/
def RejectedLeavesNothing : Prop :=
  ∀ [Hashing] [ScriptEngine] (s s' : ChainState) (env : Env) (block : Block) (e : CoreError),
    (∀ now version txdata fuel, s.generatedBlock now version txdata fuel = some block →
        s.connectGenerated env block = (.error e, s') → s.KeepsForkChoice s')
      ∧ ∀ height, s.submitMinedBlock env block height = (some (.error e), s') →
        s.KeepsForkChoice s'

section Sample

attribute [local instance] sampleHashing sampleScripts

/-- A node of the test network, long after its tip. -/
def lateNode : ChainState :=
  { sampleState Mining.harderIndex (sampleStore []) 2 1 with params := ConsensusParams.testnet }

/-- The block it makes with nothing in the mempool. -/
def lateBlock : Block :=
  ⟨⟨0, 2#256, 77#256, 2000, 0x1c00ffff, 0⟩, (sampleBlock 2 0 2000 2 77 []).txdata⟩

/-- A late block of the test network has minimum difficulty; this one has the bits
of the tip. -/
theorem connectGenerated_lateNode : (lateNode.connectGenerated sampleEnv lateBlock).1
    = .error (.invalidDifficultyTarget
      "nBits mismatch at height 2: expected 0x1d00ffff, got 0x1c00ffff") := by
  decide +kernel

theorem not_keepsForkChoice_lateNode :
    ¬ lateNode.KeepsForkChoice (lateNode.connectGenerated sampleEnv lateBlock).2 := by
  rw [keepsForkChoice_iff.2 (Prod.fst_eq_iff.mp connectGenerated_lateNode)]
  decide

/-- **The block stays behind at its height**, which had no entry. -/
theorem not_rejectedLeavesNothing : ¬ RejectedLeavesNothing := by
  intro h
  have hkeeps := (h lateNode _ sampleEnv lateBlock _).1 2000 0 lateBlock.txdata 1 rfl
    (Prod.fst_eq_iff.mp connectGenerated_lateNode)
  exact absurd (hkeeps.heights 2) (by decide +kernel)

end Sample

end ChainState
