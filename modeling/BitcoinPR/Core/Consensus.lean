import BitcoinPR.Storage.UtxoEntry

/-!
# Consensus parameters and validation errors

The parameters of the five networks, as far as validation and header sync
read them, and the errors validation returns. A target and a pow limit are
numbers here; the code keeps them as 32 big-endian bytes.
-/

/-- The networks. -/
inductive Network where
  | bitcoin
  | testnet
  | testnet4
  | regtest
  | signet
deriving DecidableEq, Repr

/-- Parameters of the BIP-110 signaling deployment. -/
structure Bip110Deployment where
  /-- Blocks per signaling period. -/
  period : Nat
  /-- The version bit miners signal with. -/
  bit : UInt8
  /-- Median time past at which the deployment leaves `defined`. -/
  startTime : Nat
  /-- Signaling blocks of a period that lock the deployment in. -/
  threshold : Nat
  /-- Lock-in is forced at the period that starts at this height. -/
  lockInFloorHeight : Nat
  /-- Heights at which, while the deployment is started, a block must signal. -/
  mandatoryWindow : Nat × Nat
  /-- Blocks the rules stay in force. -/
  activeDuration : Nat
deriving DecidableEq, Repr

namespace Bip110Deployment

def mainnet : Bip110Deployment where
  period := 2016
  bit := 4
  startTime := 1764547200
  threshold := 1109
  lockInFloorHeight := 963648
  mandatoryWindow := (961632, 963647)
  activeDuration := 52416

/-- Whether a version signals the deployment: top bits `001` and the
deployment's bit. -/
def signals (d : Bip110Deployment) (version : UInt32) : Bool :=
  version &&& 0xE0000000 == 0x20000000
    && version &&& ((1 : UInt32) <<< UInt32.ofNat d.bit.toNat) != 0

end Bip110Deployment

/-- Consensus parameters of a network. -/
structure ConsensusParams where
  network : Network
  powLimit : Nat
  powTargetTimespan : Nat
  powTargetSpacing : Nat
  subsidyHalvingInterval : Nat
  bip16Time : Nat
  bip34Height : Nat
  bip65Height : Nat
  csvHeight : Nat
  bip66Height : Nat
  segwitHeight : Nat
  taprootHeight : Nat
  assumeValid : Option Hash
  minChainWork : Nat
  powNoRetargeting : Bool
  powAllowMinDifficultyBlocks : Bool
  coinbaseMaturity : Nat
  maxBlockWeight : UInt32
  bip110ActivationHeight : Option Nat
  bip110Deployment : Option Bip110Deployment
  signetChallenge : Option Bytes
deriving DecidableEq, Repr

def powLimitMainnet : Nat := 0xffff * 2 ^ 208

def powLimitTestnet : Nat := powLimitMainnet

def powLimitSignet : Nat := 0x0377ae * 2 ^ 216

def powLimitRegtest : Nat := 2 ^ 255 - 1

namespace ConsensusParams

def mainnet : ConsensusParams where
  network := .bitcoin
  powLimit := powLimitMainnet
  powTargetTimespan := 14 * 24 * 60 * 60
  powTargetSpacing := 10 * 60
  subsidyHalvingInterval := 210000
  bip16Time := 1333238400
  bip34Height := 227931
  bip65Height := 388381
  csvHeight := 419328
  bip66Height := 363725
  segwitHeight := 481824
  taprootHeight := 709632
  assumeValid := some 0x0000000000000000000320283a032748cef8227873ff4872689bf23f1cda83a5#256
  minChainWork := 0x0000000000000000000000000000000000000001128750f82f4c366153a3a030
  powNoRetargeting := false
  powAllowMinDifficultyBlocks := false
  coinbaseMaturity := 100
  maxBlockWeight := 4000000
  bip110ActivationHeight := none
  bip110Deployment := some Bip110Deployment.mainnet
  signetChallenge := none

def testnet : ConsensusParams where
  network := .testnet
  powLimit := powLimitTestnet
  powTargetTimespan := 14 * 24 * 60 * 60
  powTargetSpacing := 10 * 60
  subsidyHalvingInterval := 210000
  bip16Time := 1333238400
  bip34Height := 21111
  bip65Height := 581885
  csvHeight := 770112
  bip66Height := 330776
  segwitHeight := 834624
  taprootHeight := 2011000
  assumeValid := none
  minChainWork := 0x0000000000000000000000000000000000000000000017dde1c649f3708d14b6
  powNoRetargeting := false
  powAllowMinDifficultyBlocks := true
  coinbaseMaturity := 100
  maxBlockWeight := 4000000
  bip110ActivationHeight := none
  bip110Deployment := none
  signetChallenge := none

def testnet4 : ConsensusParams where
  network := .testnet4
  powLimit := powLimitTestnet
  powTargetTimespan := 14 * 24 * 60 * 60
  powTargetSpacing := 10 * 60
  subsidyHalvingInterval := 210000
  bip16Time := 1333238400
  bip34Height := 1
  bip65Height := 1
  csvHeight := 1
  bip66Height := 1
  segwitHeight := 1
  taprootHeight := 1
  assumeValid := none
  minChainWork := 0x0000000000000000000000000000000000000000000009a0fe15d0177d086304
  powNoRetargeting := false
  powAllowMinDifficultyBlocks := true
  coinbaseMaturity := 100
  maxBlockWeight := 4000000
  bip110ActivationHeight := none
  bip110Deployment := none
  signetChallenge := none

def regtest : ConsensusParams where
  network := .regtest
  powLimit := powLimitRegtest
  powTargetTimespan := 14 * 24 * 60 * 60
  powTargetSpacing := 10 * 60
  subsidyHalvingInterval := 150
  bip16Time := 0
  bip34Height := 1
  bip65Height := 1
  csvHeight := 1
  bip66Height := 1
  segwitHeight := 0
  taprootHeight := 0
  assumeValid := none
  minChainWork := 0
  powNoRetargeting := true
  powAllowMinDifficultyBlocks := true
  coinbaseMaturity := 100
  maxBlockWeight := 4000000
  bip110ActivationHeight := none
  bip110Deployment := none
  signetChallenge := none

/-- The default signet challenge, a one-of-two multisignature script. -/
def signetChallengeScript : Bytes :=
  [0x51, 0x21, 0x03, 0xad, 0x5e, 0x0e, 0xda, 0xd1, 0x8c, 0xb1, 0xf0, 0xfc, 0x0d, 0x28,
    0xa3, 0xd4, 0xf1, 0xf3, 0xe4, 0x45, 0x64, 0x03, 0x37, 0x48, 0x9a, 0xbb, 0x10, 0x40,
    0x4f, 0x2d, 0x1e, 0x08, 0x6b, 0xe4, 0x30, 0x21, 0x03, 0x59, 0xef, 0x50, 0x21, 0x96,
    0x4f, 0xe2, 0x2d, 0x6f, 0x8e, 0x05, 0xb2, 0x46, 0x3c, 0x95, 0x40, 0xce, 0x96, 0x88,
    0x3f, 0xe3, 0xb2, 0x78, 0x76, 0x0f, 0x04, 0x8f, 0x51, 0x89, 0xf2, 0xe6, 0xc4, 0x52,
    0xae]

def signet : ConsensusParams where
  network := .signet
  powLimit := powLimitSignet
  powTargetTimespan := 14 * 24 * 60 * 60
  powTargetSpacing := 10 * 60
  subsidyHalvingInterval := 210000
  bip16Time := 0
  bip34Height := 1
  bip65Height := 1
  csvHeight := 1
  bip66Height := 1
  segwitHeight := 1
  taprootHeight := 1
  assumeValid := none
  minChainWork := 0
  powNoRetargeting := false
  powAllowMinDifficultyBlocks := true
  coinbaseMaturity := 100
  maxBlockWeight := 4000000
  bip110ActivationHeight := none
  bip110Deployment := none
  signetChallenge := some signetChallengeScript

def forNetwork : Network → ConsensusParams
  | .bitcoin => mainnet
  | .testnet => testnet
  | .testnet4 => testnet4
  | .regtest => regtest
  | .signet => signet

/-- Blocks per difficulty period. -/
def difficultyAdjustmentInterval (p : ConsensusParams) : Nat :=
  p.powTargetTimespan / p.powTargetSpacing % 2 ^ 32

/-- The subsidy of a block, in satoshis. -/
def blockSubsidy (p : ConsensusParams) (height : Nat) : UInt64 :=
  let halvings := height / p.subsidyHalvingInterval
  if 64 ≤ halvings then 0 else UInt64.ofNat (5000000000 >>> halvings)

end ConsensusParams

/-- Errors of the core. `panic` is not an error of the code: it stands for
the panic of a build that checks integer overflow. -/
inductive CoreError where
  | blockNotFound (hash : Hash)
  | invalidProofOfWork
  | invalidBlockHash (expected got : Hash)
  | invalidMerkleRoot
  | invalidTimestamp (msg : String)
  | invalidDifficultyTarget (msg : String)
  | invalidBlock (msg : String)
  | invalidTransaction (msg : String)
  | invalidScript (msg : String)
  | missingUtxo (msg : String)
  | doubleSpend (msg : String)
  | invalidCoinbase (msg : String)
  | blockWeightExceeded (weight limit : Nat)
  | invalidSubsidy (expected got : UInt64)
  | undoMissing (hash : Hash) (height : Nat)
  | storage (e : StorageError)
  | chainContext (msg : String)
  | panic (msg : String)
deriving DecidableEq, Repr

/-- The text of an error. -/
def CoreError.display : CoreError → String
  | .blockNotFound hash => s!"block not found: {Hash.hex hash}"
  | .invalidProofOfWork => "invalid proof of work"
  | .invalidBlockHash expected got =>
    s!"invalid block hash: expected {Hash.hex expected}, got {Hash.hex got}"
  | .invalidMerkleRoot => "invalid merkle root"
  | .invalidTimestamp msg => s!"invalid timestamp: {msg}"
  | .invalidDifficultyTarget msg => s!"invalid difficulty target: {msg}"
  | .invalidBlock msg => s!"invalid block: {msg}"
  | .invalidTransaction msg => s!"invalid transaction: {msg}"
  | .invalidScript msg => s!"invalid script: {msg}"
  | .missingUtxo msg => s!"missing input UTXO: {msg}"
  | .doubleSpend msg => s!"double spend detected: {msg}"
  | .invalidCoinbase msg => s!"invalid coinbase: {msg}"
  | .blockWeightExceeded weight limit => s!"block weight exceeds limit: {weight} > {limit}"
  | .invalidSubsidy expected got =>
    s!"invalid block subsidy: expected {expected}, got {got}"
  | .undoMissing hash height =>
    s!"undo data missing for block {Hash.hex hash} at height {height} — cannot disconnect; "
      ++ "UTXO set would be corrupted (recover via forward re-sync)"
  | .storage e => s!"storage error: {e.display}"
  | .chainContext msg => s!"chain context unavailable: {msg}"
  | .panic msg => msg

/-- How a build treats an overflowing addition. -/
inductive Overflow where
  | wrap
  | check
deriving DecidableEq, Repr

/-- A 64-bit addition. -/
def addU64 (mode : Overflow) (a b : UInt64) : Except CoreError UInt64 :=
  match mode with
  | .wrap => .ok (a + b)
  | .check =>
    if a.toNat + b.toNat < 2 ^ 64 then .ok (a + b)
    else .error (.panic "attempt to add with overflow")

/-- A 64-bit sum, from the left. -/
def sumU64 (mode : Overflow) : List UInt64 → UInt64 → Except CoreError UInt64
  | [], acc => .ok acc
  | a :: as, acc => do sumU64 mode as (← addU64 mode acc a)
