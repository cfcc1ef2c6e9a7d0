import BitcoinPR.Core.Chain

/-!
# Relay policy

What a transaction must be to be relayed, beyond what a block asks of it: the
rules for data-carrying outputs, bare multisignature outputs and dust, and the
filters for embedded data. Policy is applied when a transaction enters the
pool and nowhere else; a block that breaks it is valid.

The detectors of embedded data are parameters (`RelayFilters`): of each, the
policy uses the first input or the protocol it names.
-/

/-- The policy settings of a node. -/
structure RelayPolicy where
  datacarrier : Bool
  maxDatacarrierSize : Nat
  permitBareMultisig : Bool
  rejectParasites : Bool
  rejectTokens : Bool
deriving DecidableEq, Repr

/-- The settings every network starts with. -/
def RelayPolicy.standard : RelayPolicy := ⟨true, 83, false, true, true⟩

/-- **The detectors of embedded data.** -/
class RelayFilters where
  txFirstInscriptionInput : Tx → Option Nat
  txFirstNotifEnvelopeInput : Tx → Option Nat
  txFirstAdventInput : Tx → Option Nat
  txFirstWitnessArgDropInput : Tx → Option Nat
  txTokenProtocol : Tx → Option String

/-- Whether a transaction signals that it may be replaced (BIP 125). -/
def signalsRbf (tx : Tx) : Bool := tx.input.any fun i => decide (i.sequence < 0xfffffffe)

/-- A witness program: a version and one push of 2 to 40 bytes. -/
def isWitnessProgram (script : Bytes) : Bool :=
  decide (4 ≤ script.length) && decide (script.length ≤ 42)
    && match script with
      | version :: push :: rest =>
        decide (2 ≤ push) && decide (push ≤ 40) && rest.length == push.toNat
          && (version == 0x00 || (decide (0x51 ≤ version) && decide (version ≤ 0x60)))
      | _ => false

/-- The number an opcode from `OP_1` to `OP_16` pushes. -/
def decodePushnum (code : UInt8) : Option Nat :=
  if 0x51 ≤ code ∧ code ≤ 0x60 then some (code.toNat - 0x50) else none

/-- The keys of a multisignature script, counted in a byte, and what follows
the number that ends them; `none` when that number is another one. -/
def multisigKeys : Nat → List Instruction → Option (Nat × List Instruction)
  | keys, [] => some (keys, [])
  | keys, .pushBytes _ :: is => multisigKeys ((keys + 1) % 256) is
  | keys, .op code :: is =>
    match decodePushnum code with
    | some n => if n = keys then some (keys, is) else none
    | none => some (keys, is)

/-- A bare multisignature script. -/
def isMultisig (script : Bytes) : Bool :=
  let (is, complete) := instructions script.length script
  match is with
  | .op first :: is =>
    match decodePushnum first with
    | none => false
    | some required =>
      match multisigKeys 0 is with
      | some (keys, [.op code]) => decide (required ≤ keys) && code == 0xae && complete
      | _ => false
  | _ => false

def dustRelayFeeRate : Nat := 3

/-- The value below which an output is dust: what it costs to create and to
spend it. -/
def dustThreshold (output : TxOut) : Nat :=
  if isOpReturn output.scriptPubkey then 0
  else
    let len := output.scriptPubkey.length
    let lenSize := if len < 253 then 1 else if len < 0x10000 then 3 else 5
    let spend :=
      if isWitnessProgram output.scriptPubkey then 32 + 4 + 1 + 107 / 4 + 4
      else 32 + 4 + 1 + 107 + 4
    dustRelayFeeRate * (8 + lenSize + len + spend)

/-- The rules for one output. -/
def checkOutput (policy : RelayPolicy) (txid : Hash) (vout : Nat) (output : TxOut) :
    Except CoreError Unit :=
  let len := output.scriptPubkey.length
  if isOpReturn output.scriptPubkey then do
    rejectIf (!policy.datacarrier) (.invalidTransaction
      s!"datacarrier disabled: output {vout} of tx {Hash.hex txid} is OP_RETURN")
    rejectIf (policy.maxDatacarrierSize < len) (.invalidTransaction
      s!"OP_RETURN output size {len} exceeds datacarriersize limit {policy.maxDatacarrierSize}")
  else do
    rejectIf (!policy.permitBareMultisig && isMultisig output.scriptPubkey) (.invalidTransaction
      (s!"bare multisig output {vout} of tx {Hash.hex txid} rejected "
        ++ "(permitbaremultisig=0)"))
    let threshold := dustThreshold output
    rejectIf (output.value.toNat < threshold) (.invalidTransaction
      (s!"dust: output {vout} of tx {Hash.hex txid} pays {output.value} sat, "
        ++ s!"below dust threshold {threshold}"))

def checkOutputPolicy (policy : RelayPolicy) (txid : Hash) :
    Nat → List TxOut → Except CoreError Unit
  | _, [] => .ok ()
  | vout, o :: os => do
    checkOutput policy txid vout o
    checkOutputPolicy policy txid (vout + 1) os

/-- Reject a transaction for the input a detector names. -/
def rejectInput (found : Option Nat) (text : Nat → String) : Except CoreError Unit :=
  match found with
  | some i => .error (.invalidTransaction (text i))
  | none => .ok ()

variable [RelayFilters]

/-- The filters for data embedded in inputs. -/
def checkParasites (txid : Hash) (tx : Tx) : Except CoreError Unit := do
  let id := Hash.hex txid
  rejectInput (RelayFilters.txFirstInscriptionInput tx) fun i =>
    s!"parasite: input {i} of tx {id} carries an inscription envelope (rejectparasites=1)"
  rejectInput (RelayFilters.txFirstNotifEnvelopeInput tx) fun i =>
    s!"parasite: input {i} of tx {id} carries a NOTIF dead-branch envelope (rejectparasites=1)"
  rejectInput (RelayFilters.txFirstAdventInput tx) fun i =>
    s!"parasite: input {i} of tx {id} carries an ADVENT push/drop envelope (rejectparasites=1)"
  rejectInput (RelayFilters.txFirstWitnessArgDropInput tx) fun i =>
    s!"parasite: input {i} of tx {id} smuggles payload as dropped witness arguments "
      ++ "(rejectparasites=1)"

/-- The filter for token protocols. -/
def checkTokens (txid : Hash) (tx : Tx) : Except CoreError Unit :=
  match RelayFilters.txTokenProtocol tx with
  | some proto => .error (.invalidTransaction
      s!"token: tx {Hash.hex txid} carries a {proto} marker (rejecttokens=1)")
  | none => .ok ()

/-- The policy for a whole transaction. -/
def checkRelayPolicy (policy : RelayPolicy) (txid : Hash) (tx : Tx) : Except CoreError Unit := do
  checkOutputPolicy policy txid 0 tx.output
  checkIf policy.rejectParasites (checkParasites txid tx)
  checkIf policy.rejectTokens (checkTokens txid tx)
