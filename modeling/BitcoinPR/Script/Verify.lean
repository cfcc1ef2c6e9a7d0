import BitcoinPR.Script.Tapscript

/-!
# Verifying an input

`verifyScript` decides whether an input may spend the output it names. A
witness program (version and two to forty bytes) is handed to the rules of its
version before anything is run; every other output script is run after the
scriptSig, and a script-hash output runs the redeem script as well, or hands it
on if it is a witness program itself.

The BIP-110 checks sit at every one of these places: a scan of the scriptSig,
which exempts the last push of a script-hash spend; the in-loop check of the
other scripts; the witness items, by kind of program; the annex, the control
block and the undefined versions.
-/

namespace Script

/-! ## Witness programs -/

/-- The version a witness program starts with. -/
def witnessVersion (code : UInt8) : Option Nat :=
  if code = 0 then some 0
  else if 0x51 ≤ code.toNat ∧ code.toNat ≤ 0x60 then some (code.toNat - 0x50)
  else none

/-- The version and the program of a witness program. -/
def parseWitnessProgram : Bytes → Option (Nat × Bytes)
  | code :: len :: program =>
    if program.length + 2 < 4 ∨ 42 < program.length + 2 then none
    else
      match witnessVersion code with
      | none => none
      | some version =>
        if program.length ≠ len.toNat then none
        else if ¬ (2 ≤ len.toNat ∧ len.toNat ≤ 40) then none
        else some (version, program)
  | _ => none

/-- A witness program spells its version, the length of the program and the
program. -/
theorem exists_of_parseWitnessProgram {script program : Bytes} {version : Nat}
    (h : parseWitnessProgram script = some (version, program)) :
    ∃ code len, script = code :: len :: program ∧ witnessVersion code = some version
      ∧ program.length = len.toNat ∧ 2 ≤ len.toNat ∧ len.toNat ≤ 40 := by
  unfold parseWitnessProgram at h
  split at h
  · rename_i code len rest
    split at h
    · cases h
    · split at h
      · cases h
      · rename_i v hv
        split at h
        · cases h
        · rename_i hlen
          split at h
          · cases h
          · rename_i hbounds
            cases h
            exact ⟨code, len, rfl, hv, not_not.mp hlen, not_not.mp hbounds⟩
  · cases h

/-- The program of pay-to-anchor, of version 1. -/
def p2aWitnessProgram : Bytes := [0x4e, 0x73]

/-! ## BIP-110 -/

/-- Rule 5: the size limit of a control block. -/
def bip110MaxControlBlockSize : Nat := 257

/-- The data a script pushes. -/
def pushes (script : Bytes) : List Bytes :=
  (parse script).filterMap fun i =>
    match i with
    | .pushBytes data => some data
    | .op _ => none

/-- Fail on the first byte string over the limit. -/
def checkSizes (kind : String) (items : List Bytes) : Except CoreError Unit :=
  match items.find? fun item => decide (bip110MaxPushSize < item.length) with
  | none => .ok ()
  | some item =>
    fail s!"BIP-110: {kind} of {item.length} bytes exceeds {bip110MaxPushSize}"

/-- Rule 2 for a scriptSig; the last push may be exempt. -/
def bip110CheckPushes (script : Bytes) (exemptLastPush : Bool) : Except CoreError Unit := do
  rejectIf (parses script = false) (parseError "script")
  checkSizes "push" (if exemptLastPush then (pushes script).dropLast else pushes script)

/-- Rule 2 for witness items. -/
def bip110CheckWitnessItems (items : List Bytes) : Except CoreError Unit :=
  checkSizes "witness item" items

/-- Rule 3: the versions whose programs are defined without a rule of their own;
only pay-to-anchor is one. -/
def checkUndefinedVersion (bip110 : Bool) (version : Nat) (program : Bytes) :
    Except CoreError Unit :=
  rejectIf (bip110 ∧ ¬ (version = 1 ∧ program = p2aWitnessProgram))
    (.invalidScript "BIP-110: spending undefined witness version")

/-! ## Verification -/

/-- The stack a script leaves has to have a true element on top. -/
def checkTop (stack : List Bytes) (msg : String) : Except CoreError Unit :=
  rejectIf (stack.head?.all (fun top => !castToBool top)) (.invalidScript msg)

variable [ScriptCrypto]

open ScriptCrypto

/-- The signature of a key-hash program. -/
def verifyEcdsaSignature (tx : Tx) (inputIndex : Nat) (amount : UInt64) (sig pubkey : Bytes) :
    Except CoreError Unit :=
  match sig.getLast? with
  | none => fail "empty signature"
  | some hashType => do
    let key ← orInvalid (publicKey pubkey) "invalid pubkey: "
    let signature ← orInvalid (fromDer sig.dropLast) "invalid DER signature: "
    let msg ← orInvalid
      (p2wpkhSignatureHash tx inputIndex ([0x00, 0x14] ++ hash160 pubkey) amount
        (.fromConsensus hashType))
      "sighash error: "
    orInvalid (verifyEcdsa msg signature key) "signature verification failed: "

/-- Pay to witness key hash. -/
def verifyP2wpkh (tx : Tx) (inputIndex : Nat) (amount : UInt64) (program : Bytes)
    (witness : List Bytes) (enforceBip110 : Bool) : Except CoreError Unit :=
  match witness with
  | [sig, pubkey] => do
    checkIf enforceBip110 (bip110CheckWitnessItems [sig, pubkey])
    rejectIf (hash160 pubkey ≠ program) (.invalidScript "P2WPKH pubkey hash mismatch")
    verifyEcdsaSignature tx inputIndex amount sig pubkey
  | _ => fail "P2WPKH requires exactly 2 witness items"

/-- Pay to witness script hash: the script is the last item, the items before it
are its stack. -/
def verifyP2wsh (tx : Tx) (inputIndex : Nat) (amount : UInt64) (program : Bytes)
    (witness : List Bytes) (enforceBip110 : Bool) : Except CoreError Unit :=
  match witness.getLast? with
  | none => fail "P2WSH: empty witness"
  | some witnessScript => do
    rejectIf (sha256 witnessScript ≠ program) (.invalidScript "P2WSH script hash mismatch")
    checkIf enforceBip110 (bip110CheckWitnessItems witness.dropLast)
    let stack ← executeScriptInner witnessScript witness.dropLast.reverse tx inputIndex amount
      (ScriptFlags.all.withBip110 enforceBip110) true
    checkTop stack "P2WSH script evaluation failed"

def verifyWitnessV0 (tx : Tx) (inputIndex : Nat) (amount : UInt64) (program : Bytes)
    (witness : List Bytes) (enforceBip110 : Bool) : Except CoreError Unit :=
  if program.length = 20 then verifyP2wpkh tx inputIndex amount program witness enforceBip110
  else if program.length = 32 then verifyP2wsh tx inputIndex amount program witness enforceBip110
  else fail s!"invalid witness program length: {program.length}"

omit [ScriptCrypto] in
/-- Whether the last item is an annex. -/
def hasAnnex (witness : List Bytes) : Bool :=
  decide (2 ≤ witness.length) && witness.getLast?.any fun w => w.head? == some 0x50

omit [ScriptCrypto] in
/-- The annex. -/
def annex (witness : List Bytes) : Option Bytes :=
  if hasAnnex witness then witness.getLast? else none

omit [ScriptCrypto] in
/-- The witness without an annex, last item first. -/
def taprootItems (witness : List Bytes) : List Bytes :=
  (if hasAnnex witness then witness.dropLast else witness).reverse

/-- A script-path spend. The items before the script are its stack. -/
def verifyScriptPath (tx : Tx) (inputIndex : Nat) (prevouts : List TxOut)
    (outputKey control tapScript : Bytes) (stack : List Bytes) (annex : Option Bytes)
    (enforceBip110 : Bool) : Except CoreError Unit := do
  rejectIf (enforceBip110 ∧ bip110MaxControlBlockSize < control.length) (.invalidScript
    s!"BIP-110: control block of {control.length} bytes exceeds {bip110MaxControlBlockSize}")
  let leafVersion ← orInvalid (controlBlock control) "invalid control block: "
  rejectIf (verifyTaprootCommitment control outputKey tapScript = false)
    (.invalidScript "Taproot script path merkle proof verification failed")
  if leafVersion = 0xc0 then do
    checkIf enforceBip110 (bip110CheckWitnessItems stack.reverse)
    let result ← executeTapscript tapScript stack tx inputIndex prevouts (tapLeafHash tapScript)
      annex enforceBip110
    checkTop result "Tapscript evaluation failed"
  else do
    rejectIf enforceBip110 (.invalidScript "BIP-110: spending undefined Tapleaf version")

/-- A Taproot program (BIP 341). -/
def verifyWitnessV1 (tx : Tx) (inputIndex : Nat) (prevouts : List TxOut) (program : Bytes)
    (witness : List Bytes) (enforceBip110 : Bool) : Except CoreError Unit := do
  rejectIf (witness = []) (.invalidScript "Taproot: empty witness")
  rejectIf (enforceBip110 ∧ hasAnnex witness) (.invalidScript "BIP-110: Taproot annex is invalid")
  let outputKey ← orInvalid (xOnlyPublicKey program) "invalid taproot output key: "
  match taprootItems witness with
  | control :: tapScript :: stack =>
    verifyScriptPath tx inputIndex prevouts outputKey control tapScript stack (annex witness)
      enforceBip110
  | [sig] => do
    checkIf enforceBip110 (bip110CheckWitnessItems [sig])
    verifyTaprootKeySpend tx inputIndex prevouts outputKey sig (annex witness)
  | [] => return ()

/-- **An input and the output it spends**, out of a transaction and all the
outputs that one spends. -/
structure Spend where
  tx : Tx
  inputIndex : Nat
  prevouts : List TxOut
  input : TxIn
  prevout : TxOut
  input_eq : tx.input[inputIndex]? = some input
  prevout_eq : prevouts[inputIndex]? = some prevout

namespace Spend

variable (s : Spend) (flags : ScriptFlags)

/-- The program of a script, if witness programs are looked for. -/
def program (flags : ScriptFlags) (script : Bytes) : Option (Nat × Bytes) :=
  if flags.verifyWitness then parseWitnessProgram script else none

omit [ScriptCrypto] in
theorem program_of_witness {flags : ScriptFlags} (h : flags.verifyWitness = true)
    (script : Bytes) : program flags script = parseWitnessProgram script := if_pos h

omit [ScriptCrypto] in
theorem program_of_no_witness {flags : ScriptFlags} (h : flags.verifyWitness = false)
    (script : Bytes) : program flags script = none := by
  rw [program, h]
  rfl

omit [ScriptCrypto] in
theorem program_eq_some {flags : ScriptFlags} {script : Bytes} {p : Nat × Bytes} :
    program flags script = some p
      ↔ flags.verifyWitness = true ∧ parseWitnessProgram script = some p := by
  cases hw : flags.verifyWitness with
  | true =>
    rw [program_of_witness hw]
    exact (and_iff_right rfl).symm
  | false =>
    rw [program_of_no_witness hw]
    exact iff_of_false (fun h => by cases h) fun h => by cases h.1

omit [ScriptCrypto] in
/-- A witness program is no script hash. -/
theorem isP2sh_of_program {script program : Bytes} {version : Nat}
    (h : parseWitnessProgram script = some (version, program)) : isP2sh script = false := by
  obtain ⟨code, len, rfl, hversion, -⟩ := exists_of_parseWitnessProgram h
  by_contra hp
  simp only [isP2sh, Bool.not_eq_false, Bool.and_eq_true, beq_iff_eq] at hp
  have hcode : code = 0xa9 := Option.some.inj hp.1.1.2
  rw [hcode] at hversion
  cases hversion

omit [ScriptCrypto] in
theorem program_of_isP2sh {script : Bytes} (h : isP2sh script = true) (flags : ScriptFlags) :
    program flags script = none := by
  cases hp : program flags script with
  | none => rfl
  | some p => cases h.symm.trans (isP2sh_of_program (program_eq_some.mp hp).2)

/-- Run a legacy script for the spend. -/
def execute (script : Bytes) (stack : List Bytes) : Except CoreError (List Bytes) :=
  executeScriptInner script stack s.tx s.inputIndex s.prevout.value flags false

/-- Version 0, native or nested. -/
def verifyV0 (program : Bytes) : Except CoreError Unit :=
  verifyWitnessV0 s.tx s.inputIndex s.prevout.value program s.input.witness flags.verifyBip110

/-- A native witness program. -/
def verifyNative (version : Nat) (program : Bytes) : Except CoreError Unit := do
  rejectIf (s.input.scriptSig ≠ []) (.invalidScript "witness malleated")
  if version = 0 then s.verifyV0 flags program
  else if version = 1 ∧ flags.verifyTaproot ∧ program.length = 32 then
    verifyWitnessV1 s.tx s.inputIndex s.prevouts program s.input.witness flags.verifyBip110
  else checkUndefinedVersion flags.verifyBip110 version program

/-- A witness program nested in a script hash. -/
def verifyNested (version : Nat) (program : Bytes) : Except CoreError Unit :=
  if version = 0 then s.verifyV0 flags program
  else checkUndefinedVersion flags.verifyBip110 version program

/-- A witness nothing has consumed. -/
def checkWitnessUnexpected : Except CoreError Unit :=
  rejectIf (flags.verifyWitness ∧ s.input.witness ≠ []) (.invalidScript "witness unexpected")

/-- The redeem script of a script-hash spend, on the stack below it. -/
def verifyRedeem (redeemScript : Bytes) (stack : List Bytes) : Except CoreError Unit := do
  rejectIf (hash160 redeemScript ≠ (s.prevout.scriptPubkey.drop 2).take 20)
    (.invalidScript "P2SH hash mismatch")
  match program flags redeemScript with
  | some (version, program) => s.verifyNested flags version program
  | none =>
    let result ← s.execute flags redeemScript stack
    checkTop result "P2SH script evaluation failed"
    s.checkWitnessUnexpected flags

/-- Whether the spend runs a redeem script. -/
def isP2shSpend : Bool := flags.verifyP2sh && isP2sh s.prevout.scriptPubkey

/-- The stack the scriptSig leaves; its BIP-110 check is made before it runs. -/
def runScriptSig : Except CoreError (List Bytes) :=
  s.execute (flags.withBip110 false) s.input.scriptSig []

/-- What is left once the output script has been run: the redeem script of a
script-hash spend is on top of the stack the scriptSig left. -/
def verifySaved (saved : List Bytes) : Except CoreError Unit :=
  if s.isP2shSpend flags then
    match saved with
    | redeemScript :: rest => s.verifyRedeem flags redeemScript rest
    | [] => s.checkWitnessUnexpected flags
  else s.checkWitnessUnexpected flags

section

variable {s flags}

theorem verifySaved_nil : s.verifySaved flags [] = s.checkWitnessUnexpected flags := by
  exact ite_self _

theorem verifySaved_cons (h : s.isP2shSpend flags = true) (redeemScript : Bytes)
    (rest : List Bytes) :
    s.verifySaved flags (redeemScript :: rest) = s.verifyRedeem flags redeemScript rest := by
  exact if_pos h

theorem verifySaved_of_not_p2sh (h : ¬ s.isP2shSpend flags = true) (saved : List Bytes) :
    s.verifySaved flags saved = s.checkWitnessUnexpected flags := by
  exact if_neg h

end

/-- An output script that is no witness program. -/
def verifyLegacy : Except CoreError Unit := do
  checkIf flags.verifyBip110 (bip110CheckPushes s.input.scriptSig (s.isP2shSpend flags))
  let saved ← s.runScriptSig flags
  let stack ← s.execute flags s.prevout.scriptPubkey saved
  checkTop stack "script evaluation failed"
  s.verifySaved flags saved

theorem verifyLegacy_eq_ok {u : Unit} :
    s.verifyLegacy flags = .ok u
      ↔ (flags.verifyBip110 = true →
          bip110CheckPushes s.input.scriptSig (s.isP2shSpend flags) = .ok ())
        ∧ ∃ saved stack, s.runScriptSig flags = .ok saved
          ∧ s.execute flags s.prevout.scriptPubkey saved = .ok stack
          ∧ checkTop stack "script evaluation failed" = .ok ()
          ∧ s.verifySaved flags saved = .ok u := by
  simp only [verifyLegacy, Except.bind_eq_ok, exists_unit, checkIf_eq_ok]
  refine and_congr_right fun _ => ?_
  constructor
  · rintro ⟨saved, hsaved, stack, hrest⟩
    exact ⟨saved, stack, hsaved, hrest⟩
  · rintro ⟨saved, stack, hsaved, hrest⟩
    exact ⟨saved, hsaved, stack, hrest⟩

/-- Verify a spend. -/
def verify : Except CoreError Unit :=
  match program flags s.prevout.scriptPubkey with
  | some (version, program) => s.verifyNative flags version program
  | none => s.verifyLegacy flags

end Spend

omit [ScriptCrypto] in
/-- The spend of an input; the code indexes without looking. -/
def spendAt (tx : Tx) (inputIndex : Nat) (prevouts : List TxOut) : Except CoreError Spend :=
  match hp : prevouts[inputIndex]? with
  | none => .error (.panic (s!"index out of bounds: the len is {prevouts.length} "
      ++ s!"but the index is {inputIndex}"))
  | some prevout =>
    match hi : tx.input[inputIndex]? with
    | none => .error (.panic (s!"index out of bounds: the len is {tx.input.length} "
        ++ s!"but the index is {inputIndex}"))
    | some input => .ok ⟨tx, inputIndex, prevouts, input, prevout, hi, hp⟩

/-- **Verify an input** against the outputs its transaction spends. -/
def verifyScript (tx : Tx) (inputIndex : Nat) (prevouts : List TxOut) (flags : ScriptFlags) :
    Except CoreError Unit := do
  (← spendAt tx inputIndex prevouts).verify flags

omit [ScriptCrypto] in
theorem spendAt_spend (s : Spend) : spendAt s.tx s.inputIndex s.prevouts = .ok s := by
  unfold spendAt
  split
  · rename_i hp
    cases hp.symm.trans s.prevout_eq
  · rename_i prevout hp
    split
    · rename_i hi
      cases hi.symm.trans s.input_eq
    · rename_i input hi
      cases hp.symm.trans s.prevout_eq
      cases hi.symm.trans s.input_eq
      rfl

/-- Verifying an input is verifying its spend. -/
theorem verifyScript_spend (s : Spend) (flags : ScriptFlags) :
    verifyScript s.tx s.inputIndex s.prevouts flags = s.verify flags := by
  rw [verifyScript, spendAt_spend]
  rfl

/-- The interpreter as block validation uses it. -/
@[reducible] def engine : ScriptEngine := ⟨verifyScript⟩

omit [ScriptCrypto] in
/-- The spend of an output by a transaction with nothing else. -/
def sampleInput (scriptSig : Bytes) (witness : List Bytes) (scriptPubkey : Bytes) : Spend :=
  ⟨sampleTx scriptSig witness, 0, [⟨0, scriptPubkey⟩], ⟨⟨0, 0⟩, scriptSig, 0xffffffff, witness⟩,
    ⟨0, scriptPubkey⟩, rfl, rfl⟩

end Script
