import BitcoinPR.Script.Bip110

/-!
# Soft forks

A rule is a soft fork if it only forbids: what is valid with it is valid without.
Most flags are read where a script can only fail on their account, and a run under
more of them is a run under fewer (`executeScriptInner_mono`). Four are not.

A signature that is not strict DER makes `checkSig` answer `false`, which the script
may go on to invert. A witness program returns before it is run as a script, so
that a program which is no true value is spendable only with the rule. And BIP-110
forbids what is undefined: Taproot defines an output that was forbidden before, and
P2SH exempts a push.

So two sets of flags have to agree on these rules (`Aligned`), and that is exact: each
of the four has a spend that is valid with the rule only (`Weaker.aligned`).
-/

open List Except Bool

/-- Every rule of the first flags is one of the second. -/
structure ScriptFlags.Sub (F G : ScriptFlags) : Prop where
  p2sh : F.verifyP2sh = true → G.verifyP2sh = true
  witness : F.verifyWitness = true → G.verifyWitness = true
  strictenc : F.verifyStrictenc = true → G.verifyStrictenc = true
  checklocktimeverify : F.verifyChecklocktimeverify = true → G.verifyChecklocktimeverify = true
  checksequenceverify : F.verifyChecksequenceverify = true → G.verifyChecksequenceverify = true
  taproot : F.verifyTaproot = true → G.verifyTaproot = true
  nulldummy : F.verifyNulldummy = true → G.verifyNulldummy = true
  bip110 : F.verifyBip110 = true → G.verifyBip110 = true

/-- Witness implies P2SH and Taproot implies witness. -/
structure ScriptFlags.Nested (F : ScriptFlags) : Prop where
  p2sh : F.verifyWitness = true → F.verifyP2sh = true
  witness : F.verifyTaproot = true → F.verifyWitness = true

namespace Script

/-- The rules that are not soft forks are in both or in neither: strict
signatures and the witness, and with BIP-110 Taproot and P2SH. -/
structure Aligned (F G : ScriptFlags) : Prop where
  strictenc : F.verifyStrictenc = G.verifyStrictenc
  witness : F.verifyWitness = G.verifyWitness
  taproot : F.verifyBip110 = true → F.verifyTaproot = G.verifyTaproot
  p2sh : F.verifyBip110 = true → F.verifyP2sh = G.verifyP2sh

/-! ## Runs -/

namespace Machine

variable {α : Type} {m : Machine} {r : α}

theorem stackPop_mono {k k' : Bytes → Machine → Except CoreError α}
    (hk : ∀ x m, k x m = .ok r → k' x m = .ok r) (h : m.stackPop k = .ok r) :
    m.stackPop k' = .ok r := by
  unfold stackPop at h ⊢
  cases hs : m.stack with
  | nil =>
    rw [hs] at h
    cases h
  | cons x rest =>
    rw [hs] at h
    exact hk _ _ h

theorem stackPops_mono {n : Nat} {k k' : List Bytes → Machine → Except CoreError α}
    (hk : ∀ xs m, k xs m = .ok r → k' xs m = .ok r) (h : m.stackPops n k = .ok r) :
    m.stackPops n k' = .ok r := by
  unfold stackPops at h ⊢
  by_cases hn : m.stack.length < n
  · rw [if_pos hn] at h
    cases h
  · rw [if_neg hn] at h ⊢
    exact hk _ _ h

theorem popNum_mono {k k' : Int → Machine → Except CoreError α}
    (hk : ∀ n m, k n m = .ok r → k' n m = .ok r) (h : m.popNum k = .ok r) :
    m.popNum k' = .ok r := by
  refine stackPop_mono (fun x m hx => ?_) h
  obtain ⟨n, hn, hrun⟩ := bind_eq_ok.mp hx
  exact bind_eq_ok.mpr ⟨n, hn, hk n m hrun⟩

end Machine

variable [ScriptCrypto]

/-- The flags a legacy run reads, with no rule more in `F` than in `G`. Both read
signatures the same way. -/
structure Laxer (F G : ScriptFlags) : Prop where
  strictenc : F.verifyStrictenc = G.verifyStrictenc
  checklocktimeverify : F.verifyChecklocktimeverify = true → G.verifyChecklocktimeverify = true
  checksequenceverify : F.verifyChecksequenceverify = true → G.verifyChecksequenceverify = true
  nulldummy : F.verifyNulldummy = true → G.verifyNulldummy = true
  bip110 : F.verifyBip110 = true → G.verifyBip110 = true

section Run

variable {F G : ScriptFlags}

namespace Legacy

variable {c : Context}

theorem checks_eq (h : F.verifyStrictenc = G.verifyStrictenc) :
    checks { c with flags := F }
      = checks { c with flags := G } := by
  funext code sig key
  unfold checks checkSig
  simp only [h]

omit [ScriptCrypto] in
/-- A check that is made under fewer flags. -/
theorem checkIf_mono {c c' : Bool} (hc : c = true → c' = true) {x : Except CoreError Unit}
    {m m' : Machine} (h : (do checkIf c' x; return m) = Except.ok m') :
    (do checkIf c x; return m) = Except.ok m' := by
  obtain ⟨u, hu, heq⟩ := bind_eq_ok.mp h
  refine bind_eq_ok.mpr ⟨u, ?_, heq⟩
  exact checkIf_eq_ok.mpr fun hF => checkIf_eq_ok.mp hu (hc hF)

theorem plainOp_mono (h : Laxer F G) {code : UInt8} {m m' : Machine} {op : Opcode}
    (hop : plainOp { c with flags := G } code m op = .ok m') :
    plainOp { c with flags := F } code m op = .ok m' := by
  cases op
  case checkLockTimeVerify => exact checkIf_mono h.checklocktimeverify hop
  case checkSequenceVerify => exact checkIf_mono h.checksequenceverify hop
  all_goals exact hop

variable {st st' : State}

theorem checkSigOp_eq (h : F.verifyStrictenc = G.verifyStrictenc) (st : State)
    (k : Bool → Machine → Except CoreError State) :
    checkSigOp { c with flags := F } st k
      = checkSigOp { c with flags := G } st k := by
  unfold checkSigOp
  rw [checks_eq h]
  rfl

theorem checkMultiSigOp_mono (h : Laxer F G) {name : String}
    {k : Bool → State → Except CoreError State}
    (hop : checkMultiSigOp { c with flags := G } st name k = .ok st') :
    checkMultiSigOp { c with flags := F } st name k = .ok st' := by
  unfold checkMultiSigOp at hop ⊢
  rw [checks_eq h.strictenc]
  refine Machine.popNum_mono (fun n m hn => ?_) hop
  simp only [bind_eq_ok, exists_unit] at hn ⊢
  refine ⟨hn.1, hn.2.1, Machine.stackPops_mono (fun keys m hkeys => ?_) hn.2.2⟩
  refine Machine.popNum_mono (fun n m hn => ?_) hkeys
  simp only [bind_eq_ok, exists_unit] at hn ⊢
  refine ⟨hn.1, Machine.stackPops_mono (fun sigs m hsigs => ?_) hn.2⟩
  refine Machine.stackPop_mono (fun dummy m hdummy => ?_) hsigs
  simp only [bind_eq_ok, exists_unit, rejectIf_eq_ok] at hdummy ⊢
  exact ⟨fun hF => hdummy.1 ⟨h.nulldummy hF.1, hF.2⟩, hdummy.2⟩

theorem executeOp_mono (h : Laxer F G) {code : UInt8}
    (hop : executeOp { c with flags := G } st code = .ok st') :
    executeOp { c with flags := F } st code = .ok st' := by
  unfold executeOp at hop ⊢
  generalize Opcode.ofByte code = op at hop ⊢
  cases op
  case checkSig => exact (checkSigOp_eq h.strictenc st _).trans hop
  case checkSigVerify => exact (checkSigOp_eq h.strictenc st _).trans hop
  case checkMultiSig => exact checkMultiSigOp_mono h hop
  case checkMultiSigVerify => exact checkMultiSigOp_mono h hop
  case codeSeparator => exact hop
  all_goals
    obtain ⟨m, hm, heq⟩ := bind_eq_ok.mp hop
    exact bind_eq_ok.mpr ⟨m, plainOp_mono h hm, heq⟩

omit [ScriptCrypto] in
theorem stepPush_mono (h : Laxer F G) {data : Bytes}
    (hop : stepPush { c with flags := G } st data = .ok st') :
    stepPush { c with flags := F } st data = .ok st' := by
  simp only [stepPush, bind_eq_ok, exists_unit, rejectIf_eq_ok] at hop ⊢
  exact ⟨hop.1, fun hF => hop.2.1 ⟨h.bip110 hF.1, hF.2⟩, hop.2.2⟩

theorem stepOp_mono (h : Laxer F G) {code : UInt8}
    (hop : stepOp { c with flags := G } st code = .ok st') :
    stepOp { c with flags := F } st code = .ok st' := by
  obtain ⟨st₁, hst₁, hop⟩ := bind_eq_ok.mp hop
  refine bind_eq_ok.mpr ⟨st₁, hst₁, ?_⟩
  cases hb : branchOp st₁.machine (Opcode.ofByte code) with
  | some result =>
    simp only [hb] at hop ⊢
    exact hop
  | none =>
    simp only [hb] at hop ⊢
    by_cases hex : st₁.machine.executing = true
    · rw [if_pos hex] at hop ⊢
      obtain ⟨st₂, hst₂, hend⟩ := bind_eq_ok.mp hop
      exact bind_eq_ok.mpr ⟨st₂, executeOp_mono h hst₂, hend⟩
    · rw [if_neg hex] at hop ⊢
      exact hop

/-- **A step under the stricter flags is a step under the laxer ones.** -/
theorem step_mono (h : Laxer F G) (st : State) (i : Instruction) (f : StepResult State)
    (hstep : step { c with flags := G } st i = .ok f) :
    step { c with flags := F } st i = .ok f := by
  cases i with
  | pushBytes data =>
    obtain ⟨st', hst', hf⟩ := bind_eq_ok.mp hstep
    exact bind_eq_ok.mpr ⟨st', stepPush_mono h hst', hf⟩
  | op code =>
    obtain ⟨st', hst', hf⟩ := bind_eq_ok.mp hstep
    exact bind_eq_ok.mpr ⟨st', stepOp_mono h hst', hf⟩

end Legacy

/-- **So is a whole run.** -/
theorem executeScriptInner_mono (h : Laxer F G) {script : Bytes} {tx : Tx} {inputIndex : Nat}
    {amount : UInt64} {segwit : Bool} {stack result : List Bytes}
    (hrun : executeScriptInner script stack tx inputIndex amount G segwit = .ok result) :
    executeScriptInner script stack tx inputIndex amount F segwit = .ok result := by
  simp only [executeScriptInner, bind_eq_ok, exists_unit] at hrun ⊢
  obtain ⟨hsize, flow, hflow, hend⟩ := hrun
  have hstep := Legacy.step_mono (c := ⟨script, tx, inputIndex, amount, G, segwit⟩) h
  exact ⟨hsize, flow, runProgram_mono hstep hflow, hend⟩

end Run

/-! ## Spends -/

namespace Spend

variable {s : Spend} {F G : ScriptFlags} {saved : List Bytes}

omit [ScriptCrypto] in
/-- The same scripts are witness programs. -/
theorem program_eq_of_aligned (h : Aligned F G) (script : Bytes) :
    program F script = program G script := by
  unfold program
  rw [h.witness]

theorem execute_mono (h : Laxer F G) {script : Bytes} {stack result : List Bytes}
    (hrun : s.execute G script stack = .ok result) : s.execute F script stack = .ok result :=
  executeScriptInner_mono h hrun

theorem runScriptSig_mono (h : Laxer F G)
    (hrun : s.runScriptSig G = .ok saved) : s.runScriptSig F = .ok saved := by
  have hoff : Laxer (F.withBip110 false) (G.withBip110 false) :=
    ⟨h.strictenc, h.checklocktimeverify, h.checksequenceverify, h.nulldummy, id⟩
  exact execute_mono hoff hrun

variable (hsub : F.Sub G)
include hsub

omit [ScriptCrypto] in
theorem checkWitnessUnexpected_mono (h : s.checkWitnessUnexpected G = .ok ()) :
    s.checkWitnessUnexpected F = .ok () := by
  simp only [checkWitnessUnexpected, rejectIf_eq_ok] at h ⊢
  exact fun hF => h ⟨hsub.witness hF.1, hF.2⟩

omit [ScriptCrypto] in
theorem isP2shSpend_mono (h : s.isP2shSpend F = true) : s.isP2shSpend G = true := by
  obtain ⟨hp2sh, hspk⟩ := and_eq_true_iff.mp h
  exact and_eq_true_iff.mpr ⟨hsub.p2sh hp2sh, hspk⟩

variable {version : Nat} {program : Bytes}

/-- Native programs, without BIP-110. -/
theorem verifyNative_mono (hF : F.verifyBip110 = false)
    (hG : G.verifyBip110 = false)
    (h : s.verifyNative G version program = .ok ()) :
    s.verifyNative F version program = .ok () := by
  simp only [verifyNative, bind_eq_ok, exists_unit] at h ⊢
  obtain ⟨hsig, h⟩ := h
  refine ⟨hsig, ?_⟩
  by_cases h0 : version = 0
  · rw [if_pos h0, verifyV0, hG] at h
    rw [if_pos h0, verifyV0, hF]
    exact h
  · rw [if_neg h0] at h ⊢
    by_cases h1 : version = 1 ∧ F.verifyTaproot = true ∧ program.length = 32
    · rw [if_pos ⟨h1.1, hsub.taproot h1.2.1, h1.2.2⟩, hG] at h
      rw [if_pos h1, hF]
      exact h
    · rw [if_neg h1]
      simp [checkUndefinedVersion, rejectIf, hF]

variable (halign : Aligned F G)
include halign

omit [ScriptCrypto] in
theorem laxer_of_aligned : Laxer F G :=
  ⟨halign.strictenc, hsub.checklocktimeverify, hsub.checksequenceverify, hsub.nulldummy,
    hsub.bip110⟩

section

variable (hF : F.verifyBip110 = false) (hG : G.verifyBip110 = false)
include hF hG

/-- Redeem scripts, without BIP-110. -/
theorem verifyRedeem_mono {redeemScript : Bytes} {rest : List Bytes}
    (h : s.verifyRedeem G redeemScript rest = .ok ()) :
    s.verifyRedeem F redeemScript rest = .ok () := by
  simp only [verifyRedeem, bind_eq_ok, exists_unit, program_eq_of_aligned halign] at h ⊢
  obtain ⟨hhash, h⟩ := h
  refine ⟨hhash, ?_⟩
  cases hG' : program G redeemScript with
  | none =>
    simp only [hG', bind_eq_ok, exists_unit] at h ⊢
    obtain ⟨result, hrun, htop, hwit⟩ := h
    exact ⟨result, execute_mono (laxer_of_aligned hsub halign) hrun, htop,
      checkWitnessUnexpected_mono hsub hwit⟩
  | some p =>
    simp only [hG', verifyNested] at h ⊢
    rw [verifyV0, hG] at h
    rw [verifyV0, hF]
    exact h

/-- What is left after the output script, without BIP-110. -/
theorem verifySaved_mono (hnested : F.Nested) (h : s.verifySaved G saved = .ok ()) :
    s.verifySaved F saved = .ok () := by
  by_cases hpF : s.isP2shSpend F = true
  · cases saved with
    | nil =>
      rw [verifySaved_nil] at h ⊢
      exact checkWitnessUnexpected_mono hsub h
    | cons redeemScript rest =>
      rw [verifySaved_cons (isP2shSpend_mono hsub hpF)] at h
      rw [verifySaved_cons hpF]
      exact verifyRedeem_mono hsub halign hF hG h
  · rw [verifySaved_of_not_p2sh hpF]
    by_cases hpG : s.isP2shSpend G = true
    · -- there is no witness rule without P2SH
      obtain ⟨-, hspk⟩ := and_eq_true_iff.mp hpG
      have hw : ¬ F.verifyWitness = true := fun hw =>
        hpF (and_eq_true_iff.mpr ⟨hnested.p2sh hw, hspk⟩)
      simp [checkWitnessUnexpected, rejectIf, hw]
    · rw [verifySaved_of_not_p2sh hpG] at h
      exact checkWitnessUnexpected_mono hsub h

/-- **Without BIP-110**, a spend that is valid under more rules is valid under
fewer. -/
theorem verify_mono (hnested : F.Nested) (h : s.verify G = .ok ()) : s.verify F = .ok () := by
  have hlax := laxer_of_aligned hsub halign
  unfold verify at h ⊢
  rw [program_eq_of_aligned halign]
  cases hpG : program G s.prevout.scriptPubkey with
  | none =>
    rw [hpG] at h
    simp only [verifyLegacy_eq_ok] at h ⊢
    obtain ⟨-, saved, stack, hsaved, hrun, htop, hrest⟩ := h
    refine ⟨fun hb => ?_, saved, stack, runScriptSig_mono hlax hsaved, execute_mono hlax hrun, htop,
      verifySaved_mono hsub halign hF hG hnested hrest⟩
    cases hF.symm.trans hb
  | some p =>
    rw [hpG] at h
    exact verifyNative_mono hsub hF hG h

end

/-! ## What BIP-110 checks of them -/

section

variable (hb : F.verifyBip110 = true)
include hb

omit hsub in
theorem nativeChecked_mono (h : s.NativeChecked G version program) :
    s.NativeChecked F version program := by
  unfold NativeChecked at h ⊢
  rw [halign.taproot hb]
  exact h

theorem legacyChecked_mono (hsaved : s.runScriptSig G = .ok saved) (h : s.LegacyChecked G) :
    s.LegacyChecked F := by
  have hp2sh : s.isP2shSpend F = s.isP2shSpend G := by
    unfold isP2shSpend
    rw [halign.p2sh hb]
  refine ⟨hp2sh ▸ h.scriptSig, h.scriptPubkey, fun r hr => ?_⟩
  have hredeem : s.RedeemChecked G r := by
    refine h.redeem r ?_
    by_cases hpF : s.isP2shSpend F = true
    · rw [redeemScript_eq_head? (hp2sh ▸ hpF) hsaved]
      rwa [redeemScript_eq_head? hpF
        (runScriptSig_mono (laxer_of_aligned hsub halign) hsaved)] at hr
    · rw [redeemScript_of_not_p2sh hpF] at hr
      cases hr
  unfold RedeemChecked at hredeem ⊢
  rwa [program_eq_of_aligned halign]

/-- **What BIP-110 checks of a spend under fewer rules** it checks under more. -/
theorem checked_mono (hoff : s.verify (G.withBip110 false) = .ok ()) (h : s.Checked G) :
    s.Checked F := by
  unfold verify at hoff
  unfold Checked at h ⊢
  rw [program_withBip110] at hoff
  rw [program_eq_of_aligned halign]
  cases hpG : program G s.prevout.scriptPubkey with
  | none =>
    rw [hpG] at h hoff
    obtain ⟨-, saved, stack, hsaved, -⟩ := (verifyLegacy_eq_ok _ _).mp hoff
    exact legacyChecked_mono hsub halign hb hsaved h
  | some p =>
    rw [hpG] at h
    exact nativeChecked_mono halign hb h

end

/-- **A spend that is valid under more rules is valid under fewer.** -/
theorem verify_of_aligned (hF : F.Nested) (h : s.verify G = .ok ()) : s.verify F = .ok () := by
  have hsplit : s.verify (G.withBip110 false) = .ok () ∧ (G.verifyBip110 = true → s.Checked G) := by
    cases hb : G.verifyBip110 with
    | true =>
      have hG : G.withBip110 true = G := by rw [← hb]; rfl
      have hboth := verify_bip110.mp (hG.symm ▸ h)
      exact ⟨hboth.1, fun _ => hboth.2⟩
    | false =>
      have hG : G.withBip110 false = G := by rw [← hb]; rfl
      exact ⟨hG.symm ▸ h, fun hb => by cases hb⟩
  have hsub' : (F.withBip110 false).Sub (G.withBip110 false) :=
    ⟨hsub.p2sh, hsub.witness, hsub.strictenc, hsub.checklocktimeverify, hsub.checksequenceverify,
      hsub.taproot, hsub.nulldummy, id⟩
  have halign' : Aligned (F.withBip110 false) (G.withBip110 false) :=
    ⟨halign.strictenc, halign.witness, (fun hb => by cases hb), (fun hb => by cases hb)⟩
  have hoff : s.verify (F.withBip110 false) = .ok () :=
    verify_mono hsub' halign' rfl rfl ⟨hF.p2sh, hF.witness⟩ hsplit.1
  cases hb : F.verifyBip110 with
  | true =>
    have hF' : F.withBip110 true = F := by rw [← hb]; rfl
    rw [← hF']
    exact verify_bip110.mpr ⟨hoff, checked_mono hsub halign hb hsplit.1 (hsplit.2 (hsub.bip110 hb))⟩
  | false =>
    have hF' : F.withBip110 false = F := by rw [← hb]; rfl
    rw [← hF']
    exact hoff

end Spend

end Script

/-! ## The flags -/

namespace Script

/-- Whatever is valid under `G` is valid under `F`. -/
def Weaker (F G : ScriptFlags) : Prop :=
  ∀ [ScriptCrypto] (tx : Tx) (inputIndex : Nat) (prevouts : List TxOut),
    verifyScript tx inputIndex prevouts G = .ok () → verifyScript tx inputIndex prevouts F = .ok ()

/-- **Rules are soft forks**: no rule makes an invalid spend valid. -/
def RulesOnlyRestrict : Prop :=
  ∀ F G : ScriptFlags, F.Sub G → F.Nested → G.Nested → Weaker F G

theorem Aligned.weaker {F G : ScriptFlags} (h : Aligned F G) (hsub : F.Sub G) (hF : F.Nested) :
    Weaker F G := by
  intro crypto tx inputIndex prevouts hG
  obtain ⟨s, hs, hverify⟩ := bind_eq_ok.mp hG
  exact bind_eq_ok.mpr ⟨s, hs, Spend.verify_of_aligned hsub h hF hverify⟩

end Script

section Sample

attribute [local instance] Script.sampleCrypto

namespace Script

/-- `OP_CHECKSIG OP_NOT`, spent with a signature that is not DER. -/
def checkSigNot : Spend := sampleInput [0x02, 0x01, 0x01, 0x01, 0x02] [] [0xac, 0x91]

theorem verify_checkSigNot (f : ScriptFlags) :
    checkSigNot.verify f = .ok () ↔ f.verifyStrictenc = true := by
  revert f
  decide +kernel

/-- The key hash zero, which is no true value. -/
def zeroKeyHash : Spend :=
  sampleInput [] [[0x30, 0x01], [0x02]] ([0x00, 0x14] ++ List.replicate 20 0)

theorem verify_zeroKeyHash (f : ScriptFlags) :
    zeroKeyHash.verify f = .ok () ↔ f.verifyWitness = true := by
  revert f
  decide +kernel

/-- A Taproot output spent with its key. -/
def keyPath : Spend :=
  sampleInput [] [List.replicate 64 1] ([0x51, 0x20] ++ List.replicate 32 1)

theorem verify_keyPath (f : ScriptFlags) (hw : f.verifyWitness = true)
    (hb : f.verifyBip110 = true) : keyPath.verify f = .ok () ↔ f.verifyTaproot = true := by
  revert f
  decide +kernel

theorem verify_bigRedeem (f : ScriptFlags) (hb : f.verifyBip110 = true) :
    bigRedeem.verify f = .ok () ↔ f.verifyP2sh = true := by
  revert f
  decide +kernel

/-- Under weaker flags a rule that is needed to spend is in both. -/
theorem Weaker.eq_of_verify {F G : ScriptFlags} (h : Weaker F G) {s : Spend}
    {rule : ScriptFlags → Bool} (hsub : rule F = true → rule G = true)
    (hF : s.verify F = .ok () ↔ rule F = true) (hG : s.verify G = .ok () ↔ rule G = true) :
    rule F = rule G := by
  refine eq_iff_iff.mpr ⟨hsub, fun hrule => hF.mp ?_⟩
  rw [← verifyScript_spend]
  refine h s.tx s.inputIndex s.prevouts ?_
  rw [verifyScript_spend]
  exact hG.mpr hrule

theorem Weaker.aligned {F G : ScriptFlags} (h : Weaker F G) (hsub : F.Sub G) (hG : G.Nested) :
    Aligned F G := by
  have hwitness : F.verifyWitness = G.verifyWitness :=
    h.eq_of_verify hsub.witness (verify_zeroKeyHash F) (verify_zeroKeyHash G)
  refine ⟨?_, hwitness, fun hb => ?_, fun hb => ?_⟩
  · exact h.eq_of_verify hsub.strictenc (verify_checkSigNot F) (verify_checkSigNot G)
  · -- without the witness there is no Taproot to tell apart
    cases hw : G.verifyWitness with
    | true =>
      exact h.eq_of_verify hsub.taproot (verify_keyPath F (hwitness.trans hw) hb)
        (verify_keyPath G hw (hsub.bip110 hb))
    | false =>
      have hoff : G.verifyTaproot = false := by
        rw [← not_eq_true]
        intro hon
        cases hw.symm.trans (hG.witness hon)
      refine eq_iff_iff.mpr ⟨hsub.taproot, fun hon => ?_⟩
      cases hoff.symm.trans hon
  · exact h.eq_of_verify hsub.p2sh (verify_bigRedeem F hb) (verify_bigRedeem G (hsub.bip110 hb))

end Script

end Sample

namespace Script

/-- **Which rules are soft forks**: every spend that is valid under the larger set of
flags is valid under the smaller one exactly if the two agree on strict signatures
and the witness and, with BIP-110, on Taproot and P2SH. -/
theorem weaker_iff_aligned (F G : ScriptFlags) (hsub : F.Sub G) (hF : F.Nested) (hG : G.Nested) :
    Weaker F G ↔ Aligned F G :=
  ⟨fun h => h.aligned hsub hG, fun h => h.weaker hsub hF⟩

/-- P2SH, and with it the witness or not. -/
def p2shFlags (witness : Bool) : ScriptFlags :=
  ⟨true, witness, false, false, false, false, false, false⟩

/-- P2SH with the lock times and the empty dummy element. -/
def lockFlags : ScriptFlags := ⟨true, false, false, true, true, false, true, false⟩

/-- Lock times and the dummy element are soft forks. -/
theorem weaker_lockFlags :
    (p2shFlags false).Sub lockFlags ∧ (p2shFlags false).Nested ∧ lockFlags.Nested
      ∧ Weaker (p2shFlags false) lockFlags := by
  have hsub : (p2shFlags false).Sub lockFlags := by
    constructor
    all_goals decide
  have hF : (p2shFlags false).Nested := ⟨by decide, by decide⟩
  have hG : lockFlags.Nested := ⟨by decide, by decide⟩
  have halign : Aligned (p2shFlags false) lockFlags := ⟨rfl, rfl, by decide, by decide⟩
  exact ⟨hsub, hF, hG, (weaker_iff_aligned _ _ hsub hF hG).mpr halign⟩

/-- An output of version 2 whose program is zero, spent with nothing. -/
def zeroProgram : Spend := sampleInput [] [] [0x52, 0x02, 0x00, 0x00]

/-- **The witness rule is no soft fork**: as a script the zero program leaves a false
value, as a program anyone can spend it. -/
theorem not_rulesOnlyRestrict : ¬ RulesOnlyRestrict := by
  intro h
  have hsub : (p2shFlags false).Sub (p2shFlags true) := by
    constructor
    all_goals decide
  have hvalid := @h _ _ hsub ⟨by decide, by decide⟩ ⟨by decide, by decide⟩ sampleCrypto
    zeroProgram.tx zeroProgram.inputIndex zeroProgram.prevouts rfl
  cases hvalid

end Script
