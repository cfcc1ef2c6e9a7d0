import BitcoinPR.Core.Reorg
import BitcoinPR.Lib.Mass

/-!
# The money supply

The sums of the transaction loop are 64-bit additions that nothing checks for
overflow. They are safe because of the coins there are: a transaction adds up
what it takes out of the store, so no sum exceeds what the store and the
coinbase hold together. `LoopState.Backed` is that invariant of the loop – the
coins not yet spent and the value in flight stay below a bound – and with it
goes the other half of the account: what a block leaves unspent exceeds what
was there before by the subsidy at most.
-/

open List Except LoopState Nat

open Mass (AtMost worth)

/-! ## Sums in 64 bits -/

/-- An addition that fits is exact, whatever the build does on overflow. -/
theorem addU64_of_lt (mode : Overflow) {a b : UInt64} (h : a.toNat + b.toNat < 2 ^ 64) :
    addU64 mode a b = .ok (a + b) ∧ (a + b).toNat = a.toNat + b.toNat := by
  have hadd : (a + b).toNat = a.toNat + b.toNat := by
    rw [UInt64.toNat_add, mod_eq_of_lt h]
  cases mode with
  | wrap => exact ⟨rfl, hadd⟩
  | check => exact ⟨if_pos h, hadd⟩

theorem sumU64_of_lt (mode : Overflow) {l : List UInt64} {acc : UInt64}
    (h : acc.toNat + (l.map UInt64.toNat).sum < 2 ^ 64) :
    ∃ sum, sumU64 mode l acc = .ok sum
      ∧ sum.toNat = acc.toNat + (l.map UInt64.toNat).sum := by
  induction l generalizing acc with
  | nil => exact ⟨acc, rfl, rfl⟩
  | cons a l ih =>
    rw [map_cons, sum_cons, ← add_assoc] at h
    obtain ⟨hadd, hval⟩ := addU64_of_lt mode (a := acc) (b := a) (by omega)
    rw [← hval] at h
    obtain ⟨sum, hsum, hsumval⟩ := ih h
    refine ⟨sum, ?_, ?_⟩
    · rw [sumU64, hadd]
      exact hsum
    · rw [hsumval, hval, map_cons, sum_cons, add_assoc]

theorem ConsensusParams.blockSubsidy_le_div (p : ConsensusParams) (height : Nat) :
    (p.blockSubsidy height).toNat ≤ 5000000000 / 2 ^ (height / p.subsidyHalvingInterval) := by
  unfold ConsensusParams.blockSubsidy
  simp only
  split
  · exact zero_le _
  · rw [shiftRight_eq_div_pow]
    have hle : 5000000000 / 2 ^ (height / p.subsidyHalvingInterval) ≤ 5000000000 :=
      div_le_self _ _
    rw [UInt64.toNat_ofNat_of_lt' (by simp only [UInt64.size]; omega)]

theorem ConsensusParams.blockSubsidy_le (p : ConsensusParams) (height : Nat) :
    (p.blockSubsidy height).toNat ≤ 5000000000 :=
  (p.blockSubsidy_le_div height).trans (div_le_self _ _)

/-! ## What a transaction creates -/

/-- The value of a list of outputs. -/
def outputTotal (outputs : List TxOut) : Nat := (outputs.map fun o => o.value.toNat).sum

/-- The sum of outputs that pass the range check is exact. -/
theorem sumU64_outputs (mode : Overflow) {outputs : List TxOut}
    (h : outputTotal outputs ≤ maxMoney) :
    ∃ sum, sumU64 mode (outputs.map TxOut.value) 0 = .ok sum
      ∧ sum.toNat = outputTotal outputs := by
  have hmoney : maxMoney < 2 ^ 64 := by decide
  have hlist : (0 : UInt64).toNat + ((outputs.map TxOut.value).map UInt64.toNat).sum
      = outputTotal outputs := by
    rw [map_map]
    exact zero_add _
  rw [← hlist] at h ⊢
  exact sumU64_of_lt mode (lt_of_le_of_lt h hmoney)

theorem checkOutputValues_le {outputs : List TxOut} {total : Nat} {u : Unit}
    (htotal : total ≤ maxMoney) (h : checkOutputValues outputs total = .ok u) :
    total + outputTotal outputs ≤ maxMoney := by
  induction outputs generalizing total with
  | nil => exact htotal
  | cons o os ih =>
    rw [checkOutputValues] at h
    split at h
    · cases h
    · split at h
      · have hrest := ih (by omega) h
        rw [outputTotal, map_cons, sum_cons, ← add_assoc]
        exact hrest
      · cases h

theorem outputTotal_le_of_checkTxShape {ctx : TxContext} {txid : Hash} {tx : Tx} {u : Unit}
    (h : checkTxShape ctx txid tx = .ok u) : outputTotal tx.output ≤ maxMoney := by
  unfold checkTxShape checkTransaction at h
  simp only [bind_eq_ok, exists_unit] at h
  have hvalues := checkOutputValues_le (zero_le _) h.1.2.2.1
  rwa [zero_add] at hvalues

/-- The value of a list of created coins. -/
def coinTotal (coins : List (OutPoint × UtxoEntry)) : Nat :=
  (coins.map fun p => p.2.amount.toNat).sum

/-- The coins created are worth at most the outputs: `OP_RETURN` creates
none. -/
theorem coinTotal_createdCoins_le (txid : Hash) (height : Nat) (isCoinbase : Bool) (vout : Nat)
    (outputs : List TxOut) :
    coinTotal (createdCoins txid height isCoinbase vout outputs) ≤ outputTotal outputs := by
  induction outputs generalizing vout with
  | nil => exact le_refl 0
  | cons o os ih =>
    have hrest := ih (vout + 1)
    unfold coinTotal outputTotal at hrest ⊢
    rw [createdCoins, map_cons, sum_cons]
    split
    · omega
    · exact Nat.add_le_add_left hrest _

/-! ## The account of the loop -/

/-- The value of a coin, if there is one. -/
abbrev coinValue : Option UtxoEntry → Nat := worth fun e => e.amount.toNat

/-- What an outpoint can still be spent for, over a store holding `base`: a
lookup finds the coin of the store or the one of the overlay. -/
def LoopState.spendable (base : OutPoint → Option UtxoEntry) (st : LoopState) (o : OutPoint) :
    Nat :=
  if o ∉ st.spentInBlock then coinValue (base o) + coinValue (st.intraBlockUtxos o) else 0

/-- **The account of the loop**: the coins that can still be spent, and the
value `inFlight`, are worth at most `total`. -/
def LoopState.Backed (base : OutPoint → Option UtxoEntry) (total : Nat) (st : LoopState)
    (inFlight : Nat) : Prop :=
  ∃ b, AtMost (st.spendable base) b ∧ b + inFlight ≤ total

namespace LoopState.Backed

variable {base : OutPoint → Option UtxoEntry} {total inFlight : Nat} {st st' : LoopState}

section

variable (h : st.Backed base total inFlight)
include h

/-- The account is about the spent set and the overlay. -/
theorem of_eq (hs : st'.spentInBlock = st.spentInBlock)
    (ho : st'.intraBlockUtxos = st.intraBlockUtxos) : st'.Backed base total inFlight := by
  have hsame : st'.spendable base = st.spendable base := by
    funext o
    rw [spendable, spendable, hs, ho]
  unfold LoopState.Backed
  rw [hsame]
  exact h

theorem inFlight_le : inFlight ≤ total := by
  obtain ⟨b, -, hb⟩ := h
  omega

/-- **Spending a coin** puts its value in flight. -/
theorem spend {o : OutPoint} {e : UtxoEntry} (ho : o ∉ st.spentInBlock)
    (he : (base o).or (st.intraBlockUtxos o) = some e)
    (hs : st'.spentInBlock = o :: st.spentInBlock) (hi : st'.intraBlockUtxos = st.intraBlockUtxos) :
    st'.Backed base total (inFlight + e.amount.toNat) := by
  obtain ⟨b, hb, htotal⟩ := h
  have hvalue : e.amount.toNat ≤ st.spendable base o := by
    rw [spendable, if_pos ho]
    cases hbase : base o with
    | some e' =>
      rw [hbase, Option.some_or, Option.some.injEq] at he
      subst he
      exact le_add_right _ _
    | none =>
      rw [hbase, Option.none_or] at he
      rw [he]
      exact le_add_left _ _
  refine ⟨b - st.spendable base o, (hb.erase o).of_le fun k => ?_, ?_⟩
  · unfold spendable
    rw [hs, hi]
    by_cases hk : k = o
    · subst hk
      rw [if_neg (not_not.mpr mem_cons_self)]
      exact zero_le _
    · rw [Function.update_of_ne hk]
      simp only [mem_cons, hk, false_or]
      exact le_refl _
  · have hle := hb.apply_le o
    omega

/-- **Creating coins** adds their value to what is there. -/
theorem create (coins : List (OutPoint × UtxoEntry)) :
    (st.create coins).Backed base (total + coinTotal coins) inFlight := by
  obtain ⟨b, hb, htotal⟩ := h
  exact ⟨b + coinTotal coins, AtMost.putAll hb coins, by omega⟩

theorem mono {total' inFlight' : Nat} (hle : total + inFlight' ≤ total' + inFlight) :
    st.Backed base total' inFlight' := by
  obtain ⟨b, hb, htotal⟩ := h
  exact ⟨b, hb, by omega⟩

end

end LoopState.Backed

/-! ## No sum of the loop overflows -/

/-- Whether an error is the panic of an overflowing addition. -/
def CoreError.isPanic : CoreError → Bool
  | .panic _ => true
  | _ => false

/-- No addition of `x` overflowed. -/
abbrev NoOverflow {α : Type} (x : Except CoreError α) : Prop :=
  x.FailsIn fun e => e.isPanic = false

theorem noOverflow_checkOutputValues (outputs : List TxOut) (total : Nat) :
    NoOverflow (checkOutputValues outputs total) := by
  induction outputs generalizing total with
  | nil => exact failsIn_ok ()
  | cons o os ih =>
    rw [checkOutputValues]
    split
    · exact failsIn_error rfl
    · split
      · exact ih _
      · exact failsIn_error rfl

variable (ctx : TxContext) (txid : Hash)

theorem noOverflow_checkTxShape (tx : Tx) : NoOverflow (checkTxShape ctx txid tx) := by
  refine .bind (.bind (failsIn_rejectIf fun _ => rfl) fun _ _ =>
    .bind (failsIn_rejectIf fun _ => rfl) fun _ _ =>
    .bind (noOverflow_checkOutputValues _ _) fun _ _ =>
    .bind (failsIn_rejectIf fun _ => rfl) fun _ _ =>
    failsIn_rejectIf fun _ => rfl) fun _ _ => ?_
  refine .bind (failsIn_checkIf fun _ => ?_) fun _ _ => ?_
  · unfold checkBip110OutputScripts
    split
    · exact failsIn_ok ()
    · exact failsIn_error rfl
  · unfold checkBip30
    split
    · exact failsIn_error rfl
    · exact failsIn_ok ()

theorem noOverflow_inputTimes (heights : List Nat) : NoOverflow (inputTimes ctx txid heights) := by
  induction heights with
  | nil => exact failsIn_ok _
  | cons coinHeight rest ih =>
    rw [inputTimes]
    split
    · exact failsIn_error rfl
    · exact ih.bind fun _ _ => failsIn_ok _

theorem noOverflow_checkSequenceLocks (inputHeights inputTimes : List Nat)
    (blockHeight blockMtp i : Nat) (inputs : List TxIn) :
    NoOverflow (checkSequenceLocks inputHeights inputTimes blockHeight blockMtp i inputs) := by
  induction inputs generalizing i with
  | nil => exact failsIn_ok ()
  | cons input inputs ih =>
    refine .bind ?_ fun _ _ => ih (i + 1)
    unfold checkSequenceLock
    simp only
    split
    · exact failsIn_ok ()
    · split <;> split <;> first | exact failsIn_error rfl | exact failsIn_ok ()

theorem noOverflow_checkBip68 (tx : Tx) (heights : List Nat) :
    NoOverflow (checkBip68 ctx txid tx heights) := by
  refine failsIn_checkIf fun _ => .bind ?_ fun _ _ => ?_
  · unfold lockTimes
    split
    · exact noOverflow_inputTimes ctx txid heights
    · exact failsIn_ok _
  · unfold validateSequenceLocks
    split
    · exact failsIn_ok ()
    · exact noOverflow_checkSequenceLocks _ _ _ _ _ _

theorem noOverflow_lookupCoin (ctx : TxContext) (overlay : OutPoint → Option UtxoEntry)
    (o : OutPoint) : NoOverflow (lookupCoin ctx overlay o) := by
  unfold lookupCoin
  split
  · exact failsIn_error rfl
  · split
    · exact failsIn_ok _
    · exact failsIn_error rfl

section Loop

variable {ctx : TxContext} {base : OutPoint → Option UtxoEntry} {total : Nat}

/-- The account while the inputs of a transaction are spent: their sum and the
fees are in flight. -/
def InputState.Backed (base : OutPoint → Option UtxoEntry) (total : Nat) (acc : InputState) :
    Prop :=
  acc.loop.Backed base total (acc.inputSum.toNat + acc.loop.totalFees.toNat)

section

variable (hget : ∀ o, ctx.get o = .ok (base o)) (htotal : total < 2 ^ 64)
include hget htotal

/-- **One input** cannot overflow the sum, and keeps the account. -/
theorem spendInput_backed {acc : InputState} (h : acc.Backed base total) (txid : Hash) (vin : Nat)
    (input : TxIn) :
    NoOverflow (spendInput ctx txid acc vin input) ∧
      ∀ acc', spendInput ctx txid acc vin input = .ok acc' →
        acc'.Backed base total ∧ acc'.loop.totalFees = acc.loop.totalFees := by
  have hspend : ∀ utxo, input.previousOutput ∉ acc.loop.spentInBlock →
      lookupCoin ctx acc.loop.intraBlockUtxos input.previousOutput = .ok utxo →
      ∀ sum, (acc.spend ctx.flags input utxo sum).loop.Backed base total
        (acc.inputSum.toNat + acc.loop.totalFees.toNat + utxo.amount.toNat) := by
    intro utxo hfresh hfound sum
    exact h.spend hfresh ((lookupCoin_eq_ok (hget _)).mp hfound) rfl rfl
  constructor
  · refine .bind (failsIn_rejectIf fun _ => rfl) fun _ hfresh =>
      .bind (noOverflow_lookupCoin _ _ _) fun utxo hfound =>
      .bind (failsIn_rejectIf fun _ => rfl) fun _ _ =>
      .bind ?_ fun _ _ => failsIn_ok _
    have hle := (hspend utxo (rejectIf_eq_ok.mp hfresh) hfound 0).inFlight_le
    rw [(addU64_of_lt ctx.overflow (by omega)).1]
    exact failsIn_ok _
  · intro acc' h'
    obtain ⟨hfresh, utxo, hres, sum, hadd, rfl⟩ := spendInput_eq_ok.mp h'
    have hb := hspend utxo hfresh hres.found sum
    have hle := hb.inFlight_le
    obtain ⟨hexact, hval⟩ := addU64_of_lt ctx.overflow (a := acc.inputSum) (b := utxo.amount)
      (by omega)
    obtain rfl := Except.ok.inj (hexact.symm.trans hadd)
    refine ⟨hb.mono (Nat.add_le_add_left ?_ total), rfl⟩
    show (acc.inputSum + utxo.amount).toNat + acc.loop.totalFees.toNat ≤ _
    omega

/-- **The inputs of a transaction**, the same. -/
theorem spendInputs_backed (txid : Hash) (inputs : List TxIn) {acc : InputState}
    (h : acc.Backed base total) (vin : Nat) :
    NoOverflow (spendInputs ctx txid vin inputs acc) ∧
      ∀ acc', spendInputs ctx txid vin inputs acc = .ok acc' →
        acc'.Backed base total ∧ acc'.loop.totalFees = acc.loop.totalFees := by
  induction inputs generalizing acc vin with
  | nil =>
    refine ⟨failsIn_ok _, fun acc' h' => ?_⟩
    obtain rfl := Except.ok.inj h'
    exact ⟨h, rfl⟩
  | cons input inputs ih =>
    obtain ⟨hno, hstep⟩ := spendInput_backed hget htotal h txid vin input
    refine ⟨hno.bind fun acc₁ h₁ => (ih (hstep acc₁ h₁).1 (vin + 1)).1, fun acc' h' => ?_⟩
    rw [spendInputs, bind_eq_ok] at h'
    obtain ⟨acc₁, h₁, h'⟩ := h'
    obtain ⟨hback, hfees⟩ := hstep acc₁ h₁
    obtain ⟨hback', hfees'⟩ := (ih hback (vin + 1)).2 acc' h'
    exact ⟨hback', hfees'.trans hfees⟩

variable [Hashing]

variable {st : LoopState} (h : st.Backed base total st.totalFees.toNat)
include h

/-- **One transaction** cannot overflow a sum, and keeps the account: what it
does not create again is its fee. -/
theorem validateSpendingTx_backed {tx : Tx} (houts : outputTotal tx.output ≤ maxMoney) :
    NoOverflow (validateSpendingTx ctx tx st) ∧
      ∀ st', validateSpendingTx ctx tx st = .ok st' →
        st'.Backed base total st'.totalFees.toNat := by
  have hstart : (st.startInputs tx).Backed base total :=
    (h.of_eq rfl rfl).mono (Nat.add_le_add_left (Nat.le_of_eq (Nat.zero_add _)) total)
  obtain ⟨hno, hinputs⟩ := spendInputs_backed hget htotal tx.computeTxid tx.input hstart 0
  obtain ⟨outputSum, hsum, hsumval⟩ := sumU64_outputs ctx.overflow houts
  have hfee : ∀ acc : InputState, acc.Backed base total → outputSum ≤ acc.inputSum →
      acc.loop.totalFees.toNat + (acc.inputSum - outputSum).toNat + outputSum.toNat
        = acc.inputSum.toNat + acc.loop.totalFees.toNat := by
    intro acc hacc hle
    have hle' := UInt64.le_iff_toNat_le.mp hle
    rw [UInt64.toNat_sub_of_le _ _ hle]
    omega
  constructor
  · refine .bind (failsIn_rejectIf fun _ => rfl) fun _ _ => hno.bind fun acc hacc =>
      .bind (noOverflow_checkBip68 _ _ _ _) fun _ _ => .bind ?_ fun out hout =>
      .bind (failsIn_rejectIf fun _ => rfl) fun _ hle =>
      .bind ?_ fun _ _ => failsIn_ok _
    · rw [hsum]
      exact failsIn_ok _
    · obtain rfl := Except.ok.inj (hsum.symm.trans hout)
      have hback := (hinputs acc hacc).1
      have hle' := hback.inFlight_le
      have hf := hfee acc hback (UInt64.not_lt.mp (rejectIf_eq_ok.mp hle))
      rw [(addU64_of_lt ctx.overflow (by omega)).1]
      exact failsIn_ok _
  · intro st' h'
    unfold validateSpendingTx at h'
    simp only [bind_eq_ok, exists_unit, rejectIf_eq_ok, pure_eq_ok, UInt64.not_lt] at h'
    obtain ⟨-, acc, hacc, -, out, hout, hle, fees, hfees, rfl⟩ := h'
    obtain rfl := Except.ok.inj (hsum.symm.trans hout)
    have hback := (hinputs acc hacc).1
    have hle' := hback.inFlight_le
    have hf := hfee acc hback hle
    obtain ⟨hexact, hval⟩ := addU64_of_lt ctx.overflow (a := acc.loop.totalFees)
      (b := acc.inputSum - outputSum) (by omega)
    obtain rfl := Except.ok.inj (hexact.symm.trans hfees)
    have hcreated := coinTotal_createdCoins_le tx.computeTxid ctx.height false 0 tx.output
    have hst : ({ acc.loop with
        scriptChecks := acc.loop.scriptChecks
          ++ queueChecks ctx tx tx.computeWtxid acc.prevouts acc.inputHeights
        totalFees := acc.loop.totalFees + (acc.inputSum - outputSum) } : LoopState).Backed base
          total (acc.inputSum.toNat + acc.loop.totalFees.toNat) := hback.of_eq rfl rfl
    refine (hst.create _).mono ?_
    show _ + (acc.loop.totalFees + (acc.inputSum - outputSum)).toNat ≤ _
    omega

theorem validateTx_backed (txIdx : Nat) (tx : Tx) :
    NoOverflow (validateTx ctx (txIdx + 1) tx st) ∧
      ∀ st', validateTx ctx (txIdx + 1) tx st = .ok st' →
        st'.Backed base total st'.totalFees.toNat := by
  constructor
  · refine .bind (noOverflow_checkTxShape _ _ _) fun _ hshape => ?_
    exact (validateSpendingTx_backed hget htotal h (outputTotal_le_of_checkTxShape hshape)).1
  · intro st' h'
    obtain ⟨hshape, h'⟩ := validateTx_eq_ok.mp h'
    exact (validateSpendingTx_backed hget htotal h (outputTotal_le_of_checkTxShape hshape)).2 st' h'

/-- **The transactions after the coinbase**, the same. -/
theorem validateTxs_backed (txs : List Tx) (txIdx : Nat) :
    NoOverflow (validateTxs ctx (txIdx + 1) txs st) ∧
      ∀ st', validateTxs ctx (txIdx + 1) txs st = .ok st' →
        st'.Backed base total st'.totalFees.toNat := by
  induction txs generalizing txIdx st with
  | nil =>
    refine ⟨failsIn_ok _, fun st' h' => ?_⟩
    obtain rfl := Except.ok.inj h'
    exact h
  | cons tx txs ih =>
    obtain ⟨hno, hstep⟩ := validateTx_backed hget htotal h txIdx tx
    refine ⟨hno.bind fun st₁ h₁ => (ih (hstep st₁ h₁) (txIdx + 1)).1, fun st' h' => ?_⟩
    rw [validateTxs, bind_eq_ok] at h'
    obtain ⟨st₁, h₁, h'⟩ := h'
    exact (ih (hstep st₁ h₁) (txIdx + 1)).2 st' h'

end

variable [Hashing]

omit [Hashing] in
/-- **The totals of a block** cannot overflow, and what they admit is no more
than the subsidy and the fees. -/
theorem checkBlockTotals_backed {coinbase : Tx} (hcoinbase : outputTotal coinbase.output ≤ maxMoney)
    (txs : List Tx) {st : LoopState} (hfees : st.totalFees.toNat ≤ 2 * maxMoney) :
    NoOverflow (checkBlockTotals ctx (coinbase :: txs) st) ∧
      (checkBlockTotals ctx (coinbase :: txs) st = .ok () →
        outputTotal coinbase.output
          ≤ (ctx.params.blockSubsidy ctx.height).toNat + st.totalFees.toNat) := by
  obtain ⟨sum, hsum, hsumval⟩ := sumU64_outputs ctx.overflow hcoinbase
  have hsub := ctx.params.blockSubsidy_le ctx.height
  have hmoney : 2 * maxMoney + 5000000000 < 2 ^ 64 := by decide
  obtain ⟨hadd, hval⟩ := addU64_of_lt ctx.overflow
    (a := ctx.params.blockSubsidy ctx.height) (b := st.totalFees) (by omega)
  constructor
  · refine .bind (failsIn_rejectIf fun _ => rfl) fun _ _ => ?_
    show NoOverflow (sumU64 _ _ _ >>= _)
    rw [hsum, hadd]
    exact failsIn_rejectIf fun _ => rfl
  · intro h
    unfold checkBlockTotals at h
    simp only [bind_eq_ok, exists_unit, rejectIf_eq_ok, hsum, hadd, Except.ok.injEq,
      exists_eq_left'] at h
    have hle := UInt64.le_iff_toNat_le.mp (UInt64.not_lt.mp h.2)
    rwa [hsumval, hval] at hle

/-- **A block over a store worth at most `b`**: no addition overflows, and what
can be spent afterwards is worth at most `b` and the subsidy. -/
theorem validateLoop_backed (hget : ∀ o, ctx.get o = .ok (base o)) {b : Nat}
    (hbase : AtMost (fun o => coinValue (base o)) b) (hb : b ≤ maxMoney) (txs : List Tx) :
    NoOverflow (validateLoop ctx txs) ∧
      ∀ st, validateLoop ctx txs = .ok st →
        AtMost (st.spendable base) (b + (ctx.params.blockSubsidy ctx.height).toNat) := by
  have hinit : init.Backed base b 0 := ⟨b, hbase.of_le fun _ => le_refl _, le_refl _⟩
  have hmoney : 2 * maxMoney < 2 ^ 64 := by decide
  cases txs with
  | nil =>
    refine ⟨.bind (failsIn_ok _) fun st _ => .bind ?_ fun _ _ => failsIn_ok _, fun st h => ?_⟩
    · exact .bind (failsIn_rejectIf fun _ => rfl) fun _ _ => failsIn_ok _
    · obtain rfl := Except.ok.inj (validateLoop_eq_ok.mp h).1
      obtain ⟨b', hb', hle⟩ := hinit
      exact hb'.mono (by omega)
  | cons coinbase txs =>
    -- the coinbase is paid first, out of nothing, and accounted for at the end
    have hfirst : ∀ st, validateTx ctx 0 coinbase init = .ok st →
        outputTotal coinbase.output ≤ maxMoney
          ∧ st.Backed base (b + outputTotal coinbase.output) st.totalFees.toNat := by
      intro st h
      obtain ⟨hshape, h⟩ := validateTx_eq_ok.mp h
      subst h
      refine ⟨outputTotal_le_of_checkTxShape hshape,
        (LoopState.Backed.create (hinit.of_eq rfl rfl) _).mono ?_⟩
      exact Nat.add_le_add_right (Nat.add_le_add_left (coinTotal_createdCoins_le _ _ _ _ _) b) _
    have hrest : ∀ st₁ st, validateTx ctx 0 coinbase init = .ok st₁ →
        validateTxs ctx 1 txs st₁ = .ok st →
        st.Backed base (b + outputTotal coinbase.output) st.totalFees.toNat := by
      intro st₁ st h₁ h
      obtain ⟨hcoinbase, hback⟩ := hfirst st₁ h₁
      exact (validateTxs_backed hget (by omega) hback txs 0).2 st h
    constructor
    · refine .bind (.bind ?_ fun st₁ h₁ => ?_) fun st h => .bind ?_ fun _ _ =>
        failsIn_ok _
      · exact .bind (noOverflow_checkTxShape _ _ _) fun _ _ => failsIn_ok _
      · obtain ⟨hcoinbase, hback⟩ := hfirst st₁ h₁
        exact (validateTxs_backed hget (by omega) hback txs 0).1
      · rw [validateTxs, bind_eq_ok] at h
        obtain ⟨st₁, h₁, h⟩ := h
        have hcoinbase := (hfirst st₁ h₁).1
        have hle := (hrest st₁ st h₁ h).inFlight_le
        exact (checkBlockTotals_backed hcoinbase txs (by omega)).1
    · intro st h
      obtain ⟨h, htotals⟩ := validateLoop_eq_ok.mp h
      rw [validateTxs, bind_eq_ok] at h
      obtain ⟨st₁, h₁, h⟩ := h
      have hcoinbase := (hfirst st₁ h₁).1
      have hback := hrest st₁ st h₁ h
      have hle := hback.inFlight_le
      have hmint := (checkBlockTotals_backed hcoinbase txs (by omega)).2 htotals
      obtain ⟨b', hb', hle'⟩ := hback
      exact hb'.mono (by omega)

end Loop

/-- What a block leaves bound could still be spent. -/
theorem coinValue_settled_le {base : OutPoint → Option UtxoEntry} {st : LoopState}
    (h : st.Gathers base) (o : OutPoint) :
    coinValue (PartialMap.eraseAll (PartialMap.putAll base st.batch.inserts) st.batch.removals o)
      ≤ st.spendable base o := by
  rw [PartialMap.eraseAll_apply, spendable]
  by_cases ho : o ∈ st.batch.removals
  · rw [if_pos ho]
    exact zero_le _
  · rw [if_neg ho, if_pos fun hs => ho ((h.spent o).mp hs), PartialMap.putAll_apply, ← h.overlay]
    cases st.intraBlockUtxos o with
    | none => exact le_add_right _ _
    | some e => exact le_add_left _ _

variable [Hashing]

/-- **A block adds at most its subsidy** to what the store is worth. -/
theorem UtxoBatch.Validated.atMost {params : ConsensusParams}
    {base : OutPoint → Option UtxoEntry} {block : Block} {height : Nat} {batch : UtxoBatch}
    (h : batch.Validated params base block height) {b : Nat} (hb : b ≤ maxMoney)
    (hbase : AtMost (fun o => coinValue (base o)) b) :
    AtMost (fun o => coinValue
        (PartialMap.eraseAll (PartialMap.putAll base batch.inserts) batch.removals o))
      (b + (params.blockSubsidy height).toNat) := by
  obtain ⟨ctx, st, rfl, rfl, hget, hloop, rfl⟩ := h
  have hspendable := (validateLoop_backed hget hbase hb block.txdata).2 st hloop
  exact hspendable.of_le fun o => coinValue_settled_le
    (validateTxs_gathers hget LoopState.Gathers.init (validateLoop_eq_ok.mp hloop).1).1 o

omit [Hashing] in
theorem noOverflow_runScriptChecks [ScriptEngine] (flags : ScriptFlags) (ρ : IterOrder SigKey)
    (checks : List ScriptCheck) (cache : SigCache) :
    NoOverflow (runScriptChecks flags ρ checks cache).1 := by
  induction checks generalizing cache with
  | nil => exact failsIn_ok ()
  | cons c cs ih =>
    rw [runScriptChecks]
    split
    · exact failsIn_error rfl
    · exact ih _

/-- **No addition of a block's validation overflows** over a store worth at
most the money supply. -/
theorem ChainState.noOverflow_validateTransactions [ScriptEngine] {s : ChainState}
    (hs : s.Consistent) (hworth : AtMost (fun o => coinValue (s.utxoSet.view o)) maxMoney)
    (env : Env) (block : Block) (height mtp : Nat) (bip110 : Bip110Activation) :
    NoOverflow (s.validateTransactions env block height mtp bip110).1 := by
  have hget : ∀ o, ((s.prefetchBlock block).txContext env.overflow block height mtp bip110).get o
      = .ok (s.utxoSet.view o) := hs.get_prefetchBlock block
  have hno := (validateLoop_backed hget hworth (le_refl _) block.txdata).1
  rcases s.validateTransactions_cases env block height mtp bip110 with
    ⟨e, hloop, heq⟩ | ⟨st, result, cache, hloop, hrun, heq⟩ <;> rw [heq]
  · exact failsIn_error (hno e hloop)
  · have hscripts := noOverflow_runScriptChecks
      (ScriptFlags.forHeight height block.header.time.toNat s.params) env.sigOrder
      (env.checkOrder.order st.scriptChecks) s.sigCache
    rw [hrun] at hscripts
    cases result with
    | error e => exact failsIn_error (hscripts e rfl)
    | ok _ => exact failsIn_ok _
