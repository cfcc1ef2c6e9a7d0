import BitcoinPR.Core.Chain
import BitcoinPR.Lib.Ledger

/-!
# What an accepted block does to the coins

The transaction loop is taken apart once. `spendInputs_eq_ok` says exactly
when the inputs of a transaction can be spent and what is gathered then,
`validateTx_eq_ok` the same of a whole transaction. Read as a bulk processor
of transfers (`Tx.transfer`), the loop keeps the notes of `Ledger.Notes` and
admits what `Ledger.Admits` admits: `validateTxs_gathers` is the invariant,
over the whole loop.
-/

open List Except Ledger.Transfer

/-! ## Spending -/

/-- **An input resolves to a coin**: the lookup finds it and it is mature. -/
structure Resolves (ctx : TxContext) (overlay : OutPoint → Option UtxoEntry) (input : TxIn)
    (utxo : UtxoEntry) : Prop where
  found : lookupCoin ctx overlay input.previousOutput = .ok utxo
  mature : ctx.immature utxo = false

/-- The inputs of a list, each for the first time, resolve to `coins` of total
value `sum`. -/
structure Spendable (ctx : TxContext) (acc : InputState) (inputs : List TxIn)
    (coins : List UtxoEntry) (sum : UInt64) : Prop where
  resolves : List.Forall₂ (Resolves ctx acc.loop.intraBlockUtxos) inputs coins
  nodup : (inputs.map TxIn.previousOutput).Nodup
  unspent : ∀ o ∈ inputs.map TxIn.previousOutput, o ∉ acc.loop.spentInBlock
  sum_eq : sumU64 ctx.overflow (coins.map UtxoEntry.amount) acc.inputSum = .ok sum

variable {ctx : TxContext}

/-- What spending a list of inputs adds to what is gathered. -/
def InputState.spendAll (acc : InputState) (flags : ScriptFlags) (inputs : List TxIn)
    (coins : List UtxoEntry) (sum : UInt64) : InputState where
  loop := { acc.loop with
    batch := { acc.loop.batch with
      removals := acc.loop.batch.removals ++ inputs.map TxIn.previousOutput
      spentUtxos := acc.loop.batch.spentUtxos
        ++ List.zipWith (fun i e => ⟨i.previousOutput, e⟩) inputs coins }
    spentInBlock := (inputs.map TxIn.previousOutput).reverse ++ acc.loop.spentInBlock
    totalSigopCost := acc.loop.totalSigopCost
      + (List.zipWith (fun i e => inputSigopCost flags e.scriptPubkey i) inputs coins).sum }
  inputSum := sum
  prevouts := acc.prevouts ++ coins.map fun e => ⟨e.amount, e.scriptPubkey⟩
  inputHeights := acc.inputHeights ++ coins.map UtxoEntry.height

theorem spendInput_eq_ok {txid : Hash} {acc acc' : InputState} {vin : Nat} {input : TxIn} :
    spendInput ctx txid acc vin input = .ok acc' ↔
      input.previousOutput ∉ acc.loop.spentInBlock ∧
      ∃ utxo, Resolves ctx acc.loop.intraBlockUtxos input utxo ∧
        ∃ sum, addU64 ctx.overflow acc.inputSum utxo.amount = .ok sum
          ∧ acc.spend ctx.flags input utxo sum = acc' := by
  unfold spendInput
  simp only [bind_eq_ok, rejectIf_eq_ok, pure_eq_ok, exists_and_left,
    exists_const, Bool.not_eq_true]
  refine and_congr_right fun _ => exists_congr fun utxo => ?_
  constructor
  · rintro ⟨hfound, hmature, h⟩
    exact ⟨⟨hfound, hmature⟩, h⟩
  · rintro ⟨hres, h⟩
    exact ⟨hres.found, hres.mature, h⟩

theorem InputState.spendAll_cons (acc : InputState) (flags : ScriptFlags) (input : TxIn)
    (inputs : List TxIn) (utxo : UtxoEntry) (coins : List UtxoEntry) (sum₁ sum : UInt64) :
    (acc.spend flags input utxo sum₁).spendAll flags inputs coins sum
      = acc.spendAll flags (input :: inputs) (utxo :: coins) sum := by
  simp only [InputState.spend, InputState.spendAll, map_cons, zipWith_cons_cons,
    sum_cons, reverse_cons, append_assoc, cons_append, nil_append,
    Nat.add_assoc]

variable {inputs : List TxIn}

/-- **When the inputs of a transaction can be spent, and what is gathered
then.** -/
theorem spendInputs_eq_ok {txid : Hash} {vin : Nat} {acc acc' : InputState} :
    spendInputs ctx txid vin inputs acc = .ok acc' ↔
      ∃ coins sum, Spendable ctx acc inputs coins sum
        ∧ acc.spendAll ctx.flags inputs coins sum = acc' := by
  induction inputs generalizing acc vin with
  | nil =>
    have hnil : ∀ sum, acc.inputSum = sum → acc.spendAll ctx.flags [] [] sum = acc := by
      rintro _ rfl
      simp [InputState.spendAll]
    constructor
    · intro h
      obtain rfl := Except.ok.inj h
      exact ⟨[], acc.inputSum, ⟨.nil, nodup_nil, fun _ ho => (by cases ho), rfl⟩, hnil _ rfl⟩
    · rintro ⟨coins, sum, h, rfl⟩
      obtain rfl := forall₂_nil_left_iff.mp h.resolves
      rw [hnil sum (Except.ok.inj h.sum_eq)]
      rfl
  | cons input inputs ih =>
    rw [spendInputs, bind_eq_ok]
    constructor
    · rintro ⟨acc₁, h₁, h⟩
      obtain ⟨hfresh, utxo, hres, sum₁, hadd, rfl⟩ := spendInput_eq_ok.mp h₁
      obtain ⟨coins, sum, hs, rfl⟩ := ih.mp h
      refine ⟨utxo :: coins, sum, ⟨.cons hres hs.resolves, ?_, ?_, ?_⟩,
        (acc.spendAll_cons ctx.flags input inputs utxo coins sum₁ sum).symm⟩
      · -- the first outpoint is noted as spent when the others are looked at
        exact nodup_cons.mpr ⟨fun ho => hs.unspent _ ho mem_cons_self, hs.nodup⟩
      · intro o ho
        rcases mem_cons.mp ho with rfl | ho
        · exact hfresh
        · exact fun hspent => hs.unspent o ho (mem_cons_of_mem _ hspent)
      · rw [map_cons, sumU64, hadd]
        exact hs.sum_eq
    · rintro ⟨coins, sum, h, rfl⟩
      obtain ⟨utxo, coins, hres, hrest, rfl⟩ := forall₂_cons_left_iff.mp h.resolves
      have hnodup := nodup_cons.mp h.nodup
      have hsum := h.sum_eq
      rw [map_cons, sumU64, bind_eq_ok] at hsum
      obtain ⟨sum₁, hadd, hsum⟩ := hsum
      refine ⟨acc.spend ctx.flags input utxo sum₁, spendInput_eq_ok.mpr
        ⟨h.unspent _ mem_cons_self, utxo, hres, sum₁, hadd, rfl⟩, ih.mpr
        ⟨coins, sum, ⟨hrest, hnodup.2, fun o ho hspent => ?_, hsum⟩,
          acc.spendAll_cons ctx.flags input inputs utxo coins sum₁ sum⟩⟩
      rcases mem_cons.mp hspent with rfl | hspent
      · exact hnodup.1 ho
      · exact h.unspent o (mem_cons_of_mem _ ho) hspent

/-! ## One transaction -/

variable [Hashing]

/-- **When a transaction other than the coinbase is accepted**, what it spends
and the sums it is accepted with. -/
structure Pays (ctx : TxContext) (st : LoopState) (tx : Tx) (coins : List UtxoEntry)
    (inputSum outputSum totalFees : UInt64) : Prop where
  final : isFinalTx tx ctx.height ctx.locktimeTime = true
  spendable : Spendable ctx (st.startInputs tx) tx.input coins inputSum
  locks : checkBip68 ctx tx.computeTxid tx (coins.map UtxoEntry.height) = .ok ()
  outputSum_eq : sumU64 ctx.overflow (tx.output.map TxOut.value) 0 = .ok outputSum
  outputSum_le : outputSum ≤ inputSum
  totalFees_eq : addU64 ctx.overflow st.totalFees (inputSum - outputSum) = .ok totalFees

variable {st st' : LoopState}

/-- What a transaction leaves gathered. -/
def LoopState.pay (ctx : TxContext) (st : LoopState) (tx : Tx) (coins : List UtxoEntry)
    (inputSum totalFees : UInt64) : LoopState :=
  LoopState.accept ctx tx ((st.startInputs tx).spendAll ctx.flags tx.input coins inputSum)
    totalFees

theorem validateSpendingTx_eq_ok {tx : Tx} :
    validateSpendingTx ctx tx st = .ok st' ↔
      ∃ coins inputSum outputSum totalFees,
        Pays ctx st tx coins inputSum outputSum totalFees
          ∧ LoopState.pay ctx st tx coins inputSum totalFees = st' := by
  unfold validateSpendingTx
  simp only [bind_eq_ok, exists_unit, rejectIf_eq_ok, pure_eq_ok,
    Bool.not_eq_true, Bool.not_eq_false', spendInputs_eq_ok, UInt64.not_lt]
  constructor
  · rintro ⟨hfinal, acc, ⟨coins, inputSum, hspend, rfl⟩, hlocks, outputSum, hout, hle,
      totalFees, hfees, rfl⟩
    exact ⟨coins, inputSum, outputSum, totalFees, ⟨hfinal, hspend, hlocks, hout, hle, hfees⟩, rfl⟩
  · rintro ⟨coins, inputSum, outputSum, totalFees, h, rfl⟩
    exact ⟨h.final, _, ⟨coins, inputSum, h.spendable, rfl⟩, h.locks, outputSum, h.outputSum_eq,
      h.outputSum_le, totalFees, h.totalFees_eq, rfl⟩

theorem validateTx_eq_ok {txIdx : Nat} {tx : Tx} :
    validateTx ctx txIdx tx st = .ok st' ↔
      checkTxShape ctx tx.computeTxid tx = .ok () ∧
        if txIdx = 0 then validateCoinbaseTx ctx tx st = st'
        else validateSpendingTx ctx tx st = .ok st' := by
  unfold validateTx
  rw [bind_eq_ok, exists_unit]
  by_cases h : txIdx = 0
  · rw [if_pos h, if_pos h, pure_eq_ok]
  · rw [if_neg h, if_neg h]

/-! ## The loop as a bulk processor -/

/-- **A transaction as a transfer**: the outpoints it spends – none, if it is
the coinbase – and the coins it creates. -/
def Tx.transfer (height txIdx : Nat) (tx : Tx) : Ledger.Transfer OutPoint UtxoEntry :=
  ⟨if txIdx = 0 then [] else tx.input.map TxIn.previousOutput,
    createdCoins tx.computeTxid height (decide (txIdx = 0)) 0 tx.output⟩

def transfers (height : Nat) : Nat → List Tx → List (Ledger.Transfer OutPoint UtxoEntry)
  | _, [] => []
  | txIdx, tx :: txs => tx.transfer height txIdx :: transfers height (txIdx + 1) txs

/-- What the loop has noted. -/
def LoopState.notes (st : LoopState) : Ledger.Notes OutPoint UtxoEntry :=
  ⟨st.batch.removals, st.batch.inserts⟩

/-- **The invariant of the loop** over a store holding `base`: the spent set,
the overlay and the undo coins are what the batch says. -/
structure LoopState.Gathers (base : OutPoint → Option UtxoEntry) (st : LoopState) : Prop where
  spent : ∀ o, o ∈ st.spentInBlock ↔ o ∈ st.batch.removals
  overlay : st.intraBlockUtxos = PartialMap.putAll (fun _ => none) st.batch.inserts
  outpoints : st.batch.spentUtxos.map SpentUtxo.outpoint = st.batch.removals
  coins : ∀ u ∈ st.batch.spentUtxos, base u.outpoint = some u.entry ∨
    (base u.outpoint = none ∧ (u.outpoint, u.entry) ∈ st.batch.inserts)
  nodup : st.batch.removals.Nodup

omit [Hashing] in
theorem lookupCoin_eq_ok {base overlay : OutPoint → Option UtxoEntry}
    {o : OutPoint} {e : UtxoEntry} (hget : ctx.get o = .ok (base o)) :
    lookupCoin ctx overlay o = .ok e ↔ (base o).or (overlay o) = some e := by
  unfold lookupCoin
  rw [hget]
  cases h : (base o).or (overlay o) <;> simp [h]

omit [Hashing] in
/-- A coin that is found is the store's, or else the overlay's. -/
theorem exists_of_lookupCoin {overlay : OutPoint → Option UtxoEntry}
    {o : OutPoint} {e : UtxoEntry} (h : lookupCoin ctx overlay o = .ok e) :
    ∃ found, ctx.get o = .ok found ∧ found.or (overlay o) = some e := by
  cases hget : ctx.get o with
  | error err =>
    rw [lookupCoin, hget] at h
    cases h
  | ok found => exact ⟨found, rfl, (@lookupCoin_eq_ok _ (fun _ => found) _ _ _ hget).mp h⟩

variable {coins : List UtxoEntry} {R : TxIn → UtxoEntry → Prop}

section

variable (h : Forall₂ R inputs coins)
include h

omit [Hashing] in
/-- The spent coins of a list of inputs, by their outpoints. -/
theorem map_outpoint_zipWith :
    (List.zipWith (fun i e => (⟨i.previousOutput, e⟩ : SpentUtxo)) inputs coins).map
      SpentUtxo.outpoint = inputs.map TxIn.previousOutput := by
  induction h with
  | nil => rfl
  | cons _ _ ih => rw [zipWith_cons_cons, map_cons, map_cons, ih]

omit [Hashing] in
theorem exists_of_mem_zipWith {u : SpentUtxo}
    (hu : u ∈ List.zipWith (fun i e => (⟨i.previousOutput, e⟩ : SpentUtxo)) inputs coins) :
    ∃ i ∈ inputs, i.previousOutput = u.outpoint ∧ R i u.entry := by
  induction h with
  | nil => cases hu
  | cons hR _ ih =>
    rcases mem_cons.mp hu with rfl | hu
    · exact ⟨_, mem_cons_self, rfl, hR⟩
    · obtain ⟨i, hi, h⟩ := ih hu
      exact ⟨i, mem_cons_of_mem _ hi, h⟩

omit [Hashing] in
theorem exists_coin_of_mem {i : TxIn} (hi : i ∈ inputs) :
    ∃ e ∈ coins, R i e := by
  induction h with
  | nil => cases hi
  | cons hR _ ih =>
    rcases mem_cons.mp hi with rfl | hi
    · exact ⟨_, mem_cons_self, hR⟩
    · obtain ⟨e, he, h⟩ := ih hi
      exact ⟨e, mem_cons_of_mem _ he, h⟩

end

namespace LoopState.Gathers

variable {base : OutPoint → Option UtxoEntry}

omit [Hashing] in
theorem init : LoopState.init.Gathers base :=
  ⟨fun _ => Iff.rfl, rfl, rfl, fun _ hu => (by cases hu), nodup_nil⟩

omit [Hashing] in
/-- The invariant is about the batch, the spent set and the overlay. -/
theorem of_eq {st st' : LoopState} (h : st.Gathers base) (hb : st'.batch = st.batch)
    (hs : st'.spentInBlock = st.spentInBlock) (ho : st'.intraBlockUtxos = st.intraBlockUtxos) :
    st'.Gathers base := by
  refine ⟨?_, ?_, ?_, ?_, ?_⟩
  · rw [hs, hb]
    exact h.spent
  · rw [ho, hb]
    exact h.overlay
  · rw [hb]
    exact h.outpoints
  · rw [hb]
    exact h.coins
  · rw [hb]
    exact h.nodup

omit [Hashing] in
theorem create {st : LoopState} (h : st.Gathers base) (coins : List (OutPoint × UtxoEntry)) :
    (st.create coins).Gathers base where
  spent := h.spent
  overlay := by
    show PartialMap.putAll st.intraBlockUtxos coins
      = PartialMap.putAll _ (st.batch.inserts ++ coins)
    rw [PartialMap.putAll_append, h.overlay]
  outpoints := h.outpoints
  coins := fun u hu => (h.coins u hu).imp_right fun hin =>
    ⟨hin.1, mem_append_left coins hin.2⟩
  nodup := h.nodup

omit [Hashing] in
/-- A resolved coin is in the store, or else created before. -/
theorem of_resolves {ctx : TxContext} {st : LoopState} (h : st.Gathers base) {i : TxIn}
    {e : UtxoEntry} (hget : ctx.get i.previousOutput = .ok (base i.previousOutput))
    (hres : Resolves ctx st.intraBlockUtxos i e) :
    base i.previousOutput = some e ∨
      (base i.previousOutput = none ∧ (i.previousOutput, e) ∈ st.batch.inserts) := by
  have hfound := (lookupCoin_eq_ok hget).mp hres.found
  cases hb : base i.previousOutput with
  | some e' =>
    rw [hb] at hfound
    exact Or.inl hfound
  | none =>
    rw [hb, h.overlay] at hfound
    exact Or.inr ⟨rfl, PartialMap.mem_of_putAll_none hfound⟩

omit [Hashing] in
theorem spendAll {ctx : TxContext} (hget : ∀ o, ctx.get o = .ok (base o)) {acc : InputState}
    {inputs : List TxIn} {coins : List UtxoEntry} {sum : UInt64} (h : acc.loop.Gathers base)
    (hs : Spendable ctx acc inputs coins sum) (flags : ScriptFlags) :
    (acc.spendAll flags inputs coins sum).loop.Gathers base where
  spent := by
    intro o
    show o ∈ (inputs.map TxIn.previousOutput).reverse ++ acc.loop.spentInBlock
      ↔ o ∈ acc.loop.batch.removals ++ inputs.map TxIn.previousOutput
    rw [mem_append, mem_append, mem_reverse, h.spent, or_comm]
  overlay := h.overlay
  outpoints := by
    show (acc.loop.batch.spentUtxos ++ _).map SpentUtxo.outpoint
      = acc.loop.batch.removals ++ inputs.map TxIn.previousOutput
    rw [map_append, h.outpoints, map_outpoint_zipWith hs.resolves]
  coins := by
    intro u hu
    rcases mem_append.mp hu with hu | hu
    · exact h.coins u hu
    · obtain ⟨i, -, hi, hres⟩ := exists_of_mem_zipWith hs.resolves hu
      rw [← hi]
      exact h.of_resolves (hget _) hres
  nodup := by
    refine h.nodup.append hs.nodup fun o hold hnew => ?_
    exact hs.unspent o hnew ((h.spent o).mpr hold)

end LoopState.Gathers

section

variable {base : OutPoint → Option UtxoEntry} (hget : ∀ o, ctx.get o = .ok (base o))
include hget

omit [Hashing] in
/-- Inputs that can be spent are admitted. -/
theorem Spendable.admits {acc : InputState} {sum : UInt64} (h : acc.loop.Gathers base)
    (hs : Spendable ctx acc inputs coins sum) (creates : List (OutPoint × UtxoEntry)) :
    Ledger.Admits base acc.loop.notes ⟨inputs.map TxIn.previousOutput, creates⟩ where
  nodup := hs.nodup
  unspent := fun o ho hspent => hs.unspent o ho ((h.spent o).mpr hspent)
  known := by
    intro o ho
    obtain ⟨i, hi, rfl⟩ := mem_map.mp ho
    obtain ⟨e, -, hres⟩ := exists_coin_of_mem hs.resolves hi
    rcases h.of_resolves (hget _) hres with hb | ⟨-, hin⟩
    · exact Or.inl (by rw [hb]; rfl)
    · exact Or.inr (mem_map.mpr ⟨_, hin, rfl⟩)

/-- **One transaction** keeps the invariant, notes itself, and is admitted. -/
theorem validateTx_gathers {txIdx : Nat} {tx : Tx} (hst : st.Gathers base)
    (h : validateTx ctx txIdx tx st = .ok st') :
    st'.Gathers base ∧ st'.notes = st.notes.after (tx.transfer ctx.height txIdx)
      ∧ Ledger.Admits base st.notes (tx.transfer ctx.height txIdx) := by
  obtain ⟨-, h⟩ := validateTx_eq_ok.mp h
  have hstart : (st.startInputs tx).loop.Gathers base := hst.of_eq rfl rfl rfl
  unfold Tx.transfer
  by_cases h0 : txIdx = 0
  · rw [if_pos h0] at h
    subst h
    rw [if_pos h0, decide_eq_true h0]
    refine ⟨hstart.create _, ?_, ⟨nodup_nil, fun _ ho => (by cases ho), fun _ ho => (by cases ho)⟩⟩
    show (⟨st.batch.removals, _⟩ : Ledger.Notes OutPoint UtxoEntry) = ⟨st.batch.removals ++ [], _⟩
    rw [append_nil]
    rfl
  · rw [if_neg h0] at h
    obtain ⟨coins, inputSum, outputSum, totalFees, hp, rfl⟩ := validateSpendingTx_eq_ok.mp h
    rw [if_neg h0, decide_eq_false h0]
    have hspent := hstart.spendAll hget hp.spendable ctx.flags
    refine ⟨.create (hspent.of_eq ?_ ?_ ?_) _, rfl, hp.spendable.admits hget hstart _⟩ <;> rfl

/-- **The whole loop** keeps the invariant, notes every transaction, and admits
them all. -/
theorem validateTxs_gathers {txIdx : Nat} {txs : List Tx} (hst : st.Gathers base)
    (h : validateTxs ctx txIdx txs st = .ok st') :
    st'.Gathers base
      ∧ st'.notes = (transfers ctx.height txIdx txs).foldl Ledger.Notes.after st.notes
      ∧ Ledger.AdmitsAll base st.notes (transfers ctx.height txIdx txs) := by
  induction txs generalizing txIdx st with
  | nil =>
    obtain rfl := Except.ok.inj h
    exact ⟨hst, rfl, trivial⟩
  | cons tx txs ih =>
    rw [validateTxs, bind_eq_ok] at h
    obtain ⟨st₁, h₁, h⟩ := h
    obtain ⟨hst₁, hnotes, hadmits⟩ := validateTx_gathers hget hst h₁
    obtain ⟨hst', hnotes', hadmits'⟩ := ih hst₁ h
    rw [hnotes] at hnotes' hadmits'
    exact ⟨hst', hnotes', hadmits, hadmits'⟩

end

/-! ## The batch of a block -/

/-- The coins a block creates, in order. -/
def blockCoins (height : Nat) (block : Block) : List (OutPoint × UtxoEntry) :=
  (transfers height 0 block.txdata).flatMap creates

/-- **The batch of an accepted block**, over a store holding `base`: it inserts
what the block creates, removes what it spends, each outpoint once, and keeps
the coins spent. -/
structure UtxoBatch.Accepted (base : OutPoint → Option UtxoEntry) (block : Block) (height : Nat)
    (batch : UtxoBatch) : Prop where
  inserts : batch.inserts = blockCoins height block
  removals : batch.removals = ChainState.spentOutpoints block
  outpoints : batch.spentUtxos.map SpentUtxo.outpoint = batch.removals
  coins : ∀ u ∈ batch.spentUtxos, base u.outpoint = some u.entry ∨
    (base u.outpoint = none ∧ (u.outpoint, u.entry) ∈ batch.inserts)
  nodup : batch.removals.Nodup
  admits : Ledger.AdmitsAll base Ledger.Notes.empty (transfers height 0 block.txdata)

theorem flatMap_spends_transfers (height txIdx : Nat) (txs : List Tx) :
    (transfers height (txIdx + 1) txs).flatMap spends
      = txs.flatMap fun tx => tx.input.map TxIn.previousOutput := by
  induction txs generalizing txIdx with
  | nil => rfl
  | cons tx txs ih =>
    rw [transfers, flatMap_cons, flatMap_cons, ih, Tx.transfer, if_neg (Nat.succ_ne_zero txIdx)]

theorem flatMap_spends_transfers_zero (height : Nat) (block : Block) :
    (transfers height 0 block.txdata).flatMap spends
      = ChainState.spentOutpoints block := by
  unfold ChainState.spentOutpoints
  cases block.txdata with
  | nil => rfl
  | cons tx txs =>
    rw [transfers, flatMap_cons, flatMap_spends_transfers, Tx.transfer]
    rfl

omit [Hashing] in
/-- A created coin is the output at its position. -/
theorem mem_createdCoins {txid : Hash} {height : Nat} {isCoinbase : Bool} {vout : Nat}
    {outputs : List TxOut} {p : OutPoint × UtxoEntry}
    (hp : p ∈ createdCoins txid height isCoinbase vout outputs) :
    p.2.height = height ∧ ∃ i, p.1 = Tx.outpoint txid (vout + i)
      ∧ outputs[i]? = some ⟨p.2.amount, p.2.scriptPubkey⟩ := by
  induction outputs generalizing vout with
  | nil => cases hp
  | cons out outputs ih =>
    rw [createdCoins] at hp
    have hrest : p ∈ createdCoins txid height isCoinbase (vout + 1) outputs →
        p.2.height = height ∧ ∃ i, p.1 = Tx.outpoint txid (vout + i)
          ∧ (out :: outputs)[i]? = some ⟨p.2.amount, p.2.scriptPubkey⟩ := by
      intro hp
      obtain ⟨hheight, i, ho, hi⟩ := ih hp
      refine ⟨hheight, i + 1, ?_, hi⟩
      rw [ho, Nat.add_assoc, Nat.add_comm 1 i]
    split at hp
    · exact hrest hp
    · rcases mem_cons.mp hp with rfl | hp
      · exact ⟨rfl, 0, rfl, rfl⟩
      · exact hrest hp

omit [Hashing] in
theorem length_createdCoins_le (txid : Hash) (height : Nat) (isCoinbase : Bool) (vout : Nat)
    (outputs : List TxOut) :
    (createdCoins txid height isCoinbase vout outputs).length ≤ outputs.length := by
  induction outputs generalizing vout with
  | nil => exact Nat.le_refl 0
  | cons out outputs ih =>
    rw [createdCoins]
    split
    · exact Nat.le_succ_of_le (ih _)
    · exact Nat.succ_le_succ (ih _)

omit [Hashing] in
/-- The outpoints a transaction creates depend on its id and its outputs
alone. -/
theorem map_fst_createdCoins (txid : Hash) (height height' : Nat) (cb cb' : Bool) (vout : Nat)
    (outputs : List TxOut) :
    (createdCoins txid height cb vout outputs).map Prod.fst
      = (createdCoins txid height' cb' vout outputs).map Prod.fst := by
  induction outputs generalizing vout with
  | nil => rfl
  | cons out outputs ih =>
    rw [createdCoins, createdCoins]
    split
    · exact ih _
    · rw [map_cons, map_cons, ih]

theorem mem_transfers {height txIdx : Nat} {txs : List Tx}
    {t : Ledger.Transfer OutPoint UtxoEntry} (ht : t ∈ transfers height txIdx txs) :
    ∃ tx ∈ txs, ∃ i, t = tx.transfer height i := by
  induction txs generalizing txIdx with
  | nil => cases ht
  | cons tx txs ih =>
    rcases mem_cons.mp ht with rfl | ht
    · exact ⟨tx, mem_cons_self, txIdx, rfl⟩
    · obtain ⟨tx', htx', h⟩ := ih ht
      exact ⟨tx', mem_cons_of_mem tx htx', h⟩

theorem length_flatMap_transfers_le (height txIdx : Nat) (txs : List Tx) :
    ((transfers height txIdx txs).flatMap spends).length
      + ((transfers height txIdx txs).flatMap creates).length
      ≤ (txs.map fun tx => tx.input.length + tx.output.length).sum := by
  induction txs generalizing txIdx with
  | nil => exact Nat.le_refl 0
  | cons tx txs ih =>
    have hrest := ih (txIdx + 1)
    have hspends : (tx.transfer height txIdx).spends.length ≤ tx.input.length := by
      unfold Tx.transfer
      split
      · exact Nat.zero_le _
      · exact Nat.le_of_eq (length_map _)
    have hcreates : (tx.transfer height txIdx).creates.length ≤ tx.output.length :=
      length_createdCoins_le _ _ _ _ _
    rw [transfers, flatMap_cons, flatMap_cons, length_append, length_append, map_cons, sum_cons]
    omega

/-- Disconnecting removes exactly what the block created. -/
theorem mem_createdOutpoints {height : Nat} {block : Block} {o : OutPoint} :
    o ∈ ChainState.createdOutpoints block ↔ o ∈ (blockCoins height block).map Prod.fst := by
  have hgen : ∀ (txs : List Tx) (txIdx : Nat),
      o ∈ (txs.flatMap fun tx => (createdCoins tx.computeTxid 0 false 0 tx.output).map Prod.fst)
        ↔ o ∈ ((transfers height txIdx txs).flatMap creates).map Prod.fst := by
    intro txs
    induction txs with
    | nil => exact fun _ => Iff.rfl
    | cons tx txs ih =>
      intro txIdx
      rw [transfers, flatMap_cons, flatMap_cons, map_append, mem_append, mem_append, ih (txIdx + 1),
        map_fst_createdCoins _ 0 height false (decide (txIdx = 0))]
      rfl
  rw [blockCoins, ← hgen, ChainState.createdOutpoints, mem_flatMap, mem_flatMap]
  simp only [mem_reverse]

theorem validateLoop_eq_ok {txs : List Tx} {st : LoopState} :
    validateLoop ctx txs = .ok st
      ↔ validateTxs ctx 0 txs LoopState.init = .ok st ∧ checkBlockTotals ctx txs st = .ok () := by
  unfold validateLoop
  simp only [bind_eq_ok, exists_unit, pure_eq_ok]
  constructor
  · rintro ⟨st', h, htotals, rfl⟩
    exact ⟨h, htotals⟩
  · rintro ⟨h, htotals⟩
    exact ⟨st, h, htotals, rfl⟩

theorem accepted_of_validateLoop {base : OutPoint → Option UtxoEntry}
    (hget : ∀ o, ctx.get o = .ok (base o)) {block : Block} {st : LoopState}
    (h : validateLoop ctx block.txdata = .ok st) :
    st.batch.Accepted base block ctx.height := by
  obtain ⟨hst, hnotes, hadmits⟩ := validateTxs_gathers hget LoopState.Gathers.init
    (validateLoop_eq_ok.mp h).1
  rw [Ledger.Notes.foldl_after] at hnotes
  refine ⟨?_, ?_, hst.outpoints, hst.coins, hst.nodup, hadmits⟩
  · exact congrArg Ledger.Notes.puts hnotes
  · rw [← flatMap_spends_transfers_zero ctx.height]
    exact congrArg Ledger.Notes.spent hnotes

/-- **The batch of a block that passed the loop**, over a store holding
`base`. -/
def UtxoBatch.Validated (params : ConsensusParams) (base : OutPoint → Option UtxoEntry)
    (block : Block) (height : Nat) (batch : UtxoBatch) : Prop :=
  ∃ ctx st, ctx.params = params ∧ ctx.height = height ∧ (∀ o, ctx.get o = .ok (base o))
    ∧ validateLoop ctx block.txdata = .ok st ∧ st.batch = batch

namespace ChainState

/-- **A chain state that answers what it holds**: its store is sound, and no
coin in it is lost in the cache. -/
structure Consistent (s : ChainState) : Prop where
  sound : s.utxoSet.Sound
  compact : s.utxoSet.Compact

omit [Hashing] in
theorem Consistent.get_eq {s : ChainState} (h : s.Consistent) (o : OutPoint) :
    (s.utxoSet.get o).1 = .ok (s.utxoSet.view o) :=
  h.sound.get_eq (h.compact o)

omit [Hashing] in
/-- What the lookups of the transaction loop answer. -/
theorem Consistent.get_prefetchBlock {s : ChainState} (h : s.Consistent) (block : Block)
    (o : OutPoint) : ((s.prefetchBlock block).utxoSet.get o).1 = .ok (s.utxoSet.view o) := by
  have hr := UtxoSet.recached_prefetch s.utxoSet (spentOutpoints block)
  exact (h.sound.recached hr).get_eq ((h.compact.recached hr) o)

/-- The store a block's batch is applied to: its coins fetched, its undo record
stored, its height pending. -/
def stagedStore (s : ChainState) (block : Block) (height : Nat) (batch : UtxoBatch) : UtxoSet :=
  ((s.utxoSet.prefetch (spentOutpoints block)).storeUndo block.blockHash batch.spentUtxos
    (batch.inserts.map Prod.fst) block.header.prevBlockhash).setPendingFlushHeight height
      block.blockHash

variable {s s' : ChainState} {block : Block} {env : Env} {height mtp : Nat} [ScriptEngine]

/-- What comes of validating a block's transactions: of the loop, then of the
checks it queued. -/
theorem validateTransactions_cases (s : ChainState) (env : Env) (block : Block)
    (height mtp : Nat) (bip110 : Bip110Activation) :
    (∃ e, validateLoop ((s.prefetchBlock block).txContext env.overflow block height mtp bip110)
        block.txdata = .error e
      ∧ s.validateTransactions env block height mtp bip110 = (.error e, s.prefetchBlock block))
    ∨ ∃ st result sigCache,
      validateLoop ((s.prefetchBlock block).txContext env.overflow block height mtp bip110)
        block.txdata = .ok st
      ∧ runScriptChecks (ScriptFlags.forHeight height block.header.time.toNat s.params)
          env.sigOrder (env.checkOrder.order st.scriptChecks) s.sigCache = (result, sigCache)
      ∧ s.validateTransactions env block height mtp bip110
        = (result.map fun _ => st.batch, { s.prefetchBlock block with sigCache := sigCache }) := by
  unfold validateTransactions
  cases hloop : validateLoop ((s.prefetchBlock block).txContext env.overflow block height mtp
      bip110) block.txdata with
  | error e => exact Or.inl ⟨e, rfl, by simp only [hloop]⟩
  | ok st =>
    rcases hrun : runScriptChecks ((s.prefetchBlock block).txContext env.overflow block height mtp
      bip110).flags env.sigOrder (env.checkOrder.order st.scriptChecks)
      (s.prefetchBlock block).sigCache with ⟨result, cache⟩
    refine Or.inr ⟨st, result, cache, rfl, hrun, ?_⟩
    cases result <;> simp only [hloop, hrun] <;> rfl

theorem validateTransactions_eq_ok {bip110 : Bip110Activation} {batch : UtxoBatch} :
    s.validateTransactions env block height mtp bip110 = (.ok batch, s') ↔
      ∃ st sigCache,
        validateLoop ((s.prefetchBlock block).txContext env.overflow block height mtp bip110)
          block.txdata = .ok st
        ∧ runScriptChecks (ScriptFlags.forHeight height block.header.time.toNat s.params)
            env.sigOrder (env.checkOrder.order st.scriptChecks) s.sigCache = (.ok (), sigCache)
        ∧ st.batch = batch ∧ { s.prefetchBlock block with sigCache := sigCache } = s' := by
  rcases s.validateTransactions_cases env block height mtp bip110 with
    ⟨e, hloop, heq⟩ | ⟨st, result, cache, hloop, hrun, heq⟩
  · simp [hloop, heq]
  · cases result <;> simp [hloop, hrun, heq, Except.map]

variable {height : Nat}

/-- **When a block is connected**, and the state it leaves. -/
theorem connectBlock_eq_ok {txids : List Hash} :
    s.connectBlock env block height = (.ok txids, s') ↔
      ∃ mtp bip110 bipCache batch s₁,
        s.checkBlock env.now block height = .ok mtp
        ∧ s.bip110Activation block.header.prevBlockhash height = (bip110, bipCache)
        ∧ s.checkMandatorySignaling bip110 block height = .ok ()
        ∧ ({ s with bip110Cache := bipCache } : ChainState).validateTransactions env block height
            mtp bip110 = (.ok batch, s₁)
        ∧ block.txdata.map Tx.computeTxid = txids
        ∧ s₁.commitBlock env block height batch = s' := by
  unfold connectBlock
  cases hcheck : s.checkBlock env.now block height with
  | error e => simp
  | ok mtp =>
    rcases hbip : s.bip110Activation block.header.prevBlockhash height with ⟨bip110, bipCache⟩
    have hsame : ({ s with bip110Cache := bipCache } : ChainState).checkMandatorySignaling bip110
      block height = s.checkMandatorySignaling bip110 block height := rfl
    simp only [hsame]
    cases hsig : s.checkMandatorySignaling bip110 block height with
    | error e => simp [hsig]
    | ok u =>
      rcases hval : ({ s with bip110Cache := bipCache } : ChainState).validateTransactions env
        block height mtp bip110 with ⟨result, s₁⟩
      cases result with
      | error e => simp [hval, hsig]
      | ok batch => simp [hval, hsig]

/-- What a rejected block leaves behind: more in the caches, and nothing
else. -/
structure Rejected (s s' : ChainState) : Prop where
  recached : UtxoSet.Recached s.utxoSet s'.utxoSet
  params : s'.params = s.params
  headerIndex : s'.headerIndex = s.headerIndex
  bestHeight : s'.bestHeight = s.bestHeight
  bestHash : s'.bestHash = s.bestHash

theorem rejected_validateTransactions
    {bip110 : Bip110Activation} {result : Except CoreError UtxoBatch}
    (h : s.validateTransactions env block height mtp bip110 = (result, s')) : Rejected s s' := by
  have hr := UtxoSet.recached_prefetch s.utxoSet (spentOutpoints block)
  rcases s.validateTransactions_cases env block height mtp bip110 with
    ⟨e, -, heq⟩ | ⟨st, result, cache, -, -, heq⟩ <;>
  · obtain rfl := (Prod.mk.inj (heq.symm.trans h)).2
    exact ⟨hr, rfl, rfl, rfl, rfl⟩

theorem rejected_of_connectBlock_eq_error
    {e : CoreError} (h : s.connectBlock env block height = (.error e, s')) :
    Rejected s s' := by
  have hrefl : Rejected s s := ⟨UtxoSet.Recached.refl _, rfl, rfl, rfl, rfl⟩
  unfold connectBlock at h
  cases hcheck : s.checkBlock env.now block height with
  | error e' =>
    rw [hcheck] at h
    exact (Prod.mk.inj h).2 ▸ hrefl
  | ok mtp =>
    rw [hcheck] at h
    rcases hbip : s.bip110Activation block.header.prevBlockhash height with ⟨bip110, bipCache⟩
    simp only [hbip] at h
    split at h
    · obtain rfl := (Prod.mk.inj h).2
      exact ⟨UtxoSet.Recached.refl _, rfl, rfl, rfl, rfl⟩
    · rcases hval : ({ s with bip110Cache := bipCache } : ChainState).validateTransactions env
        block height mtp bip110 with ⟨result, s₁⟩
      rw [hval] at h
      have hrej := rejected_validateTransactions hval
      cases result with
      | error e' =>
        obtain rfl := (Prod.mk.inj h).2
        exact ⟨hrej.recached, hrej.params, hrej.headerIndex, hrej.bestHeight, hrej.bestHash⟩
      | ok batch => cases (Prod.mk.inj h).1

/-- **A connected block**: the batch it was accepted with and what it leaves
behind. -/
structure Connected (s : ChainState) (env : Env) (block : Block) (height : Nat)
    (batch : UtxoBatch) (s' : ChainState) : Prop where
  validated : batch.Validated s.params s.utxoSet.view block height
  weight : block.weight ≤ s.params.maxBlockWeight.toNat
  utxoSet : s'.utxoSet = ((s.stagedStore block height batch).applyBatch env.order batch).1
  bestHeight : s'.bestHeight = height
  bestHash : s'.bestHash = block.blockHash
  params : s'.params = s.params

omit [ScriptEngine] in
theorem Connected.accepted {batch : UtxoBatch} (h : Connected s env block height batch s') :
    batch.Accepted s.utxoSet.view block height := by
  obtain ⟨ctx, st, -, rfl, hget, hloop, rfl⟩ := h.validated
  exact accepted_of_validateLoop hget hloop

omit [ScriptEngine] in
/-- A block that is checked is within its weight. -/
theorem weight_le_of_checkBlock {s : ChainState} {now : UInt32}
    (h : s.checkBlock now block height = .ok mtp) :
    block.weight ≤ s.params.maxBlockWeight.toNat := by
  unfold checkBlock checkBody validateBlockWeight at h
  simp only [bind_eq_ok, exists_unit] at h
  have hw := h.2.1.2.1
  by_contra hlt
  rw [if_pos (Nat.lt_of_not_le hlt)] at hw
  cases hw

/-- Connecting a block over a sound store. -/
theorem exists_connected {txids : List Hash} (hs : s.Consistent)
    (h : s.connectBlock env block height = (.ok txids, s')) :
    ∃ batch, Connected s env block height batch s' := by
  obtain ⟨mtp, bip110, bipCache, batch, s₁, hcheck, -, -, hval, -, rfl⟩ :=
    connectBlock_eq_ok.mp h
  obtain ⟨st, sigCache, hloop, -, rfl, rfl⟩ := validateTransactions_eq_ok.mp hval
  exact ⟨st.batch, ⟨_, st, rfl, rfl, hs.get_prefetchBlock block, hloop, rfl⟩,
    weight_le_of_checkBlock hcheck, rfl, rfl, rfl, rfl⟩

end ChainState
