import BitcoinPR.Core.Reorg

/-!
# What the coinbase commits to

The coinbase names the height of its block (BIP 34) and, from the segwit height on,
commits to the witnesses (BIP 141). Both checks of the code read what they find
instead of comparing it with what should be there.

The height is decoded. Everything the canonical form can be decodes to the height, but
so do pushes with needless zero bytes, pushes of small numbers that have an opcode, and
pushes without the zero byte that keeps a number positive. The height is
accepted in every form `SpellsHeight` lists.

The commitment is looked at only when a transaction other than the coinbase carries a
witness, and the witness of the coinbase, which the commitment is salted with, is
replaced by zeros when it does not have the right shape.
-/

open List UInt8

/-! ## The height of the block -/

/-- A number as a script pushes it: the shortest little-endian form whose top bit is
clear. -/
def scriptNumber (n : Nat) : Bytes := leBytes (n.size / 8 + 1) n

/-- **The bytes of `CScript() << height`.** -/
def heightPush (height : Nat) : Bytes :=
  if height = 0 then [0x00]
  else if height ≤ 16 then [UInt8.ofNat (0x50 + height)]
  else UInt8.ofNat (scriptNumber height).length :: scriptNumber height

/-- `scriptNumber` fits, with the top bit clear, and nothing shorter does. -/
theorem scriptNumber_fits (n : Nat) :
    2 * n < 256 ^ (scriptNumber n).length
      ∧ ∀ w, w < (scriptNumber n).length → 0 < w → 256 ^ w ≤ 2 * n := by
  have hpow : ∀ w, 256 ^ w = 2 ^ (8 * w) := fun w => by rw [pow_mul]; norm_num
  have hsize : n < 2 ^ n.size := Nat.lt_size_self n
  rw [scriptNumber, length_leBytes]
  constructor
  · rw [hpow]
    calc 2 * n < 2 * 2 ^ n.size := by omega
      _ = 2 ^ (n.size + 1) := by ring
      _ ≤ 2 ^ (8 * (n.size / 8 + 1)) := Nat.pow_le_pow_right Nat.two_pos (by omega)
  · intro w hw hpos
    have hle : 8 * w - 1 < n.size := by omega
    have := Nat.lt_size.mp hle
    rw [hpow]
    calc 2 ^ (8 * w) = 2 * 2 ^ (8 * w - 1) := by
          rw [← pow_succ']
          congr 1
          omega
      _ ≤ 2 * n := by omega

theorem ofLeBytes_scriptNumber (n : Nat) : ofLeBytes (scriptNumber n) = n := by
  have hfits := (scriptNumber_fits n).1
  rw [scriptNumber, length_leBytes] at hfits
  exact ofLeBytes_leBytes (by omega)

/-- A height of 32 bits takes up to five bytes. -/
theorem length_scriptNumber {n : Nat} (h : n < 2 ^ 32) :
    1 ≤ (scriptNumber n).length ∧ (scriptNumber n).length ≤ 5 := by
  have hsize : n.size ≤ 32 := Nat.size_le.mpr h
  rw [scriptNumber, length_leBytes]
  omega

/-- A script starts by pushing some bytes. -/
def PushesFirst (script data : Bytes) : Prop := UInt8.ofNat data.length :: data <+: script

/-- **The forms in which the height is accepted**: an opcode, or any push of one to five
bytes that spell it, whatever zeros they end with. -/
inductive SpellsHeight (height : Nat) (script : Bytes) : Prop
  | zero (h : height = 0) (hs : [0x00] <+: script)
  | small (h : 1 ≤ height ∧ height ≤ 16) (hs : [UInt8.ofNat (0x50 + height)] <+: script)
  | push {data : Bytes} (hlen : 1 ≤ data.length ∧ data.length ≤ 5) (hs : PushesFirst script data)
      (h : ofLeBytes data = height)

/-- A zero byte at the end changes nothing. -/
theorem ofLeBytes_dropLast {data : Bytes} (h : data.getLast? = some 0x00) :
    ofLeBytes data.dropLast = ofLeBytes data := by
  have hsplit := dropLast_append_getLast? 0x00 h
  have := ofLeBytes_append data.dropLast [0x00]
  rw [hsplit] at this
  rw [this]
  simp [ofLeBytes]

variable {height : Nat}

/-- Dropping the sign byte leaves the value, and at most four bytes are read. -/
theorem encodedHeight_push {first : UInt8} {rest : Bytes} (hfirst : 0x01 ≤ first ∧ first ≤ 0x09) :
    encodedHeight (first :: rest) = .ok height ↔
      first.toNat ≤ rest.length ∧ ofLeBytes (rest.take first.toNat) = height
        ∧ (first.toNat ≤ 4
          ∨ (first.toNat = 5 ∧ (rest.take first.toNat).getLast? = some 0x00)) := by
  have hone : 1 ≤ first.toNat := le_iff_toNat_le.mp hfirst.1
  have hnine : first.toNat ≤ 9 := le_iff_toNat_le.mp hfirst.2
  have hzero : first ≠ 0x00 := by
    rintro rfl
    exact absurd hone (by decide)
  have hsmall : ¬ (0x51 ≤ first ∧ first ≤ 0x60) := by
    rintro ⟨h, -⟩
    have hge : 0x51 ≤ first.toNat := le_iff_toNat_le.mp h
    omega
  rw [encodedHeight, if_neg hzero, if_neg hsmall, if_pos hfirst]
  by_cases hlen : rest.length < first.toNat
  · rw [if_pos hlen]
    exact iff_of_false (by simp) (by omega)
  · rw [if_neg hlen]
    have hdata : (rest.take first.toNat).length = first.toNat := by
      rw [length_take]
      omega
    simp only
    by_cases hlast : (rest.take first.toNat).getLast? = some 0x00 ∧ 1 < first.toNat
    · rw [if_pos hlast, length_dropLast, hdata, ofLeBytes_dropLast hlast.1]
      by_cases hfour : 4 < first.toNat - 1
      · rw [if_pos hfour]
        exact iff_of_false (by simp) (by omega)
      · rw [if_neg hfour, Except.ok.injEq]
        have hshape : first.toNat ≤ 4 ∨ first.toNat = 5 := by omega
        exact ⟨fun h => ⟨by omega, h, hshape.imp_right fun h5 => ⟨h5, hlast.1⟩⟩, fun h => h.2.1⟩
    · rw [if_neg hlast, hdata]
      by_cases hfour : 4 < first.toNat
      · rw [if_pos hfour]
        refine iff_of_false (by simp) ?_
        rintro ⟨-, -, h4 | ⟨h5, hl⟩⟩
        · omega
        · exact hlast ⟨hl, by omega⟩
      · rw [if_neg hfour, Except.ok.injEq]
        exact ⟨fun h => ⟨by omega, h, Or.inl (by omega)⟩, fun h => h.2.1⟩

/-- Five bytes that spell a number of 32 bits end with a zero. -/
theorem getLast?_of_ofLeBytes_lt {data : Bytes} (hlen : data.length = 5)
    (h : ofLeBytes data < 2 ^ 32) : data.getLast? = some 0x00 := by
  match data, hlen with
  | [a, b, c, d, e], _ =>
    have he : e.toNat = 0 := by
      simp only [ofLeBytes] at h
      omega
    rw [show e = 0x00 from UInt8.toNat_inj.mp he]
    rfl

theorem pushesFirst_iff {first : UInt8} {rest data : Bytes} (hlen : data.length < 256) :
    PushesFirst (first :: rest) data
      ↔ first.toNat = data.length ∧ rest.take first.toNat = data := by
  have hnat : (UInt8.ofNat data.length).toNat = data.length := by
    rw [toNat_ofNat', Nat.mod_eq_of_lt hlen]
  unfold PushesFirst
  rw [cons_prefix_cons, prefix_iff_eq_take]
  constructor
  · rintro ⟨rfl, hdata⟩
    exact ⟨hnat, by rw [hnat]; exact hdata.symm⟩
  · rintro ⟨hfirst, hdata⟩
    refine ⟨UInt8.toNat_inj.mp (hnat.trans hfirst.symm), ?_⟩
    rw [← hfirst]
    exact hdata.symm

theorem encodedHeight_small {first : UInt8} {rest : Bytes} (h : 0x51 ≤ first ∧ first ≤ 0x60) :
    encodedHeight (first :: rest) = .ok (first.toNat - 0x50) := by
  have hzero : first ≠ 0x00 := by
    rintro rfl
    exact absurd h.1 (by decide)
  rw [encodedHeight, if_neg hzero, if_pos h]

variable {script : Bytes}

/-- The opcode of a small number. -/
theorem toNat_smallOpcode (h : 1 ≤ height ∧ height ≤ 16) :
    (UInt8.ofNat (0x50 + height)).toNat = 0x50 + height := by
  rw [toNat_ofNat', Nat.mod_eq_of_lt (by omega)]

theorem spellsHeight_of_encodedHeight
    (h : encodedHeight script = .ok height) : SpellsHeight height script := by
  match script with
  | [] => cases h
  | first :: rest =>
    by_cases hzero : first = 0x00
    · subst hzero
      exact .zero (Except.ok.inj h).symm (cons_prefix_cons.mpr ⟨rfl, nil_prefix⟩)
    · by_cases hsmall : 0x51 ≤ first ∧ first ≤ 0x60
      · rw [encodedHeight_small hsmall] at h
        have hlow : 0x51 ≤ first.toNat := le_iff_toNat_le.mp hsmall.1
        have hhigh : first.toNat ≤ 0x60 := le_iff_toNat_le.mp hsmall.2
        have hheight := Except.ok.inj h
        refine .small (by omega) (cons_prefix_cons.mpr ⟨?_, nil_prefix⟩)
        rw [← UInt8.toNat_inj, toNat_smallOpcode (by omega)]
        omega
      · by_cases hpush : 0x01 ≤ first ∧ first ≤ 0x09
        · obtain ⟨hlen, hvalue, hshape⟩ := (encodedHeight_push hpush).mp h
          have hone : 1 ≤ first.toNat := le_iff_toNat_le.mp hpush.1
          have hdata : (rest.take first.toNat).length = first.toNat := by
            rw [length_take]
            omega
          refine .push (by omega) ((pushesFirst_iff (by omega)).mpr ⟨hdata.symm, rfl⟩) hvalue
        · rw [encodedHeight, if_neg hzero, if_neg hsmall, if_neg hpush] at h
          cases h

/-- **What `encodedHeight` decodes.** -/
theorem encodedHeight_eq_ok (hheight : height < 2 ^ 32) :
    encodedHeight script = .ok height ↔ SpellsHeight height script := by
  refine ⟨spellsHeight_of_encodedHeight, fun h => ?_⟩
  cases h with
  | zero h hs =>
    obtain ⟨rest, rfl⟩ := hs
    rw [h]
    rfl
  | small h hs =>
    obtain ⟨rest, rfl⟩ := hs
    have hnat := toNat_smallOpcode h
    rw [singleton_append, encodedHeight_small, hnat, Nat.add_sub_cancel_left]
    rw [le_iff_toNat_le, le_iff_toNat_le, hnat]
    exact ⟨Nat.add_le_add_left h.1 0x50, Nat.add_le_add_left h.2 0x50⟩
  | push hlen hs h =>
    rename_i data
    match script with
    | [] => exact absurd hs (by simp [PushesFirst])
    | first :: rest =>
      obtain ⟨hfirst, hdata⟩ := (pushesFirst_iff (by omega)).mp hs
      have hpush : 0x01 ≤ first ∧ first ≤ 0x09 := by
        rw [le_iff_toNat_le, le_iff_toNat_le, hfirst]
        exact ⟨hlen.1, Nat.le_trans hlen.2 (by decide)⟩
      have htake := congrArg List.length hdata
      rw [length_take] at htake
      refine (encodedHeight_push hpush).mpr ⟨by omega, by rw [hdata, h], ?_⟩
      rcases Nat.lt_or_ge first.toNat 5 with hlt | hge
      · exact Or.inl (Nat.le_of_lt_succ hlt)
      · refine Or.inr ⟨by omega, ?_⟩
        rw [hdata]
        exact getLast?_of_ofLeBytes_lt (by omega) (by omega)

/-- **What the coinbase of a block is checked for**, once its shape is right. -/
theorem validateCoinbase_eq_ok {block : Block} {coinbase : Tx} {txs : List Tx}
    {params : ConsensusParams} (hblock : block.txdata = coinbase :: txs)
    (hcoinbase : coinbase.isCoinbase = true)
    (hscript : (coinbase.input.head?.map TxIn.scriptSig).getD [] = script)
    (hlen : 2 ≤ script.length ∧ script.length ≤ 100) (hbip34 : params.bip34Height ≤ height)
    (hheight : height < 2 ^ 32) :
    validateCoinbase block height params = .ok () ↔ SpellsHeight height script := by
  rw [← encodedHeight_eq_ok hheight]
  unfold validateCoinbase
  simp only [hblock, hscript, hcoinbase, Except.bind_eq_ok, exists_unit, rejectIf_eq_ok,
    Bool.not_true, Bool.false_eq_true, not_false_eq_true, Classical.not_not, true_and,
    if_pos hbip34]
  constructor
  · rintro ⟨-, encoded, h, rfl⟩
    exact h
  · intro h
    exact ⟨hlen, height, h, rfl⟩

/-- The canonical form is one of those accepted. -/
theorem spellsHeight_of_heightPush (hheight : height < 2 ^ 32)
    (h : heightPush height <+: script) : SpellsHeight height script := by
  unfold heightPush at h
  by_cases hzero : height = 0
  · rw [if_pos hzero] at h
    exact .zero hzero h
  · rw [if_neg hzero] at h
    by_cases hsmall : height ≤ 16
    · rw [if_pos hsmall] at h
      exact .small ⟨Nat.pos_of_ne_zero hzero, hsmall⟩ h
    · rw [if_neg hsmall] at h
      exact .push (length_scriptNumber hheight) h (ofLeBytes_scriptNumber height)

/-- **Another form of the height**: a push of one to five bytes that spell it, and not the
canonical one. -/
def OtherForm (height : Nat) (script : Bytes) : Prop :=
  (∃ data : Bytes, (1 ≤ data.length ∧ data.length ≤ 5) ∧ PushesFirst script data
      ∧ ofLeBytes data = height)
    ∧ ¬ heightPush height <+: script

/-- **The height is accepted in its canonical form only**, for scripts that do not spell it
in another. -/
theorem validateCoinbase_iff_heightPush_iff {block : Block} {coinbase : Tx} {txs : List Tx}
    {height : Nat} {params : ConsensusParams} (hblock : block.txdata = coinbase :: txs)
    (hcoinbase : coinbase.isCoinbase = true) {script : Bytes}
    (hscript : (coinbase.input.head?.map TxIn.scriptSig).getD [] = script)
    (hlen : 2 ≤ script.length ∧ script.length ≤ 100) (hbip34 : params.bip34Height ≤ height)
    (hheight : height < 2 ^ 32) :
    (validateCoinbase block height params = .ok () ↔ heightPush height <+: script)
      ↔ ¬ OtherForm height script := by
  rw [validateCoinbase_eq_ok hblock hcoinbase hscript hlen hbip34 hheight]
  constructor
  · rintro h ⟨⟨data, hdata, hpush, hvalue⟩, hnot⟩
    exact hnot (h.mp (.push hdata hpush hvalue))
  · intro h
    refine ⟨fun hspells => ?_, spellsHeight_of_heightPush hheight⟩
    by_contra hnot
    cases hspells with
    | zero hz hs =>
      rw [heightPush, if_pos hz] at hnot
      exact hnot hs
    | small hsm hs =>
      rw [heightPush, if_neg (by omega), if_pos hsm.2] at hnot
      exact hnot hs
    | push hdata hs hvalue => exact h ⟨⟨_, hdata, hs, hvalue⟩, hnot⟩

/-- **The height is accepted in its canonical form only**, whatever the block. -/
def HeightsCanonical : Prop :=
  ∀ (block : Block) (coinbase : Tx) (txs : List Tx) (height : Nat) (params : ConsensusParams)
    (script : Bytes), block.txdata = coinbase :: txs → coinbase.isCoinbase = true →
    (coinbase.input.head?.map TxIn.scriptSig).getD [] = script →
    2 ≤ script.length ∧ script.length ≤ 100 → params.bip34Height ≤ height → height < 2 ^ 32 →
    (validateCoinbase block height params = .ok () ↔ heightPush height <+: script)

/-- A block of a coinbase with a given script. -/
def heightBlock (script : Bytes) : Block :=
  ⟨sampleHeader 0 1 0 0,
    [⟨1, 0, [⟨OutPoint.null, script, 0xffffffff, []⟩], [⟨5000000000, [0x51]⟩]⟩]⟩

/-- Height 500, in its canonical form. -/
theorem heightPush_accepted :
    (validateCoinbase (heightBlock [0x02, 0xf4, 0x01]) 500 ConsensusParams.regtest = .ok ()
        ↔ heightPush 500 <+: [0x02, 0xf4, 0x01])
      ↔ ¬ OtherForm 500 [0x02, 0xf4, 0x01] :=
  validateCoinbase_iff_heightPush_iff rfl (by decide) rfl (by decide) (by decide) (by decide)

/-- Height 17 is accepted with a needless zero byte. -/
theorem not_heightsCanonical : ¬ HeightsCanonical := by
  intro h
  have hiff := h (heightBlock [0x02, 0x11, 0x00]) _ [] 17 ConsensusParams.regtest
    [0x02, 0x11, 0x00] rfl (by decide) rfl (by decide) (by decide) (by decide)
  have hpush := hiff.mp (by decide)
  exact absurd hpush (by decide)

/-! ## The witness commitment -/

/-- The commitment output of a block: the last output of the coinbase that starts with the
commitment header. -/
def commitmentOutput (block : Block) : Option TxOut :=
  block.txdata.head?.bind fun coinbase =>
    coinbase.output.reverse.find? fun o => isCommitment o.scriptPubkey

/-- The witness of the coinbase input. -/
def coinbaseWitness (block : Block) : List Bytes :=
  ((block.txdata.head?.bind fun coinbase => coinbase.input.head?).map TxIn.witness).getD []

/-- The coinbase carries one item of 32 bytes. -/
def HasNonce (block : Block) : Prop := ∃ item, coinbaseWitness block = [item] ∧ item.length = 32

/-- The 32 bytes the code salts the commitment with. -/
def takenNonce (block : Block) : Bytes :=
  match block.txdata.head?.bind fun coinbase => coinbase.input.head?.bind fun i =>
      i.witness.head? with
  | some item => if item.length = 32 then item else List.replicate 32 0
  | none => List.replicate 32 0

theorem takenNonce_of_eq {block : Block} {item : Bytes} (h : coinbaseWitness block = [item])
    (hlen : item.length = 32) : takenNonce block = item := by
  unfold coinbaseWitness at h
  unfold takenNonce
  cases hblock : block.txdata.head? with
  | none => simp [hblock] at h
  | some coinbase =>
    cases hin : coinbase.input.head? with
    | none => simp [hblock, hin] at h
    | some i =>
      simp only [hblock, hin, Option.bind_some, Option.map_some, Option.getD_some] at h
      simp only [Option.bind_some, hin, h, head?_cons]
      exact if_pos hlen

section Commitment

variable [Hashing]

/-- The root of the witness ids, that of the coinbase taken as zero. -/
def witnessRoot (block : Block) : Hash :=
  merkleRoot (Hash.allZeros :: (block.txdata.map Tx.computeWtxid).tail)

/-- An output commits to the witnesses, salted with 32 bytes. -/
def Commits (block : Block) (o : TxOut) (nonce : Bytes) : Prop :=
  Hashing.hashPair (witnessRoot block) (hashOfBytes nonce)
    = hashOfBytes ((o.scriptPubkey.drop 6).take 32)

/-- **The witness rule of BIP 141**: a commitment output commits to the witnesses, with the
single item of the coinbase; without one, no transaction carries a witness. -/
def Bip141 (block : Block) : Prop :=
  match commitmentOutput block with
  | some o => ∃ item, coinbaseWitness block = [item] ∧ item.length = 32 ∧ Commits block o item
  | none => ∀ tx ∈ block.txdata, ∀ i ∈ tx.input, i.witness = []

variable {block : Block}

/-- **What is checked where another transaction carries a witness.** -/
theorem validateWitnessCommitment_eq_ok (hw : blockHasWitness block = true) :
    validateWitnessCommitmentWithWtxids block (block.txdata.map Tx.computeWtxid) = .ok ()
      ↔ ∃ o, commitmentOutput block = some o ∧ Commits block o (takenNonce block) := by
  match hblock : block.txdata with
  | [] =>
    unfold blockHasWitness at hw
    rw [hblock] at hw
    cases hw
  | coinbase :: txs =>
    have hout : commitmentOutput block
        = coinbase.output.reverse.find? fun o => isCommitment o.scriptPubkey := by
      rw [commitmentOutput, hblock]
      rfl
    unfold validateWitnessCommitmentWithWtxids
    rw [hw, hout]
    simp only [Bool.not_true, Bool.false_eq_true, if_false, hblock]
    cases hfind : coinbase.output.reverse.find? fun o => isCommitment o.scriptPubkey with
    | none => simp
    | some o =>
      simp only [Option.some.injEq, exists_eq_left', Commits, witnessRoot, takenNonce, hblock]
      exact rejectIf_eq_ok.trans not_not

/-- **The commitment check** accepts what carries no witness outside the coinbase, and what
matches the bytes it takes. -/
theorem checkCommitment_eq_ok {params : ConsensusParams} {height : Nat}
    (hsegwit : params.segwitHeight ≤ height) :
    checkCommitment params block height = .ok () ↔ (blockHasWitness block = true →
      ∃ o, commitmentOutput block = some o ∧ Commits block o (takenNonce block)) := by
  rw [checkCommitment, checkIf_eq_ok]
  constructor
  · intro h hw
    exact (validateWitnessCommitment_eq_ok hw).mp (h ⟨hsegwit, hw⟩)
  · rintro h ⟨-, hw⟩
    exact (validateWitnessCommitment_eq_ok hw).mpr (h hw)

/-- BIP 141 is the stricter rule. -/
theorem checkCommitment_of_bip141 {params : ConsensusParams} {height : Nat}
    (hsegwit : params.segwitHeight ≤ height) (h : Bip141 block) :
    checkCommitment params block height = .ok () := by
  refine (checkCommitment_eq_ok hsegwit).mpr fun hw => ?_
  unfold Bip141 at h
  cases hout : commitmentOutput block with
  | some o =>
    simp only [hout] at h
    obtain ⟨item, hitem, hlen, hcommits⟩ := h
    exact ⟨o, rfl, by rw [takenNonce_of_eq hitem hlen]; exact hcommits⟩
  | none =>
    simp only [hout] at h
    have hnone : blockHasWitness block = false := by
      simpa [blockHasWitness, any_eq_false] using fun tx htx => h tx (mem_of_mem_tail htx)
    rw [hnone] at hw
    cases hw

/-- **What keeps the check exact.** Where no other transaction carries a witness, a
commitment output is right and without one the coinbase carries nothing either; where one
does, a commitment to what the code takes for the nonce is one to a real nonce. -/
structure CommitmentPlain (block : Block) : Prop where
  unneeded : blockHasWitness block = false → Bip141 block
  nonce : blockHasWitness block = true → ∀ o, commitmentOutput block = some o →
    Commits block o (takenNonce block) → HasNonce block

/-- **The commitment check decides BIP 141** exactly on such blocks. -/
theorem checkCommitment_iff_bip141_iff {params : ConsensusParams} {block : Block} {height : Nat}
    (hsegwit : params.segwitHeight ≤ height) :
    (checkCommitment params block height = .ok () ↔ Bip141 block) ↔ CommitmentPlain block := by
  constructor
  · intro h
    constructor
    · intro hw
      refine h.mp ((checkCommitment_eq_ok hsegwit).mpr fun hw' => ?_)
      rw [hw] at hw'
      cases hw'
    · intro hw o ho hcommits
      have hbip := h.mp ((checkCommitment_eq_ok hsegwit).mpr fun _ => ⟨o, ho, hcommits⟩)
      unfold Bip141 at hbip
      simp only [ho] at hbip
      obtain ⟨item, hitem, hlen, -⟩ := hbip
      exact ⟨item, hitem, hlen⟩
  · intro h
    refine ⟨fun hcheck => ?_, checkCommitment_of_bip141 hsegwit⟩
    cases hw : blockHasWitness block with
    | false => exact h.unneeded hw
    | true =>
      obtain ⟨o, ho, hcommits⟩ := (checkCommitment_eq_ok hsegwit).mp hcheck hw
      obtain ⟨item, hitem, hlen⟩ := h.nonce hw o ho hcommits
      unfold Bip141
      simp only [ho]
      rw [takenNonce_of_eq hitem hlen] at hcommits
      exact ⟨item, hitem, hlen, hcommits⟩

end Commitment

/-- **The commitment check decides BIP 141**, for every block from the segwit height on. -/
def CommitmentsChecked : Prop :=
  ∀ [Hashing] (params : ConsensusParams) (block : Block) (height : Nat),
    params.segwitHeight ≤ height →
    (checkCommitment params block height = .ok () ↔ Bip141 block)

section Sample

attribute [local instance] sampleHashing

/-- A block whose coinbase carries a witness and has given outputs. -/
def witnessBlock (witness : List Bytes) (outputs : List TxOut) (rest : List Tx) : Block :=
  ⟨sampleHeader 0 1 0 0,
    ⟨1, 7, [⟨OutPoint.null, [0x01, 0x01], 0xffffffff, witness⟩], outputs⟩ :: rest⟩

/-- A transaction that carries a witness, and a commitment to it salted with 32 zero
bytes. -/
def committedBlock : Block :=
  witnessBlock [List.replicate 32 0]
    [⟨0, [0x6a, 0x24, 0xaa, 0x21, 0xa9, 0xed, 0x88, 0x13] ++ List.replicate 30 0⟩]
    [⟨2, 5, [⟨⟨1#256, 0⟩, [], 0xffffffff, [[1]]⟩], []⟩]

theorem commitmentPlain_committedBlock :
    checkCommitment ConsensusParams.regtest committedBlock 1 = .ok ()
      ∧ CommitmentPlain committedBlock := by
  have haccepted : checkCommitment ConsensusParams.regtest committedBlock 1 = .ok () := by decide
  have hbip : Bip141 committedBlock := ⟨List.replicate 32 0, rfl, rfl, rfl⟩
  exact ⟨haccepted, (checkCommitment_iff_bip141_iff (by decide)).mp (iff_of_true haccepted hbip)⟩

/-- A coinbase that carries a witness no output commits to is accepted. -/
theorem not_commitmentsChecked : ¬ CommitmentsChecked := by
  intro h
  have hbip := (h ConsensusParams.regtest (witnessBlock [[1]] [] []) 1 (by decide)).mp (by decide)
  have hempty := hbip _ mem_cons_self _ mem_cons_self
  cases hempty

end Sample
