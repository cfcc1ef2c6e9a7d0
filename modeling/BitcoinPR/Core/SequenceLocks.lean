import BitcoinPR.Core.Validation

/-!
# Relative locktimes (BIP 68)

A sequence number without the disable bit locks an input until its coin is old
enough, in blocks or in units of 512 seconds. `validateSequenceLocks` checks the
inputs one after the other; `sequenceLockPoints` takes the latest of all locks
and leaves the comparison for later. Both come down to the same condition on the
inputs, `LocksMet`, as long as no sum leaves 32 bits.

Both also read the version as a signed number, where BIP 68 reads it unsigned: a
transaction with a negative version counts as older than version 2, and its
sequence numbers lock nothing.
-/

open Nat

/-- The lock a sequence number asks for, in blocks or in seconds. -/
def lockValue (sequence : UInt32) : Nat :=
  (sequence &&& 0xffff).toNat * (if sequenceTimeBased sequence then 512 else 1)

/-- The height or the time of a coin, as the sequence number counts from. -/
def lockStart (sequence : UInt32) (coinHeight coinTime : Nat) : Nat :=
  if sequenceTimeBased sequence then coinTime else coinHeight

/-- **The lock of one input is met** at a height and a median time. -/
def SequenceMet (sequence : UInt32) (coinHeight coinTime height mtp : Nat) : Prop :=
  lockStart sequence coinHeight coinTime + lockValue sequence
    ≤ if sequenceTimeBased sequence then mtp else height

instance (sequence : UInt32) (coinHeight coinTime height mtp : Nat) :
    Decidable (SequenceMet sequence coinHeight coinTime height mtp) :=
  inferInstanceAs (Decidable (_ ≤ _))

/-- **Every lock of a transaction is met.** -/
def LocksMet (tx : Tx) (inputHeights inputTimes : List Nat) (height mtp : Nat) : Prop :=
  ∀ i input, tx.input[i]? = some input → sequenceDisabled input.sequence = false →
    SequenceMet input.sequence (inputHeights.getD i 0) (inputTimes.getD i 0) height mtp

/-- No lock of a transaction ends beyond 32 bits. -/
def LocksInRange (tx : Tx) (inputHeights inputTimes : List Nat) : Prop :=
  ∀ i input, tx.input[i]? = some input → sequenceDisabled input.sequence = false →
    lockStart input.sequence (inputHeights.getD i 0) (inputTimes.getD i 0)
      + lockValue input.sequence < 2 ^ 32

/-! ## Input by input -/

/-- The check of one input. -/
theorem checkSequenceLock_eq_ok {i : Nat} {input : TxIn} {coinHeight coinTime height mtp : Nat}
    (hrange : sequenceDisabled input.sequence = false →
      lockStart input.sequence coinHeight coinTime + lockValue input.sequence < 2 ^ 32) :
    checkSequenceLock i input coinHeight coinTime height mtp = .ok ()
      ↔ (sequenceDisabled input.sequence = false →
          SequenceMet input.sequence coinHeight coinTime height mtp) := by
  unfold checkSequenceLock SequenceMet
  cases hd : sequenceDisabled input.sequence with
  | true => simp
  | false =>
    replace hrange := hrange hd
    unfold lockStart lockValue at hrange ⊢
    by_cases ht : sequenceTimeBased input.sequence = true
    · simp only [if_pos ht] at hrange ⊢
      rw [mod_eq_of_lt hrange]
      exact rejectIf_eq_ok.trans (not_lt.trans true_imp_iff.symm)
    · simp only [if_neg ht, mul_one] at hrange ⊢
      rw [mod_eq_of_lt hrange]
      exact rejectIf_eq_ok.trans (not_lt.trans true_imp_iff.symm)

/-- What holds at every position of a list, by its head and its tail. -/
theorem forall_getElem?_cons {α : Type} {P : Nat → α → Prop} {a : α} {l : List α} :
    (∀ j x, (a :: l)[j]? = some x → P j x)
      ↔ P 0 a ∧ ∀ j x, l[j]? = some x → P (j + 1) x := by
  constructor
  · intro h
    exact ⟨h 0 a rfl, fun j x hj => h (j + 1) x hj⟩
  · rintro ⟨hhead, htail⟩ j x hj
    cases j with
    | zero => exact Option.some.inj hj ▸ hhead
    | succ j => exact htail j x hj

variable {inputHeights inputTimes : List Nat}

/-- The loop over the inputs checks each one. -/
theorem checkSequenceLocks_eq_ok {height mtp i : Nat} {inputs : List TxIn} :
    checkSequenceLocks inputHeights inputTimes height mtp i inputs = .ok ()
      ↔ ∀ j input, inputs[j]? = some input →
          checkSequenceLock (i + j) input (inputHeights.getD (i + j) 0)
            (inputTimes.getD (i + j) 0) height mtp = .ok () := by
  induction inputs generalizing i with
  | nil => simp [checkSequenceLocks]
  | cons input inputs ih =>
    rw [checkSequenceLocks, Except.bind_eq_ok, exists_unit, ih, forall_getElem?_cons]
    simp only [add_zero, add_assoc, add_comm 1]

/-- **What `validateSequenceLocks` checks.** -/
theorem validateSequenceLocks_eq_ok {tx : Tx}
    {height mtp : Nat} (hrange : LocksInRange tx inputHeights inputTimes) :
    validateSequenceLocks tx inputHeights inputTimes height mtp = .ok ()
      ↔ (2 ≤ tx.version → LocksMet tx inputHeights inputTimes height mtp) := by
  unfold validateSequenceLocks
  by_cases hv : tx.version < 2
  · rw [if_pos hv]
    exact ⟨fun _ h => absurd hv (Int32.not_lt.mpr h), fun _ => rfl⟩
  · rw [if_neg hv, checkSequenceLocks_eq_ok]
    simp only [zero_add]
    constructor
    · intro h _ i input hi
      exact (checkSequenceLock_eq_ok (hrange i input hi)).mp (h i input hi)
    · intro h i input hi
      exact (checkSequenceLock_eq_ok (hrange i input hi)).mpr (h (Int32.not_lt.mp hv) i input hi)

/-! ## Lock points -/

/-- What one input makes of the lock points. -/
theorem lockPoints_cons_le {i : Nat} {input : TxIn}
    (inputs : List TxIn) (points : Nat × Nat) (height mtp : Nat)
    (hrange : sequenceDisabled input.sequence = false →
      lockStart input.sequence (inputHeights.getD i 0) (inputTimes.getD i 0)
        + lockValue input.sequence < 2 ^ 32) :
    ∃ points', lockPoints inputHeights inputTimes i (input :: inputs) points
        = lockPoints inputHeights inputTimes (i + 1) inputs points'
      ∧ ((points'.1 ≤ height ∧ points'.2 ≤ mtp) ↔ (points.1 ≤ height ∧ points.2 ≤ mtp)
        ∧ (sequenceDisabled input.sequence = false → SequenceMet input.sequence
            (inputHeights.getD i 0) (inputTimes.getD i 0) height mtp)) := by
  refine ⟨_, rfl, ?_⟩
  unfold SequenceMet
  cases hd : sequenceDisabled input.sequence with
  | true => simp
  | false =>
    replace hrange := hrange hd
    rw [if_neg Bool.false_ne_true]
    unfold lockStart lockValue at hrange ⊢
    by_cases ht : sequenceTimeBased input.sequence = true
    · simp only [if_pos ht] at hrange ⊢
      rw [Nat.mod_eq_of_lt hrange, Nat.max_le]
      simp only [forall_const, and_assoc]
    · simp only [if_neg ht, Nat.mul_one] at hrange ⊢
      rw [Nat.mod_eq_of_lt hrange, Nat.max_le]
      simp only [forall_const, and_assoc]
      exact and_congr_right' and_comm

/-- The lock points are reached where those of the inputs before are, and every
further lock is met. -/
theorem lockPoints_le {height mtp i : Nat} {inputs : List TxIn} {points : Nat × Nat}
    (hrange : ∀ j input, inputs[j]? = some input → sequenceDisabled input.sequence = false →
      lockStart input.sequence (inputHeights.getD (i + j) 0) (inputTimes.getD (i + j) 0)
        + lockValue input.sequence < 2 ^ 32) :
    ((lockPoints inputHeights inputTimes i inputs points).1 ≤ height
        ∧ (lockPoints inputHeights inputTimes i inputs points).2 ≤ mtp)
      ↔ (points.1 ≤ height ∧ points.2 ≤ mtp)
        ∧ ∀ j input, inputs[j]? = some input → sequenceDisabled input.sequence = false →
            SequenceMet input.sequence (inputHeights.getD (i + j) 0) (inputTimes.getD (i + j) 0)
              height mtp := by
  induction inputs generalizing i points with
  | nil => simp [lockPoints]
  | cons input inputs ih =>
    obtain ⟨hfirst, hrest⟩ := forall_getElem?_cons.mp hrange
    rw [add_zero] at hfirst
    obtain ⟨points', heq, hpoints⟩ := lockPoints_cons_le inputs points height mtp hfirst
    have hshift : ∀ j, i + (j + 1) = i + 1 + j := fun j => by omega
    rw [heq, ih fun j input' hj => hshift j ▸ hrest j input' hj, hpoints, forall_getElem?_cons,
      and_assoc]
    simp only [add_zero, add_assoc, add_comm 1]

/-- **When the lock points of a transaction are reached.** -/
theorem sequenceLockPoints_le {tx : Tx} {height mtp : Nat}
    (hrange : LocksInRange tx inputHeights inputTimes) :
    ((sequenceLockPoints tx inputHeights inputTimes).1 ≤ height
        ∧ (sequenceLockPoints tx inputHeights inputTimes).2 ≤ mtp)
      ↔ (2 ≤ tx.version → LocksMet tx inputHeights inputTimes height mtp) := by
  unfold sequenceLockPoints
  by_cases hv : tx.version < 2
  · rw [if_pos hv]
    exact ⟨fun _ h => absurd hv (Int32.not_lt.mpr h),
      fun _ => ⟨zero_le height, zero_le mtp⟩⟩
  · rw [if_neg hv]
    have hrange' : ∀ i input, tx.input[i]? = some input → sequenceDisabled input.sequence = false →
        lockStart input.sequence (inputHeights.getD (0 + i) 0) (inputTimes.getD (0 + i) 0)
          + lockValue input.sequence < 2 ^ 32 := by
      simp only [zero_add]
      exact hrange
    rw [lockPoints_le hrange']
    simp only [zero_add]
    exact ⟨fun h _ => h.2, fun h => ⟨⟨zero_le height, zero_le mtp⟩, h (Int32.not_lt.mp hv)⟩⟩

/-! ## Against the specification -/

/-- **BIP 68 as it is specified**: of the transactions of version 2 and above, read
unsigned, every lock is met. -/
def Bip68 (tx : Tx) (inputHeights inputTimes : List Nat) (height mtp : Nat) : Prop :=
  tx.version.toUInt32 < 2 ∨ LocksMet tx inputHeights inputTimes height mtp

/-- The check and the lock points both decide BIP 68. -/
def DecidesBip68 (tx : Tx) (inputHeights inputTimes : List Nat) (height mtp : Nat) : Prop :=
  (validateSequenceLocks tx inputHeights inputTimes height mtp = .ok ()
      ↔ Bip68 tx inputHeights inputTimes height mtp)
    ∧ (Bip68 tx inputHeights inputTimes height mtp
      ↔ (sequenceLockPoints tx inputHeights inputTimes).1 ≤ height
        ∧ (sequenceLockPoints tx inputHeights inputTimes).2 ≤ mtp)

/-- A signed number, from its bits. -/
theorem Int32.toInt_eq_toUInt32 (v : Int32) :
    v.toInt = if 2 * v.toUInt32.toNat < 2 ^ 32 then (v.toUInt32.toNat : Int)
      else v.toUInt32.toNat - 2 ^ 32 :=
  v.toBitVec.toInt_eq_toNat_cond

/-- Versions that are not negative read the same, signed or not; negative ones read
as large. -/
theorem toUInt32_lt_two_iff (v : Int32) : v.toUInt32 < 2 ↔ 0 ≤ v ∧ v < 2 := by
  rw [UInt32.lt_iff_toNat_lt, Int32.le_iff_toInt_le, Int32.lt_iff_toInt_lt,
    Int32.toInt_eq_toUInt32 v]
  have h0 : Int32.toInt 0 = 0 := rfl
  have h2 : Int32.toInt 2 = 2 := rfl
  have hu : UInt32.toNat 2 = 2 := rfl
  have hlt := v.toUInt32.toNat_lt
  split <;> omega

/-- **BIP 68 is decided for every version that is not negative**, and otherwise only
where every lock is met anyway. -/
theorem decidesBip68_iff {tx : Tx} {inputHeights inputTimes : List Nat} {height mtp : Nat}
    (hrange : LocksInRange tx inputHeights inputTimes) :
    DecidesBip68 tx inputHeights inputTimes height mtp
      ↔ 0 ≤ tx.version ∨ LocksMet tx inputHeights inputTimes height mtp := by
  unfold DecidesBip68 Bip68
  rw [validateSequenceLocks_eq_ok hrange, sequenceLockPoints_le hrange, toUInt32_lt_two_iff]
  by_cases hv : 0 ≤ tx.version
  · have hiff : (2 ≤ tx.version → LocksMet tx inputHeights inputTimes height mtp)
        ↔ (0 ≤ tx.version ∧ tx.version < 2) ∨ LocksMet tx inputHeights inputTimes height mtp := by
      rw [← Int32.not_lt, and_iff_right hv, or_iff_not_imp_left]
    exact ⟨fun _ => Or.inl hv, fun _ => ⟨hiff, hiff.symm⟩⟩
  · -- a negative version is below 2, so that nothing is checked
    have hlt : ¬ 2 ≤ tx.version := fun h => hv (Int32.le_trans (by decide) h)
    simp [hv, hlt]

/-- **BIP 68, for every transaction** whose locks do not end beyond 32 bits. -/
def Bip68Decided : Prop :=
  ∀ (tx : Tx) (inputHeights inputTimes : List Nat) (height mtp : Nat),
    LocksInRange tx inputHeights inputTimes → DecidesBip68 tx inputHeights inputTimes height mtp

/-- A transaction of one input. -/
def lockedTx (version : Int32) (sequence : UInt32) : Tx :=
  ⟨version, 0, [⟨⟨0, 0⟩, [], sequence, []⟩], [⟨0, []⟩]⟩

theorem locksInRange_lockedTx (version : Int32) :
    LocksInRange (lockedTx version 10) [100] [0] := by
  intro i input hi _
  cases i with
  | zero =>
    obtain rfl := Option.some.inj hi
    decide
  | succ i => cases hi

theorem decidesBip68_lockedTx : LocksInRange (lockedTx 2 10) [100] [0]
    ∧ DecidesBip68 (lockedTx 2 10) [100] [0] 109 0 :=
  ⟨locksInRange_lockedTx 2, (decidesBip68_iff (locksInRange_lockedTx 2)).mpr (Or.inl (by decide))⟩

/-- Version `-1` – the largest, read unsigned – spends a coin one block early. -/
theorem not_bip68Decided : ¬ Bip68Decided := by
  intro h
  have hdec := (h (lockedTx (-1) 10) [100] [0] 109 0 (locksInRange_lockedTx (-1))).1.mp rfl
  rcases hdec with hversion | hmet
  · exact absurd hversion (by decide)
  · exact absurd (hmet 0 ⟨⟨0, 0⟩, [], 10, []⟩ rfl rfl) (by decide)
