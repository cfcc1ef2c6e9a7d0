import BitcoinPR.Lib.Slice
import BitcoinPR.Storage.Undo

/-!
# Undo records as slices

`deserializeUndo` of the previous modules reads an undo record by taking bytes
off its front. The code goes through the buffer with an offset and cuts slices,
each after a check of the length, with counts and lengths that come from the
buffer itself. `readUndo` is written this way, and a slice out of range would stop
the program.

It never does: on every buffer `readUndo` does what `deserializeUndo` does
(`readUndo_eq`). So what is known of records carries over – the round trip, and
that a record of the first version, which ends after the spent coins, is read as
one with nothing created and no parent.

The two counts and the lengths are written in 32 bits. A list of `2 ^ 32`
outpoints is written with a count of zero (`not_undoRoundTrips`).
-/

open List Except

namespace UtxoEntry

/-- Read a coin from a slice of its own. -/
def read (data : Bytes) : Except (Halt StorageError) UtxoEntry :=
  if data.length < 17 then .error (.error (.serialization "UTXO entry too short"))
  else do
    let amount ← slice data 0 8
    let height ← slice data 8 12
    let isCoinbase ← index data 12
    let len ← slice data 13 17
    let scriptLen := ofLeBytes len
    if data.length < 17 + scriptLen then
      .error (.error (.serialization "UTXO entry script truncated"))
    else do
      let script ← slice data 17 (17 + scriptLen)
      return ⟨UInt64.ofNat (ofLeBytes amount), script, ofLeBytes height, isCoinbase != 0⟩

theorem read_eq (data : Bytes) : read data = (deserialize data).reported := by
  unfold read deserialize
  by_cases hlen : data.length < 17
  · rw [if_pos hlen, if_pos hlen]
    rfl
  · have hflag : (data.drop 12).head? = some (data.get ⟨12, by omega⟩) := by
      rw [head?_drop, getElem?_eq_getElem (by omega)]
      rfl
    rw [if_neg hlen, if_neg hlen, slice_of_le (by omega) (by omega),
      slice_of_le (by omega) (by omega), index_of_lt (by omega),
      slice_of_le (by omega) (by omega)]
    simp only [ok_bind, drop_zero, hflag, Nat.reduceSub]
    by_cases hscript : data.length < 17 + ofLeBytes ((data.drop 13).take 4)
    · rw [if_pos hscript, if_pos hscript]
      rfl
    · rw [if_neg hscript, if_neg hscript, slice_add (by rw [length_drop]; omega) (by omega)]
      rfl

end UtxoEntry

/-- The outpoint at an offset: its 36 bytes are copied out and cut in two. -/
def outpointAt (data : Bytes) (offset : Nat) : Except (Halt StorageError) OutPoint := do
  let key ← slice data offset (offset + 36)
  let txid ← slice key 0 32
  let vout ← slice key 32 36
  return ⟨BitVec.ofNat 256 (ofLeBytes txid), UInt32.ofNat (ofLeBytes vout)⟩

/-- The 32-bit word at an offset. -/
def wordAt (data : Bytes) (offset : Nat) : Except (Halt StorageError) Nat := do
  let word ← slice data offset (offset + 4)
  return ofLeBytes word

/-- Read spent coins from an offset on; the offset behind them comes back. -/
def readSpent (data : Bytes) : Nat → Nat → Except (Halt StorageError) (List SpentUtxo × Nat)
  | 0, offset => .ok ([], offset)
  | n + 1, offset =>
    if data.length < offset + 36 then .error (.error (.serialization "undo data truncated"))
    else do
      let outpoint ← outpointAt data offset
      let offset := offset + 36
      if data.length < offset + 4 then .error (.error (.serialization "undo data truncated"))
      else do
        let entryLen ← wordAt data offset
        let offset := offset + 4
        if data.length < offset + entryLen then
          .error (.error (.serialization "undo entry truncated"))
        else do
          let entry ← UtxoEntry.read (← slice data offset (offset + entryLen))
          let r ← readSpent data n (offset + entryLen)
          return (⟨outpoint, entry⟩ :: r.1, r.2)

/-- Read created outpoints from an offset on. -/
def readCreated (data : Bytes) : Nat → Nat → Except (Halt StorageError) (List OutPoint × Nat)
  | 0, offset => .ok ([], offset)
  | n + 1, offset =>
    if data.length < offset + 36 then
      .error (.error (.serialization "undo data: created outpoints truncated"))
    else do
      let outpoint ← outpointAt data offset
      let r ← readCreated data n (offset + 36)
      return (outpoint :: r.1, r.2)

/-- The parent hash at an offset, if 32 bytes are left. -/
def readParent (data : Bytes) (offset : Nat) : Except (Halt StorageError) (Option Hash) :=
  if offset + 32 ≤ data.length then do
    let hash ← slice data offset (offset + 32)
    return some (BitVec.ofNat 256 (ofLeBytes hash))
  else return none

/-- **Read an undo record**, slice by slice. -/
def readUndo (data : Bytes) : Except (Halt StorageError) UndoData :=
  if data.length < 4 then .error (.error (.serialization "undo data too short"))
  else do
    let count ← wordAt data 0
    let spent ← readSpent data count 4
    if spent.2 + 4 ≤ data.length then do
      let createdCount ← wordAt data spent.2
      let created ← readCreated data createdCount (spent.2 + 4)
      let prev ← readParent data created.2
      return ⟨spent.1, created.1, prev⟩
    else return ⟨spent.1, [], none⟩

/-! ## No slice is out of range -/

section

variable {data : Bytes} {offset : Nat}

theorem outpointAt_eq (h : offset + 36 ≤ data.length) :
    outpointAt data offset = .ok (outpointOfKey ((data.drop offset).take 36)) := by
  have hkey : ((data.drop offset).take 36).length = 36 := by
    rw [length_take, length_drop]
    omega
  have hvout : (((data.drop offset).take 36).drop 32).take 4
      = ((data.drop offset).take 36).drop 32 :=
    take_of_length_le (by rw [length_drop, hkey])
  unfold outpointAt outpointOfKey
  rw [slice_add (by rw [length_drop]; omega) (by omega), ok_bind,
    slice_of_le (by omega) (by omega), slice_of_le (by omega) (by omega)]
  simp only [ok_bind, drop_zero, Nat.reduceSub, hvout]
  rfl

theorem wordAt_eq (h : offset + 4 ≤ data.length) :
    wordAt data offset = .ok (ofLeBytes ((data.drop offset).take 4)) := by
  unfold wordAt
  rw [slice_add (by rw [length_drop]; omega) (by omega)]
  rfl

/-- The length of what is left, as the code and the model of the rest compare it. -/
theorem length_drop_lt_iff (h : offset ≤ data.length) (len : Nat) :
    (data.drop offset).length < len ↔ data.length < offset + len := by
  rw [length_drop]
  omega

theorem reads_readSpent (n : Nat) (h : offset ≤ data.length) :
    Reads data (readSpent data n offset) (parseSpent n (data.drop offset)) := by
  induction n generalizing offset with
  | zero => exact .ok [] h
  | succ n ih =>
    unfold readSpent parseSpent
    by_cases hkey : data.length < offset + 36
    · rw [if_pos hkey, if_pos ((length_drop_lt_iff h 36).mpr hkey)]
      exact .error _
    · rw [if_neg hkey, if_neg (mt (length_drop_lt_iff h 36).mp hkey),
        outpointAt_eq (Nat.le_of_not_lt hkey), ok_bind]
      simp only [drop_drop]
      have hoffset : offset + 36 ≤ data.length := Nat.le_of_not_lt hkey
      by_cases hword : data.length < offset + 36 + 4
      · rw [if_pos hword, if_pos ((length_drop_lt_iff hoffset 4).mpr hword)]
        exact .error _
      · rw [if_neg hword, if_neg (mt (length_drop_lt_iff hoffset 4).mp hword),
          wordAt_eq (Nat.le_of_not_lt hword), ok_bind]
        have hoffset' : offset + 36 + 4 ≤ data.length := Nat.le_of_not_lt hword
        generalize ofLeBytes ((data.drop (offset + 36)).take 4) = entryLen
        by_cases hentry : data.length < offset + 36 + 4 + entryLen
        · rw [if_pos hentry, if_pos ((length_drop_lt_iff hoffset' entryLen).mpr hentry)]
          exact .error _
        · rw [if_neg hentry, if_neg (mt (length_drop_lt_iff hoffset' entryLen).mp hentry),
            slice_add (Nat.le_of_not_lt (mt (length_drop_lt_iff hoffset' entryLen).mp hentry))
              hoffset', ok_bind, UtxoEntry.read_eq]
          cases UtxoEntry.deserialize ((data.drop (offset + 36 + 4)).take entryLen) with
          | error e => exact .error e
          | ok entry => exact (ih (Nat.le_of_not_lt hentry)).cons _

theorem reads_readCreated (n : Nat) (h : offset ≤ data.length) :
    Reads data (readCreated data n offset) (parseCreated n (data.drop offset)) := by
  induction n generalizing offset with
  | zero => exact .ok [] h
  | succ n ih =>
    unfold readCreated parseCreated
    by_cases hkey : data.length < offset + 36
    · rw [if_pos hkey, if_pos ((length_drop_lt_iff h 36).mpr hkey)]
      exact .error _
    · rw [if_neg hkey, if_neg (mt (length_drop_lt_iff h 36).mp hkey),
        outpointAt_eq (Nat.le_of_not_lt hkey), drop_drop]
      exact (ih (Nat.le_of_not_lt hkey)).cons _

theorem readParent_eq (h : offset ≤ data.length) :
    readParent data offset = .ok (if (data.drop offset).length < 32 then none
      else some (BitVec.ofNat 256 (ofLeBytes ((data.drop offset).take 32)))) := by
  unfold readParent
  by_cases hlen : data.length < offset + 32
  · rw [if_neg (Nat.not_le_of_lt hlen), if_pos ((length_drop_lt_iff h 32).mpr hlen)]
    rfl
  · have hle := Nat.le_of_not_lt (mt (length_drop_lt_iff h 32).mp hlen)
    rw [if_pos (Nat.le_of_not_lt hlen), if_neg (mt (length_drop_lt_iff h 32).mp hlen),
      slice_add hle h]
    rfl

end

/-- **The reader with slices is the reader without**, on every buffer. -/
theorem readUndo_eq (data : Bytes) : readUndo data = (deserializeUndo data).reported := by
  unfold readUndo deserializeUndo
  by_cases hlen : data.length < 4
  · rw [if_pos hlen, if_pos hlen]
    rfl
  · rw [if_neg hlen, if_neg hlen, wordAt_eq (by omega), ok_bind, drop_zero]
    have hspent := reads_readSpent (ofLeBytes (data.take 4)) (Nat.le_of_not_lt hlen)
    revert hspent
    generalize readSpent data (ofLeBytes (data.take 4)) 4 = x
    generalize parseSpent (ofLeBytes (data.take 4)) (data.drop 4) = y
    rintro (@⟨spent, offset, hoffset⟩ | e)
    · simp only [ok_bind]
      by_cases hword : data.length < offset + 4
      · rw [if_neg (Nat.not_le_of_lt hword), if_pos ((length_drop_lt_iff hoffset 4).mpr hword)]
        rfl
      · rw [if_pos (Nat.le_of_not_lt hword), if_neg (mt (length_drop_lt_iff hoffset 4).mp hword),
          wordAt_eq (Nat.le_of_not_lt hword), ok_bind, drop_drop]
        have hcreated := reads_readCreated (ofLeBytes ((data.drop offset).take 4))
          (Nat.le_of_not_lt hword)
        revert hcreated
        generalize readCreated data (ofLeBytes ((data.drop offset).take 4)) (offset + 4) = x
        generalize parseCreated (ofLeBytes ((data.drop offset).take 4)) (data.drop (offset + 4)) = y
        rintro (@⟨created, offset', hoffset'⟩ | e)
        · simp only [ok_bind]
          rw [readParent_eq hoffset']
          rfl
        · rfl
    · rfl

/-! ## Round trips -/

/-- A record of the first version: the spent coins alone. -/
def serializeUndoV1 (spent : List SpentUtxo) : Bytes :=
  leBytes 4 spent.length ++ spent.flatMap SpentUtxo.serialize

/-- **Records of the first version** are read with nothing created and no parent. -/
theorem deserializeUndo_serializeUndoV1 {spent : List SpentUtxo}
    (hspent : ∀ s ∈ spent, s.entry.Serializable) (hs : spent.length < 2 ^ 32) :
    deserializeUndo (serializeUndoV1 spent) = .ok ⟨spent, [], none⟩ := by
  have hns : ofLeBytes (leBytes 4 spent.length) = spent.length := ofLeBytes_leBytes (by omega)
  have hparse := parseSpent_flatMap spent [] hspent
  rw [append_nil] at hparse
  rw [serializeUndoV1, deserializeUndo,
    take_left' (length_leBytes 4 _), drop_left' (length_leBytes 4 _), hns, hparse]
  rfl

/-- **Undo records round-trip**, every buffer is read without a slice out of
range, and records of the first version are read as what they are. The lists have
fewer than `2 ^ 32` members, and a coin takes fewer than `2 ^ 32` bytes. -/
theorem readUndo_roundTrips :
    (∀ (s : UtxoSet) (hash : Hash) (spent : List SpentUtxo) (created : List OutPoint) (prev : Hash),
      (∀ u ∈ spent, u.entry.Serializable) → spent.length < 2 ^ 32 → created.length < 2 ^ 32 →
      ∃ data, (s.storeUndo hash spent created prev).writeBuffer.undoBuffer
          = s.writeBuffer.undoBuffer ++ [(hash, data)]
        ∧ readUndo data = .ok ⟨spent, created, some prev⟩)
    ∧ (∀ data, readUndo data ≠ .error .panic)
    ∧ ∀ spent : List SpentUtxo, (∀ u ∈ spent, u.entry.Serializable) → spent.length < 2 ^ 32 →
      readUndo (serializeUndoV1 spent) = .ok ⟨spent, [], none⟩ := by
  refine ⟨fun s hash spent created prev hspent hs hc => ?_, fun data => ?_,
    fun spent hspent hs => ?_⟩
  · refine ⟨serializeUndo spent created prev, rfl, ?_⟩
    rw [readUndo_eq, deserializeUndo_serializeUndo prev hspent hs hc]
    rfl
  · rw [readUndo_eq]
    exact reported_ne_panic _
  · rw [readUndo_eq, deserializeUndo_serializeUndoV1 hspent hs]
    rfl

/-- Undo records can be read back, for lists of any length and scripts of any length.
Heights are 32-bit words. -/
def UndoRoundTrips : Prop :=
  (∀ (s : UtxoSet) (hash : Hash) (spent : List SpentUtxo) (created : List OutPoint) (prev : Hash),
    (∀ u ∈ spent, u.entry.height < 2 ^ 32) →
    ∃ data, (s.storeUndo hash spent created prev).writeBuffer.undoBuffer
        = s.writeBuffer.undoBuffer ++ [(hash, data)]
      ∧ readUndo data = .ok ⟨spent, created, some prev⟩)
  ∧ (∀ data, readUndo data ≠ .error .panic)
  ∧ ∀ spent : List SpentUtxo, (∀ u ∈ spent, u.entry.height < 2 ^ 32) →
    readUndo (serializeUndoV1 spent) = .ok ⟨spent, [], none⟩

/-- A count of `2 ^ 32` is written as zero. -/
theorem deserializeUndo_wrapped {created : List OutPoint} (h : created.length = 2 ^ 32)
    (prev : Hash) :
    ∃ hash, deserializeUndo (serializeUndo [] created prev) = .ok ⟨[], [], hash⟩ := by
  have happ : serializeUndo [] created prev = [0, 0, 0, 0] ++ ([0, 0, 0, 0]
      ++ (created.flatMap outpointKey ++ leBytes 32 prev.toNat)) := by
    rw [serializeUndo, h]
    rfl
  rw [happ]
  exact ⟨_, rfl⟩

/-- With `2 ^ 32` created outpoints the record names none. -/
theorem not_undoRoundTrips : ¬ UndoRoundTrips := by
  rintro ⟨hround, -⟩
  have hlength : (List.replicate (2 ^ 32) (⟨0, 0⟩ : OutPoint)).length = 2 ^ 32 :=
    length_replicate
  obtain ⟨data, hbuffer, hread⟩ := hround (UtxoSet.openDb UtxoDb.empty 0 0) 0 []
    (List.replicate (2 ^ 32) ⟨0, 0⟩) 0 (fun _ h => by cases h)
  generalize List.replicate (2 ^ 32) (⟨0, 0⟩ : OutPoint) = created at hlength hbuffer hread
  cases hbuffer
  obtain ⟨hash, hwrapped⟩ := deserializeUndo_wrapped hlength 0
  rw [readUndo_eq, hwrapped] at hread
  cases hread
  cases hlength
