import BitcoinPR.Lib.Checked

/-!
# Slices with their bounds checked

Code that cuts a buffer into slices stops the whole program if a bound is out of
range. `slice` has this as a result of its own, `Halt.panic`, apart from the
errors a reader reports about what it reads.

A reader that goes through a buffer keeps the offset it has come to; written
without slices it keeps what is left of the buffer. `Reads` relates the two: the
same values, the same errors, the offset where the rest begins – and no panic,
since there is no case for it.
-/

variable {ε α β : Type}

/-- What stops a reader: a bound out of range, or an error it reports. -/
inductive Halt (ε : Type) where
  | panic
  | error (e : ε)
deriving DecidableEq, Repr

/-- The elements from `start` up to `stop`. -/
def slice (data : List α) (start stop : Nat) : Except (Halt ε) (List α) :=
  if start ≤ stop ∧ stop ≤ data.length then .ok ((data.drop start).take (stop - start))
  else .error .panic

variable {data : List α}

/-- The element at a position. -/
def index (data : List α) (i : Nat) : Except (Halt ε) α :=
  match data[i]? with
  | some a => .ok a
  | none => .error .panic

theorem slice_of_le {start stop : Nat} (hle : start ≤ stop) (hlen : stop ≤ data.length) :
    (slice data start stop : Except (Halt ε) (List α))
      = .ok ((data.drop start).take (stop - start)) :=
  if_pos ⟨hle, hlen⟩

/-- A slice by its length. -/
theorem slice_add {start len : Nat} (h : len ≤ (data.drop start).length)
    (hstart : start ≤ data.length) :
    (slice data start (start + len) : Except (Halt ε) (List α))
      = .ok ((data.drop start).take len) := by
  rw [List.length_drop] at h
  rw [slice_of_le (Nat.le_add_right _ _) (by omega), Nat.add_sub_cancel_left]

theorem index_of_lt {i : Nat} (h : i < data.length) :
    (index data i : Except (Halt ε) α) = .ok data[i] := by
  unfold index
  rw [List.getElem?_eq_getElem h]

/-- Errors that are reported. -/
def Except.reported (x : Except ε α) : Except (Halt ε) α := x.mapError Halt.error

theorem Except.reported_ne_panic (x : Except ε α) : x.reported ≠ .error .panic := by
  cases x with
  | error e => exact fun h => by cases h
  | ok a => exact fun h => by cases h

/-- **A reader with an offset does what one with a rest does.** -/
inductive Reads (data : List α) :
    Except (Halt ε) (β × Nat) → Except ε (β × List α) → Prop where
  | ok (b : β) {offset : Nat} (h : offset ≤ data.length) :
      Reads data (.ok (b, offset)) (.ok (b, data.drop offset))
  | error (e : ε) : Reads data (.error (.error e)) (.error e)

/-- What is read first is put in front. -/
theorem Reads.cons {x : Except (Halt ε) (List β × Nat)}
    {y : Except ε (List β × List α)} (h : Reads data x y) (b : β) :
    Reads data (do let r ← x; return (b :: r.1, r.2)) (do let r ← y; return (b :: r.1, r.2)) := by
  cases h with
  | ok bs h => exact .ok (b :: bs) h
  | error e => exact .error e
