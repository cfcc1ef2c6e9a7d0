import BitcoinPR.Primitives

/-!
# Garbage before the first packet

A peer of the encrypted transport may begin with garbage, up to 4095 bytes of
it, and a terminator of 16 bytes says where it ends. The reader takes one byte
at a time and looks at the end of what it has.

It looks for the terminator first and at the length then, and gives up only when
it has *more* than 4095 and 16 bytes. So it takes one byte too many: with the
terminator behind them 4096 bytes of garbage pass, and without it the reader
fails after 4112 bytes and not before. A stream is read as it should be exactly
if it ends earlier, or the terminator does (`readsGarbage_iff_endsInTime`).
-/

open List

/-- The most garbage there may be. -/
def maxGarbageLen : Nat := 4095

def garbageTermLen : Nat := 16

/-- Where the garbage ends. -/
abbrev Terminator := { bytes : Bytes // bytes.length = garbageTermLen }

inductive P2pError where
  | connection (msg : String)
  | protocol (msg : String)

/-- **Read until the terminator is seen.** What comes of it, and the rest of the
stream; `e` is what the stream ends with. -/
def readUntilTerminator (terminator : Terminator) (e : String) (window : Bytes) :
    Bytes → Except P2pError Bytes × Bytes
  | [] => (.error (.connection ("v2 garbage read: " ++ e)), [])
  | byte :: stream =>
    let window := window ++ [byte]
    if garbageTermLen ≤ window.length
        ∧ window.drop (window.length - garbageTermLen) = terminator.1 then
      (.ok (window.take (window.length - garbageTermLen)), stream)
    else if maxGarbageLen + garbageTermLen < window.length then
      (.error (.protocol "v2 garbage terminator not found"), stream)
    else readUntilTerminator terminator e window stream

variable (terminator : Terminator) (stream : Bytes)

/-- The stream begins with `g` and the terminator, and no shorter prefix of it
ends in the terminator. -/
structure GarbageOf (g : Bytes) : Prop where
  begins : g ++ terminator.1 <+: stream
  first : ∀ p, p <+: stream → p.length < (g ++ terminator.1).length → ¬ terminator.1 <:+ p

/-- **The garbage is read**: what is returned is the garbage of the stream, if
there is not too much of it, and a failure has read no more than that and a
terminator. -/
def ReadsGarbage (out : Except P2pError Bytes × Bytes) : Prop :=
  (∀ g, out.1 = .ok g ↔ GarbageOf terminator stream g ∧ g.length ≤ maxGarbageLen)
    ∧ ∀ e, out.1 = .error e → stream.length - out.2.length ≤ maxGarbageLen + garbageTermLen

/-- The stream ends within 4111 bytes, or the terminator does. -/
def EndsInTime : Prop :=
  stream.length ≤ maxGarbageLen + garbageTermLen
    ∨ ∃ p, p <+: stream ∧ p.length ≤ maxGarbageLen + garbageTermLen ∧ terminator.1 <:+ p

/-- **What comes of a stream**: the reader stops behind the terminator, or with
none in what it has read. -/
inductive Scanned : Except P2pError Bytes × Bytes → Prop where
  | found {g rest : Bytes} (h : GarbageOf terminator stream g)
      (hrest : g ++ terminator.1 ++ rest = stream) : Scanned (.ok g, rest)
  | failed {window rest : Bytes} {e : P2pError} (hrest : window ++ rest = stream)
      (hno : ∀ p, p <+: window → ¬ terminator.1 <:+ p)
      (hall : window.length ≤ maxGarbageLen + garbageTermLen → rest = []) : Scanned (.error e, rest)

variable {terminator stream}

/-- **The loop**, with no terminator so far. -/
theorem scanned_readUntilTerminator (e : String) {window : Bytes}
    (hno : ∀ p, p <+: window → ¬ terminator.1 <:+ p) (stream : Bytes) :
    Scanned terminator (window ++ stream) (readUntilTerminator terminator e window stream) := by
  induction stream generalizing window with
  | nil => exact .failed rfl hno fun _ => rfl
  | cons byte stream ih =>
    rw [append_cons, readUntilTerminator]
    split
    · rename_i hends
      obtain ⟨g, hg⟩ : terminator.1 <:+ window ++ [byte] := hends.2 ▸ drop_suffix _ _
      rw [← hg, length_append, terminator.2, Nat.add_sub_cancel, take_left]
      refine .found ⟨prefix_append _ _, fun p hp hlt => hno p ?_⟩ rfl
      rw [hg] at hp
      rw [hg, length_append] at hlt
      refine prefix_of_prefix_length_le hp ?_ (Nat.le_of_lt_succ hlt)
      exact (prefix_append window [byte]).trans (prefix_append _ _)
    · rename_i hends
      have hno' : ∀ p, p <+: window ++ [byte] → ¬ terminator.1 <:+ p := by
        intro p hp hp'
        rcases prefix_concat_iff.mp hp with rfl | hp
        · have hlen := hp'.length_le
          rw [suffix_iff_eq_drop, terminator.2] at hp'
          exact hends ⟨terminator.2 ▸ hlen, hp'.symm⟩
        · exact hno p hp hp'
      split
      · rename_i hlong
        exact .failed rfl hno' fun hle => absurd hlong (Nat.not_lt_of_le hle)
      · exact ih hno'

theorem scanned (e : String) (stream : Bytes) :
    Scanned terminator stream (readUntilTerminator terminator e [] stream) := by
  have hno : ∀ p, p <+: [] → ¬ terminator.1 <:+ p := by
    intro p hp hends
    have hlen := hends.length_le.trans hp.length_le
    rw [terminator.2] at hlen
    exact absurd hlen (by decide)
  exact scanned_readUntilTerminator e hno stream

theorem GarbageOf.unique {g g' : Bytes} (h : GarbageOf terminator stream g)
    (h' : GarbageOf terminator stream g') : g = g' := by
  have hle := Nat.le_of_not_lt fun hlt => h'.first _ h.begins hlt (suffix_append _ _)
  have hge := Nat.le_of_not_lt fun hlt => h.first _ h'.begins hlt (suffix_append _ _)
  have heq := (prefix_of_prefix_length_le h.begins h'.begins hge).eq_of_length
    (Nat.le_antisymm hge hle)
  exact append_cancel_right heq

theorem Scanned.readsGarbage_iff {out : Except P2pError Bytes × Bytes}
    (h : Scanned terminator stream out) :
    ReadsGarbage terminator stream out ↔ EndsInTime terminator stream := by
  cases h with
  | @found g rest hg hrest =>
    have hlen : (g ++ terminator.1).length = g.length + garbageTermLen := by
      rw [length_append, terminator.2]
    refine ⟨fun h => Or.inr ⟨_, hg.begins, ?_, suffix_append _ _⟩, fun h => ?_⟩
    · rw [hlen]
      exact Nat.add_le_add_right ((h.1 g).mp rfl).2 _
    · have hle : g.length ≤ maxGarbageLen := by
        rcases h with h | ⟨p, hp, hshort, hends⟩
        · have hbegins := hg.begins.length_le
          omega
        · by_contra hlong
          exact hg.first p hp (by omega) hends
      refine ⟨fun g' => ⟨fun heq => ?_, fun h' => ?_⟩, fun e heq => by cases heq⟩
      · cases heq
        exact ⟨hg, hle⟩
      · exact congrArg Except.ok (hg.unique h'.1)
  | @failed window rest e hrest hno hall =>
    have hlen := congrArg length hrest
    rw [length_append] at hlen
    refine ⟨fun h => ?_, fun h => ?_⟩
    · have hread : stream.length - rest.length ≤ _ := h.2 e rfl
      obtain rfl := hall (by omega)
      exact Or.inl hread
    · have hshort : window.length ≤ maxGarbageLen + garbageTermLen := by
        rcases h with h | ⟨p, hp, hshort, hends⟩
        · omega
        · by_contra hlong
          exact hno p (prefix_of_prefix_length_le hp ⟨rest, hrest⟩ (by omega)) hends
      obtain rfl := hall hshort
      obtain rfl := (append_nil window).symm.trans hrest
      refine ⟨fun g => iff_of_false (fun heq => by cases heq) fun hg => ?_, fun _ _ => hshort⟩
      exact hno _ hg.1.begins (suffix_append _ _)

/-- **The garbage is read exactly if the stream ends in time.** -/
theorem readsGarbage_iff_endsInTime (terminator : Terminator) (e : String) (stream : Bytes) :
    ReadsGarbage terminator stream (readUntilTerminator terminator e [] stream)
      ↔ EndsInTime terminator stream :=
  (scanned e stream).readsGarbage_iff

/-- Garbage without end: the reader takes 4112 bytes of it. -/
theorem not_readsGarbage : ¬ ∀ (terminator : Terminator) (e : String) (stream : Bytes),
    ReadsGarbage terminator stream (readUntilTerminator terminator e [] stream) := by
  intro h
  rcases (scanned _ _).readsGarbage_iff.mp (h ⟨replicate 16 1, rfl⟩ "" (replicate 4112 0))
    with hlen | ⟨p, hp, -, hends⟩
  · rw [length_replicate] at hlen
    exact absurd hlen (by decide)
  · have hone : (1 : UInt8) ∈ replicate 16 1 := mem_cons_self
    exact absurd (mem_replicate.mp (hp.subset (hends.subset hone))).2 (by decide)
