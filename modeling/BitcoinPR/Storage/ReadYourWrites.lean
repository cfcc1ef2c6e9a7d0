import BitcoinPR.Storage.BlockFiles

/-!
# Reading back what was stored

A position is handed out when the offset is reserved, and the bytes are appended
wherever the file ends when they get there. The two agree as long as records
reach their file in the order in which their offsets were reserved and none is
lost on the way (`InTurn`), and nothing in the code sees to either: the queue is
filled after the lock has been released, `store_block` appends past the queue,
and a failed write is followed by the next one.

In a schedule that keeps to the order, what a file is going to be – its bytes
and those on their way to it, `reach` – only grows, except that a failed write
cuts it off. A position that was returned then agrees with it, and holds its
record as long as nothing has failed; a reader whose first attempt fails waits
until everything ahead of its own acknowledgement is in the file.
-/

open Places List Function Nat

/-- What a command is going to append to a file. -/
def WriteCmd.bytesFor (num : Nat) : WriteCmd → Bytes
  | .block num' data => if num' = num then data else []
  | .flush _ => []

/-- What a list of commands is going to append to a file. -/
def bytesFor (num : Nat) (cmds : List WriteCmd) : Bytes := cmds.flatMap (WriteCmd.bytesFor num)

/-- The commands ahead of an acknowledgement. -/
def aheadOf (ack : Nat) (cmds : List WriteCmd) : List WriteCmd :=
  cmds.takeWhile fun cmd => decide (cmd ≠ .flush ack)

@[simp] theorem bytesFor_nil (num : Nat) : bytesFor num [] = [] := rfl

@[simp] theorem bytesFor_cons (num : Nat) (cmd : WriteCmd) (cmds : List WriteCmd) :
    bytesFor num (cmd :: cmds) = cmd.bytesFor num ++ bytesFor num cmds := rfl

@[simp] theorem bytesFor_append (num : Nat) (as bs : List WriteCmd) :
    bytesFor num (as ++ bs) = bytesFor num as ++ bytesFor num bs :=
  flatMap_append

@[simp] theorem aheadOf_block (ack num : Nat) (data : Bytes) (cmds : List WriteCmd) :
    aheadOf ack (.block num data :: cmds) = .block num data :: aheadOf ack cmds := rfl

@[simp] theorem aheadOf_flush_self (ack : Nat) (cmds : List WriteCmd) :
    aheadOf ack (.flush ack :: cmds) = [] := by
  simp [aheadOf]

theorem aheadOf_cons_of_ne {ack : Nat} {cmd : WriteCmd} (h : cmd ≠ .flush ack)
    (cmds : List WriteCmd) : aheadOf ack (cmd :: cmds) = cmd :: aheadOf ack cmds := by
  simp [aheadOf, h]

/-- A command that is sent later is not ahead of an acknowledgement in the
queue. -/
theorem aheadOf_append {ack : Nat} {as : List WriteCmd} (h : .flush ack ∈ as)
    (bs : List WriteCmd) : aheadOf ack (as ++ bs) = aheadOf ack as := by
  induction as with
  | nil => cases h
  | cons cmd as ih =>
    by_cases hcmd : cmd = .flush ack
    · rw [hcmd, cons_append, aheadOf_flush_self, aheadOf_flush_self]
    · rw [cons_append, aheadOf_cons_of_ne hcmd, aheadOf_cons_of_ne hcmd,
        ih ((mem_cons.mp h).resolve_left (Ne.symm hcmd))]

/-- Everything in the queue is ahead of an acknowledgement that is asked for
now. -/
theorem aheadOf_append_flush {ack : Nat} {as : List WriteCmd} (h : .flush ack ∉ as) :
    aheadOf ack (as ++ [.flush ack]) = as := by
  induction as with
  | nil => exact aheadOf_flush_self ack []
  | cons cmd as ih =>
    have hcmd : cmd ≠ .flush ack := fun heq => h (heq ▸ mem_cons_self)
    rw [cons_append, aheadOf_cons_of_ne hcmd, ih fun hmem => h (mem_cons_of_mem _ hmem)]

/-- What is ahead of an acknowledgement is a beginning of what is on its way. -/
theorem bytesFor_aheadOf_isPrefix (num ack : Nat) (cmds : List WriteCmd) :
    bytesFor num (aheadOf ack cmds) <+: bytesFor num cmds := by
  obtain ⟨rest, hrest⟩ := takeWhile_prefix (l := cmds) fun cmd => decide (cmd ≠ .flush ack)
  refine ⟨bytesFor num rest, ?_⟩
  rw [← bytesFor_append]
  exact congrArg _ hrest

namespace BlockPos

/-- The end of a record. -/
def stop (p : BlockPos) : Nat := p.offset + 4 + p.size

/-- The records at two positions do not overlap. -/
def Apart (p q : BlockPos) : Prop :=
  p.fileNum ≠ q.fileNum ∨ p.stop ≤ q.offset ∨ q.stop ≤ p.offset

theorem Apart.symm {p q : BlockPos} (h : p.Apart q) : q.Apart p := by
  rcases h with h | h | h
  · exact Or.inl (Ne.symm h)
  · exact Or.inr (Or.inr h)
  · exact Or.inr (Or.inl h)

theorem not_apart_self (p : BlockPos) : ¬ p.Apart p := by
  unfold Apart stop
  omega

end BlockPos

namespace SharedBlocks

variable {s s' : SharedBlocks} {e : BlockEvent} (dir : List (Nat × Bytes)) (maxFileSize : Nat)

/-- The batch the writer has in hand. -/
def inHand (s : SharedBlocks) : List WriteCmd :=
  match s.writer with
  | .idle => []
  | .batching num data | .writing num data => [.block num data]

/-- Everything the writer has still to do, in order. -/
def cmds (s : SharedBlocks) : List WriteCmd := s.inHand ++ (s.carry.toList ++ s.queue)

/-- What is on its way to a file. -/
def queued (s : SharedBlocks) (num : Nat) : Bytes := bytesFor num s.cmds

/-- What a file is going to be once the queue is drained. -/
def reach (s : SharedBlocks) (num : Nat) : Bytes := s.onDisk num ++ s.queued num

theorem reach_eq (s : SharedBlocks) (num : Nat) :
    s.reach num = s.onDisk num ++ bytesFor num s.cmds := rfl

/-- **A step that is in turn**: a record is handed to the writer when the file
is going to reach just to its offset, bytes are appended past the writer only at
their own place and with nothing on its way to the file, a write fails only when
nothing else is on its way to the file, no reader is out of patience, and the
length of a block fits its size field. -/
def InTurn (s : SharedBlocks) : BlockEvent → Prop
  | .storeBlock _ raw | .storeBlockAsync _ raw => raw.length < 2 ^ 32
  | .handOver c =>
    match s.callers c with
    | .reserved pos _ => s.writeTx = true → (s.reach pos.fileNum).length = pos.offset
    | _ => True
  | .append c _ =>
    match s.callers c with
    | .appending _ pos _ written =>
      s.queued pos.fileNum = [] ∧ (s.onDisk pos.fileNum).length = pos.offset + written
    | _ => True
  | .writeFails =>
    match s.writer with
    | .writing num _ => bytesFor num (s.carry.toList ++ s.queue) = []
    | _ => True
  | .timesOut _ => False
  | _ => True

/-- Every step of a schedule is in turn where it is taken. -/
def AllInTurn (s : SharedBlocks) : List BlockEvent → Prop
  | [] => True
  | e :: events => s.InTurn e ∧ AllInTurn (s.step e).1 events

/-! ## Positions -/

/-- A record that ends before the current offset. -/
def Below (s : SharedBlocks) (p : BlockPos) : Prop :=
  p.fileNum < s.fileNum ∨ p.fileNum = s.fileNum ∧ p.stop ≤ s.offset

/-- **Positions do not overlap.** The one that is not yet below the current
offset belongs to the caller that has the lock. -/
structure Laid (s : SharedBlocks) : Prop where
  lock : ∀ c, (s.callers c).holdsLock = true → s.lock = some c
  fits : ∀ c raw, (s.callers c).raw? = some raw → raw.length < 2 ^ 32
  sized : ∀ c pos raw, (s.callers c).pos? = some pos → (s.callers c).raw? = some raw →
    pos.size = raw.length
  current : ∀ c pos, (s.callers c).holdsLock = true → (s.callers c).pos? = some pos →
    pos.fileNum = s.fileNum ∧ pos.offset = s.offset
  below : ∀ c pos, (s.callers c).holdsLock = false → (s.callers c).pos? = some pos → s.Below pos
  apart : ∀ c c', c ≠ c' → ∀ p q, (s.callers c).pos? = some p → (s.callers c').pos? = some q →
    p.Apart q
  returned : ∀ p raw, (p, raw) ∈ s.returned → (p.size = raw.length ∧ raw.length < 2 ^ 32)
    ∧ s.Below p ∧ ∀ c q, (s.callers c).pos? = some q → q.Apart p

theorem laid_open : (openWithMaxFileSize dir maxFileSize).Laid where
  lock _ h := by cases h
  fits _ _ h := by cases h
  sized _ _ _ h := by cases h
  current _ _ h := by cases h
  below _ _ _ h := by cases h
  apart _ _ _ _ _ h := by cases h
  returned _ _ h := by cases h

/-- Only one caller has the lock. -/
theorem Laid.others (h : s.Laid) {c c' : Nat} (hc : s.lock = some c) (hne : c' ≠ c) :
    (s.callers c').holdsLock = false := by
  refine Bool.eq_false_iff.mpr fun hl => hne ?_
  exact Option.mem_unique (h.lock c' hl) hc

/-- A record at the current offset is apart from those below it. -/
theorem Below.apart {p q : BlockPos} (h : s.Below q) (hf : p.fileNum = s.fileNum)
    (ho : p.offset = s.offset) : p.Apart q := by
  unfold Below at h
  unfold BlockPos.Apart
  omega

variable {c : Nat}

/-- **One caller goes on**, and the others keep what they have. -/
theorem Laid.replace (h : s.Laid) {p : CallerPhase}
    (hcallers : s'.callers = Function.update s.callers c p)
    (hbelow : ∀ q, s.Below q → s'.Below q)
    (hothers : (∀ c', c' ≠ c → (s.callers c').holdsLock = false)
      ∨ s'.lock = s.lock ∧ s'.fileNum = s.fileNum ∧ s'.offset = s.offset)
    (hlock : p.holdsLock = true → s'.lock = some c)
    (hraw : ∀ raw, p.raw? = some raw → raw.length < 2 ^ 32)
    (hpos : ∀ pos, p.pos? = some pos → (∀ raw, p.raw? = some raw → pos.size = raw.length)
      ∧ (p.holdsLock = true → pos.fileNum = s'.fileNum ∧ pos.offset = s'.offset)
      ∧ (p.holdsLock = false → s'.Below pos)
      ∧ (∀ c', c' ≠ c → ∀ q, (s.callers c').pos? = some q → pos.Apart q)
      ∧ ∀ q raw, (q, raw) ∈ s'.returned → pos.Apart q)
    (hreturned : ∀ q raw, (q, raw) ∈ s'.returned → (q, raw) ∈ s.returned
      ∨ (q.size = raw.length ∧ raw.length < 2 ^ 32) ∧ s'.Below q
        ∧ ∀ c', c' ≠ c → ∀ p, (s.callers c').pos? = some p → p.Apart q) :
    s'.Laid := by
  have hself : s'.callers c = p := by rw [hcallers, update_self]
  have hne : ∀ c', c' ≠ c → s'.callers c' = s.callers c' := fun c' hc' => by
    rw [hcallers, update_of_ne hc']
  constructor
  case lock =>
    intro c' hl
    rcases eq_or_ne c' c with rfl | hc'
    · exact hlock (hself ▸ hl)
    · rw [hne c' hc'] at hl
      rcases hothers with hno | ⟨heq, -⟩
      · rw [hno c' hc'] at hl
        cases hl
      · exact heq.trans (h.lock c' hl)
  case fits =>
    intro c' raw hr
    rcases eq_or_ne c' c with rfl | hc'
    · exact hraw raw (hself ▸ hr)
    · exact h.fits c' raw (hne c' hc' ▸ hr)
  case sized =>
    intro c' pos raw hp hr
    rcases eq_or_ne c' c with rfl | hc'
    · exact (hpos pos (hself ▸ hp)).1 raw (hself ▸ hr)
    · exact h.sized c' pos raw (hne c' hc' ▸ hp) (hne c' hc' ▸ hr)
  case current =>
    intro c' pos hl hp
    rcases eq_or_ne c' c with rfl | hc'
    · exact (hpos pos (hself ▸ hp)).2.1 (hself ▸ hl)
    · rw [hne c' hc'] at hl hp
      rcases hothers with hno | ⟨-, hf, ho⟩
      · rw [hno c' hc'] at hl
        cases hl
      · rw [hf, ho]
        exact h.current c' pos hl hp
  case below =>
    intro c' pos hl hp
    rcases eq_or_ne c' c with rfl | hc'
    · exact (hpos pos (hself ▸ hp)).2.2.1 (hself ▸ hl)
    · exact hbelow pos (h.below c' pos (hne c' hc' ▸ hl) (hne c' hc' ▸ hp))
  case apart =>
    intro c₁ c₂ h₁₂ p₁ p₂ hp₁ hp₂
    rcases eq_or_ne c₁ c with rfl | hc₁
    · exact (hpos p₁ (hself ▸ hp₁)).2.2.2.1 c₂ (Ne.symm h₁₂) p₂ (hne c₂ (Ne.symm h₁₂) ▸ hp₂)
    · rcases eq_or_ne c₂ c with rfl | hc₂
      · exact ((hpos p₂ (hself ▸ hp₂)).2.2.2.1 c₁ hc₁ p₁ (hne c₁ hc₁ ▸ hp₁)).symm
      · exact h.apart c₁ c₂ h₁₂ p₁ p₂ (hne c₁ hc₁ ▸ hp₁) (hne c₂ hc₂ ▸ hp₂)
  case returned =>
    intro q raw hq
    have hmine : ∀ p', (s'.callers c).pos? = some p' → p'.Apart q := fun p' hp' =>
      (hpos p' (hself ▸ hp')).2.2.2.2 q raw hq
    rcases hreturned q raw hq with hold | ⟨hsize, hb, hap⟩
    · obtain ⟨hsize, hb, hap⟩ := h.returned q raw hold
      refine ⟨hsize, hbelow q hb, fun c' p' hp' => ?_⟩
      rcases eq_or_ne c' c with rfl | hc'
      · exact hmine p' hp'
      · exact hap c' p' (hne c' hc' ▸ hp')
    · refine ⟨hsize, hb, fun c' p' hp' => ?_⟩
      rcases eq_or_ne c' c with rfl | hc'
      · exact hmine p' hp'
      · exact hap c' hc' p' (hne c' hc' ▸ hp')

/-- Nothing has happened to the callers. -/
structure SameCallers (s s' : SharedBlocks) : Prop where
  callers : s'.callers = s.callers
  lock : s'.lock = s.lock
  fileNum : s'.fileNum = s.fileNum
  offset : s'.offset = s.offset
  returned : s'.returned = s.returned

theorem Laid.congr (h : s.Laid) (hs : SameCallers s s') : s'.Laid := by
  cases s'
  obtain ⟨rfl, rfl, rfl, rfl, rfl⟩ := hs
  exact ⟨h.lock, h.fits, h.sized, h.current, h.below, h.apart, h.returned⟩

/-- Nothing has happened except to the writer, its queue and the files. -/
structure ByWriter (s s' : SharedBlocks) : Prop extends SameCallers s s' where
  readers : s'.readers = s.readers
  writeTx : s'.writeTx = s.writeTx
  failed : s'.failed = false → s.failed = false

/-- The writer takes the first of the commands it has still to do. -/
theorem take_cases (s : SharedBlocks) :
    s.take = s ∨ s.writer = .idle ∧ ∃ cmd queue, s.cmds = cmd :: queue
      ∧ s.take = { s with carry := none, queue := queue }.process cmd := by
  unfold take
  split
  · rename_i hidle
    have hcmds : s.cmds = s.carry.toList ++ s.queue := by
      unfold cmds inHand
      rw [hidle]
      rfl
    rw [hcmds]
    split
    · rename_i cmd hcarry
      exact Or.inr ⟨hidle, cmd, s.queue, by rw [hcarry]; rfl, rfl⟩
    · rename_i cmd queue hcarry hqueue
      exact Or.inr ⟨hidle, cmd, queue, by rw [hcarry, hqueue]; rfl, by rw [hcarry]⟩
    · exact Or.inl rfl
  · exact Or.inl rfl

/-! ### The steps of a caller -/

theorem below_rotate {q : BlockPos} (hq : s.Below q) (len : Nat) : (s.rotate len).Below q := by
  unfold rotate
  split
  · left
    show q.fileNum < s.fileNum + 1
    unfold Below at hq
    omega
  · exact hq

/-- Rotation is a matter of the current file only. -/
theorem rotate_eq (s : SharedBlocks) (len : Nat) :
    ∃ fileNum offset, s.rotate len = { s with fileNum := fileNum, offset := offset } := by
  unfold rotate
  split
  · exact ⟨_, _, rfl⟩
  · exact ⟨s.fileNum, s.offset, rfl⟩

theorem rotate_same (s : SharedBlocks) (len : Nat) : (s.rotate len).callers = s.callers
    ∧ (s.rotate len).lock = s.lock ∧ (s.rotate len).returned = s.returned := by
  obtain ⟨fileNum, offset, heq⟩ := s.rotate_eq len
  rw [heq]
  exact ⟨rfl, rfl, rfl⟩

/-- What a caller with the lock gets is apart from everything that was given
out before. -/
theorem Laid.apart_nextPos (h : s.Laid) (hlock : s.lock = some c) (raw : Bytes) :
    (∀ c', c' ≠ c → ∀ q, (s.callers c').pos? = some q →
        ((s.rotate raw.length).nextPos raw).Apart q)
      ∧ ∀ q raw', (q, raw') ∈ s.returned → ((s.rotate raw.length).nextPos raw).Apart q := by
  refine ⟨fun c' hc' q hq => ?_, fun q raw' hq => ?_⟩
  · exact (below_rotate (h.below c' q (h.others hlock hc') hq) _).apart rfl rfl
  · exact (below_rotate (h.returned q raw' hq).2.1 _).apart rfl rfl

section

variable (h : s.Laid) {pos : BlockPos} (hpos : (s.callers c).pos? = some pos)
  (hraw : (s.callers c).raw? = some raw)
include h hpos hraw

/-- A caller goes on with the position and the block it has. -/
theorem Laid.going {p : CallerPhase} (hp : p.pos? = some pos) (hr : p.raw? = some raw)
    (hcallers : s'.callers = Function.update s.callers c p)
    (hheld : ∀ {b}, p.holdsLock = b → (s.callers c).holdsLock = b)
    (hsame : (s'.lock, s'.fileNum, s'.offset, s'.returned)
      = (s.lock, s.fileNum, s.offset, s.returned)) : s'.Laid := by
  obtain ⟨hl, hf, ho, hret⟩ : s'.lock = s.lock ∧ s'.fileNum = s.fileNum ∧ s'.offset = s.offset
      ∧ s'.returned = s.returned := by simpa using hsame
  have hbelow : ∀ q, s.Below q → s'.Below q := fun q hq => by
    unfold Below
    rw [hf, ho]
    exact hq
  refine h.replace hcallers hbelow (Or.inr ⟨hl, hf, ho⟩)
    (fun hp => hl.trans (h.lock c (hheld hp))) (fun raw' hr' => ?_) (fun pos' hp' => ?_)
    fun q raw' hq => Or.inl (hret ▸ hq)
  · exact h.fits c raw' (hraw.trans (hr.symm.trans hr'))
  · cases hp.symm.trans hp'
    refine ⟨fun raw' hr' => h.sized c pos raw' hpos (hraw.trans (hr.symm.trans hr')), fun hl => ?_,
      fun hl => hbelow pos (h.below c pos (hheld hl) hpos),
      fun c' hc' q hq => (h.apart c' c hc' q pos hq hpos).symm,
      fun q raw' hq => (h.returned q raw' (hret ▸ hq)).2.2 c pos hpos⟩
    rw [hf, ho]
    exact h.current c pos (hheld hl) hpos

/-- **A position is returned**: it is no longer the caller's, and nobody else's
either. -/
theorem laid_returning (hcallers : s'.callers = s.callers) (hreturned : s'.returned = s.returned)
    (hbelow : ∀ q, s.Below q → s'.Below q) (hb : s'.Below pos)
    (hothers : (∀ c', c' ≠ c → (s.callers c').holdsLock = false)
      ∨ s'.lock = s.lock ∧ s'.fileNum = s.fileNum ∧ s'.offset = s.offset) :
    (s'.returning c pos raw).Laid := by
  refine h.replace (c := c) (p := .idle) ?_ hbelow hothers (fun hl => by cases hl)
    (fun raw' hr => by cases hr) (fun pos' hp => by cases hp) (fun q raw' hq => ?_)
  · exact congrArg (Function.update · c _) hcallers
  · have hq' : (q, raw') ∈ (pos, raw) :: s'.returned := hq
    rw [mem_cons, hreturned] at hq'
    rcases hq' with heq | hold
    · obtain ⟨rfl, rfl⟩ := Prod.mk.inj heq
      exact Or.inr ⟨⟨h.sized c q raw' hpos hraw, h.fits c raw' hraw⟩, hb,
        fun c' hc' p hp => h.apart c' c hc' p q hp hpos⟩
    · exact Or.inl hold

end

/-! ## Bytes on their way

A step moves bytes from the queue into the files, or adds some, or fails. -/

/-- **Nothing is lost** between two states: files and what they are going to be
grow, an acknowledgement that is still out has at least the same bytes ahead of
it, and one that has come has them in the files. -/
structure Kept (s s' : SharedBlocks) : Prop where
  disk : ∀ num, s.onDisk num <+: s'.onDisk num
  reach : ∀ num, s.reach num <+: s'.reach num
  waits : ∀ ack, ack ∉ s'.acked → ack ∉ s.acked ∧ (.flush ack ∈ s.cmds → .flush ack ∈ s'.cmds
    ∧ ∀ num, s.onDisk num ++ bytesFor num (aheadOf ack s.cmds)
      <+: s'.onDisk num ++ bytesFor num (aheadOf ack s'.cmds))
  acked : ∀ ack ∈ s'.acked, ack ∉ s.acked →
    ∀ num, s.onDisk num ++ bytesFor num (aheadOf ack s.cmds) <+: s'.onDisk num

/-- No acknowledgement has come. -/
theorem Kept.of_acked_eq (hacked : s'.acked = s.acked)
    (hdisk : ∀ num, s.onDisk num <+: s'.onDisk num) (hreach : ∀ num, s.reach num <+: s'.reach num)
    (hahead : ∀ ack, .flush ack ∈ s.cmds → .flush ack ∈ s'.cmds
      ∧ ∀ num, s.onDisk num ++ bytesFor num (aheadOf ack s.cmds)
        <+: s'.onDisk num ++ bytesFor num (aheadOf ack s'.cmds)) : Kept s s' :=
  ⟨hdisk, hreach, fun ack hack => ⟨hacked ▸ hack, hahead ack⟩,
    fun _ hack hno => absurd (hacked ▸ hack) hno⟩

theorem onDisk_congr (hfiles : s'.files = s.files) (num : Nat) : s'.onDisk num = s.onDisk num := by
  unfold onDisk
  rw [hfiles]

/-- Commands are sent. -/
theorem Kept.of_send {more : List WriteCmd} (hfiles : s'.files = s.files)
    (hcmds : s'.cmds = s.cmds ++ more) (hacked : s'.acked = s.acked) : Kept s s' := by
  have hdisk := onDisk_congr hfiles
  refine of_acked_eq hacked (fun num => ?_) (fun num => ?_)
    fun ack hmem => ⟨hcmds ▸ mem_append_left _ hmem, fun num => ?_⟩
  · rw [hdisk]
  · rw [reach_eq, reach_eq, hdisk, hcmds, bytesFor_append, ← append_assoc]
    exact prefix_append _ _
  · rw [hdisk, hcmds, aheadOf_append hmem]

/-- A step that touches neither the files nor the queue. -/
theorem Kept.of_eq (hfiles : s'.files = s.files) (hcmds : s'.cmds = s.cmds)
    (hacked : s'.acked = s.acked) : Kept s s' :=
  of_send hfiles (hcmds.trans (append_nil _).symm) hacked

theorem onDisk_appendTo_self (s : SharedBlocks) (num : Nat) (bytes : Bytes) :
    (s.appendTo num bytes).onDisk num = s.onDisk num ++ bytes := by
  show (Function.update s.files num _ num).getD [] = _
  rw [update_self, Option.getD_some]

theorem onDisk_appendTo_of_ne (s : SharedBlocks) {num num' : Nat} (h : num' ≠ num)
    (bytes : Bytes) : (s.appendTo num bytes).onDisk num' = s.onDisk num' := by
  show (Function.update s.files num _ num').getD [] = _
  rw [update_of_ne h]
  rfl

/-- Bytes are appended to a file that nothing is on its way to. -/
theorem Kept.of_appendTo {num : Nat} {bytes : Bytes} (hq : s.queued num = [])
    (hfiles : s'.files = (s.appendTo num bytes).files) (hcmds : s'.cmds = s.cmds)
    (hacked : s'.acked = s.acked) : Kept s s' := by
  have hself : s'.onDisk num = s.onDisk num ++ bytes :=
    (onDisk_congr hfiles num).trans (onDisk_appendTo_self s num bytes)
  have hne : ∀ num', num' ≠ num → s'.onDisk num' = s.onDisk num' := fun num' hnum =>
    (onDisk_congr hfiles num').trans (onDisk_appendTo_of_ne s hnum bytes)
  have hdisk : ∀ num', s.onDisk num' <+: s'.onDisk num' := fun num' => by
    rcases eq_or_ne num' num with rfl | hnum
    · rw [hself]
      exact prefix_append _ _
    · rw [hne num' hnum]
  -- nothing is ahead of anything in this file
  have hadd : ∀ num' (b : Bytes), b <+: s.queued num' →
      s.onDisk num' ++ b <+: s'.onDisk num' ++ b := by
    intro num' b hb
    rcases eq_or_ne num' num with rfl | hnum
    · rw [hq] at hb
      rw [prefix_nil.mp hb, append_nil, append_nil]
      exact hdisk num'
    · rw [hne num' hnum]
  refine of_acked_eq hacked hdisk (fun num' => ?_) fun ack hmem => ⟨hcmds ▸ hmem, fun num' => ?_⟩
  · rw [reach_eq, reach_eq, hcmds]
    exact hadd num' _ (prefix_refl _)
  · rw [hcmds]
    exact hadd num' _ (bytesFor_aheadOf_isPrefix num' ack s.cmds)

/-- Bytes have moved within the queue and into the files, and no further. -/
theorem Kept.of_moved (hdisk : ∀ num, s.onDisk num <+: s'.onDisk num) (hacked : s'.acked = s.acked)
    (hmem : ∀ ack, .flush ack ∈ s.cmds → .flush ack ∈ s'.cmds)
    (hahead : ∀ ack num, s'.onDisk num ++ bytesFor num (aheadOf ack s'.cmds)
      = s.onDisk num ++ bytesFor num (aheadOf ack s.cmds))
    (hreach : ∀ num, s'.reach num = s.reach num) : Kept s s' := by
  refine of_acked_eq hacked hdisk (fun num => ?_) fun ack h => ⟨hmem ack h, fun num => ?_⟩
  · rw [hreach]
  · rw [hahead]

theorem cmds_of_writing {num : Nat} {data : Bytes} (h : s.writer = .writing num data) :
    s.cmds = .block num data :: (s.carry.toList ++ s.queue) := by
  unfold cmds inHand
  rw [h]
  rfl

/-! ## Records at their positions -/

/-- **What the files hold**: at a position that was returned, nothing but the
record, and all of it if no write has failed; at the position of a record that
is being appended, as much of it as has been. -/
structure Written (s : SharedBlocks) : Prop where
  agrees : ∀ p raw, (p, raw) ∈ s.returned → Agrees (s.reach p.fileNum) p.offset (blockRecord raw)
  stands : s.failed = false → ∀ p raw, (p, raw) ∈ s.returned →
    Stands (s.reach p.fileNum) p.offset (blockRecord raw)
  appended : ∀ c locked p raw w, s.callers c = .appending locked p raw w →
    w ≤ (blockRecord raw).length
      ∧ Stands (s.onDisk p.fileNum) p.offset ((blockRecord raw).take w)

/-- A step that adds no bytes. -/
theorem Written.of_cut (h : s.Written) (hdisk : ∀ num, s.onDisk num <+: s'.onDisk num)
    (hcut : ∀ num, s'.reach num <+: s.reach num)
    (hkept : s'.failed = false → s.failed = false ∧ ∀ num, s'.reach num = s.reach num)
    (hreturned : s'.returned = s.returned)
    (happ : ∀ c locked p raw w, s'.callers c = .appending locked p raw w →
      s.callers c = .appending locked p raw w ∨ w = 0) : s'.Written := by
  refine ⟨fun p raw hp => ?_, fun hf p raw hp => ?_, fun c locked p raw w hc => ?_⟩
  · exact (h.agrees p raw (hreturned ▸ hp)).cut (hcut _)
  · rw [(hkept hf).2]
    exact h.stands (hkept hf).1 p raw (hreturned ▸ hp)
  · rcases happ c locked p raw w hc with hold | rfl
    · exact (h.appended c locked p raw w hold).imp_right fun hs => hs.mono (hdisk _)
    · exact ⟨zero_le _, stands_nil _ _⟩

/-- **Bytes are added inside the place of one caller**: the records returned
before are elsewhere. -/
theorem Written.grow (h : s.Written) (hl : s.Laid) {pos : BlockPos}
    (hpos : (s.callers c).pos? = some pos) {d : Bytes}
    (hlo : pos.offset ≤ (s.reach pos.fileNum).length)
    (hhi : (s.reach pos.fileNum).length + d.length ≤ pos.stop)
    (hself : s'.reach pos.fileNum = s.reach pos.fileNum ++ d)
    (hne : ∀ num, num ≠ pos.fileNum → s'.reach num = s.reach num)
    {q : BlockPos} (hq : (q, raw) ∈ s.returned) :
    Agrees (s'.reach q.fileNum) q.offset (blockRecord raw)
      ∧ (s.failed = false → Stands (s'.reach q.fileNum) q.offset (blockRecord raw)) := by
  obtain ⟨⟨hsize, -⟩, -, hap⟩ := hl.returned q raw hq
  have hagrees := h.agrees q raw hq
  have hstands := fun hf => h.stands hf q raw hq
  by_cases hfile : q.fileNum = pos.fileNum
  · rw [hfile] at hagrees hstands ⊢
    rw [hself]
    refine ⟨?_, fun hf => (hstands hf).mono (prefix_append _ _)⟩
    rcases hap c pos hpos with hother | hafter | hbefore
    · exact absurd hfile.symm hother
    · refine agrees_of_length_le ?_ _
      rw [length_append]
      omega
    · refine hagrees.append ?_ d
      rw [length_blockRecord]
      unfold BlockPos.stop at hbefore
      omega
  · rw [hne _ hfile]
    exact ⟨hagrees, hstands⟩

/-- A caller that is appending after another one has gone on. -/
theorem appending_update {callers : Nat → CallerPhase} {p : CallerPhase}
    (hp : ∀ locked q raw w, p = .appending locked q raw w → w = 0)
    (c' : Nat) (locked : Bool) (q : BlockPos) (raw : Bytes) (w : Nat)
    (hc' : Function.update callers c p c' = .appending locked q raw w) :
    callers c' = .appending locked q raw w ∨ w = 0 := by
  rcases eq_or_ne c' c with rfl | hne
  · rw [update_self] at hc'
    exact Or.inr (hp _ _ _ _ hc')
  · rw [update_of_ne hne] at hc'
    exact Or.inl hc'

theorem cmds_send (s : SharedBlocks) (cmd : WriteCmd) : (s.send cmd).cmds = s.cmds ++ [cmd] := by
  show s.inHand ++ (s.carry.toList ++ (s.queue ++ [cmd])) = _
  unfold cmds
  simp only [append_assoc]

/-- What a file is going to be after a record has been sent. -/
theorem reach_send_block (s : SharedBlocks) (num num' : Nat) (data : Bytes) :
    (s.send (.block num data)).reach num' = s.reach num' ++ if num = num' then data else [] := by
  rw [reach_eq, reach_eq, cmds_send, bytesFor_append, bytesFor_cons, bytesFor_nil, append_nil,
    append_assoc]
  rfl

/-! ## The queue -/

/-- The queue is empty until there is a writer, a batch grows only from the
queue, and acknowledgements are asked for one after the other. -/
structure Orderly (s : SharedBlocks) : Prop where
  off : s.writeTx = false → s.cmds = []
  batch : ∀ num data, s.writer = .batching num data → s.carry = none
  fresh : ∀ ack, .flush ack ∈ s.cmds ∨ ack ∈ s.acked → ack < s.nextAck

theorem Orderly.congr (h : s.Orderly) (htx : s'.writeTx = s.writeTx) (hqueue : s'.queue = s.queue)
    (hcarry : s'.carry = s.carry) (hwriter : s'.writer = s.writer) (hacked : s'.acked = s.acked)
    (hnext : s'.nextAck = s.nextAck) : s'.Orderly := by
  cases s'
  obtain ⟨rfl, rfl, rfl⟩ : _ ∧ _ ∧ _ := ⟨htx, hqueue, hcarry⟩
  obtain ⟨rfl, rfl, rfl⟩ : _ ∧ _ ∧ _ := ⟨hwriter, hacked, hnext⟩
  exact ⟨h.off, h.batch, h.fresh⟩

/-- A command is sent, with an acknowledgement that is new if it has one. -/
theorem Orderly.send (h : s.Orderly) (htx : s.writeTx = true) {cmd : WriteCmd} {next : Nat}
    (hnext : s.nextAck ≤ next) (hcmd : ∀ ack, cmd = .flush ack → ack < next) :
    { s.send cmd with nextAck := next }.Orderly where
  off hoff := by
    rw [show s.writeTx = false from hoff] at htx
    cases htx
  batch := h.batch
  fresh ack hack := by
    change .flush ack ∈ (s.send cmd).cmds ∨ _ at hack
    rw [cmds_send, mem_append, mem_singleton] at hack
    rcases hack with (hold | hnew) | hacked
    · exact (h.fresh ack (Or.inl hold)).trans_le hnext
    · exact hcmd ack hnew.symm
    · exact (h.fresh ack (Or.inr hacked)).trans_le hnext

theorem cmds_sendFlush (s : SharedBlocks) : s.sendFlush.cmds = s.cmds ++ [.flush s.nextAck] :=
  cmds_send s _

theorem Orderly.sendFlush (h : s.Orderly) (htx : s.writeTx = true) : s.sendFlush.Orderly :=
  h.send htx (le_succ _) fun _ hack => WriteCmd.flush.inj hack ▸ lt_succ_self _

/-- The queue after a step that only takes commands away. -/
theorem Orderly.of_sublist (h : s.Orderly) (htx : s'.writeTx = s.writeTx)
    (hoff : s.cmds = [] → s'.cmds = []) (hflush : ∀ ack, .flush ack ∈ s'.cmds → .flush ack ∈ s.cmds)
    (hbatch : ∀ num data, s'.writer = .batching num data → s'.carry = none)
    (hacked : s'.acked = s.acked) (hnext : s'.nextAck = s.nextAck) : s'.Orderly where
  off h' := hoff (h.off (htx ▸ h'))
  batch := hbatch
  fresh ack hack := hnext ▸ h.fresh ack (hack.imp (hflush ack) fun hm => hacked ▸ hm)

/-! ## Readers -/

/-- The record at a position is in its file. -/
def Ready (s : SharedBlocks) (pos : BlockPos) : Prop :=
  ∀ raw, (pos, raw) ∈ s.returned → Stands (s.onDisk pos.fileNum) pos.offset (blockRecord raw)

/-- What a reader may rely on: in its second attempt, that the record is in the
file, unless a write has failed; while it waits, that the record is ahead of its
acknowledgement. A first attempt fails only if there is a writer to wait for, or
a write has failed. -/
def ReaderFine (s : SharedBlocks) : BlockReaderPhase → Prop
  | .header pos (some _) | .body pos (some _) => s.failed = false → s.Ready pos
  | .draining _ _ => s.writeTx = true ∨ s.failed = true
  | .waiting pos _ ack => s.failed = false → (ack ∈ s.acked → s.Ready pos)
      ∧ (ack ∉ s.acked → .flush ack ∈ s.cmds ∧ ∀ raw, (pos, raw) ∈ s.returned →
        Stands (s.onDisk pos.fileNum ++ bytesFor pos.fileNum (aheadOf ack s.cmds)) pos.offset
          (blockRecord raw))
  | _ => True

/-- Every reader reads a position that was returned and can rely on what it
relies on. -/
structure Served (s : SharedBlocks) : Prop where
  known : ∀ r pos, (s.readers r).pos? = some pos → ∃ raw, (pos, raw) ∈ s.returned
  fine : ∀ r, s.ReaderFine (s.readers r)

variable {p : BlockReaderPhase}

section

variable (hkept : s'.failed = false → s.failed = false ∧ Kept s s')
  (hwriter : s.writeTx = true → s'.writeTx = true)
include hkept hwriter

/-- **What a reader relies on survives** every step that loses nothing. -/
theorem ReaderFine.mono (h : s.ReaderFine p)
    (hreturned : ∀ pos, p.pos? = some pos → ∀ raw, (pos, raw) ∈ s'.returned →
      (pos, raw) ∈ s.returned) : s'.ReaderFine p := by
  have hready : ∀ pos, p.pos? = some pos → Kept s s' → s.Ready pos → s'.Ready pos :=
    fun pos hpos hk hr raw hraw => (hr raw (hreturned pos hpos raw hraw)).mono (hk.disk _)
  have hsecond : ∀ pos, p.pos? = some pos → (s.failed = false → s.Ready pos) →
      s'.failed = false → s'.Ready pos := fun pos hpos hr hf =>
    hready pos hpos (hkept hf).2 (hr (hkept hf).1)
  cases p with
  | idle => trivial
  | header pos first =>
    cases first with
    | none => trivial
    | some e => exact hsecond pos rfl h
  | body pos first =>
    cases first with
    | none => trivial
    | some e => exact hsecond pos rfl h
  | draining pos e =>
    rcases h with h | h
    · exact Or.inl (hwriter h)
    · refine Or.inr ?_
      by_contra hf
      rw [(hkept (Bool.not_eq_true _ ▸ hf)).1] at h
      cases h
  | waiting pos e ack =>
    intro hf
    obtain ⟨hf₀, hk⟩ := hkept hf
    obtain ⟨hin, hout⟩ := h hf₀
    refine ⟨fun hack raw hraw => ?_, fun hack => ?_⟩
    · by_cases hold : ack ∈ s.acked
      · exact hready pos rfl hk (hin hold) raw hraw
      · exact ((hout hold).2 raw (hreturned pos rfl raw hraw)).mono (hk.acked ack hack hold _)
    · obtain ⟨hold, hwaits⟩ := hk.waits ack hack
      obtain ⟨hmem, hgrows⟩ := hwaits (hout hold).1
      exact ⟨hmem, fun raw hraw =>
        ((hout hold).2 raw (hreturned pos rfl raw hraw)).mono (hgrows _)⟩

/-- A step of a caller or of the writer. -/
theorem Served.of_step (h : s.Served) (hreaders : s'.readers = s.readers)
    (hold : ∀ q raw, (q, raw) ∈ s.returned → (q, raw) ∈ s'.returned)
    (hnew : ∀ q raw raw', (q, raw) ∈ s'.returned → (q, raw') ∈ s.returned → (q, raw) ∈ s.returned) :
    s'.Served := by
  constructor
  · intro r pos hp
    rw [hreaders] at hp
    obtain ⟨raw, hraw⟩ := h.known r pos hp
    exact ⟨raw, hold pos raw hraw⟩
  · intro r
    rw [hreaders]
    refine (h.fine r).mono hkept hwriter fun pos hp raw hraw => ?_
    obtain ⟨raw', hraw'⟩ := h.known r pos hp
    exact hnew pos raw raw' hraw hraw'

end

theorem Served.setReader (h : s.Served) {r : Nat}
    (hpos : ∀ pos, p.pos? = some pos → ∃ raw, (pos, raw) ∈ s.returned) (hp : s.ReaderFine p) :
    (s.setReader r p).Served := by
  have hfine : ∀ q, s.ReaderFine q → (s.setReader r p).ReaderFine q := fun q hq =>
    hq.mono (fun hf => ⟨hf, Kept.of_eq rfl rfl rfl⟩) id fun _ _ _ hraw => hraw
  constructor
  · exact (forall_update_iff s.readers
      fun _ q => ∀ pos, q.pos? = some pos → ∃ raw, (pos, raw) ∈ s.returned).mpr
      ⟨hpos, fun r' _ => h.known r'⟩
  · exact (forall_update_iff s.readers fun _ q => (s.setReader r p).ReaderFine q).mpr
      ⟨hfine p hp, fun r' _ => hfine _ (h.fine r')⟩

/-! ### Attempts -/

variable {r : Nat} {pos : BlockPos} {first : Option StorageError}

/-- A record that is in its file has its size in front. -/
theorem readExact_size {v : Bytes} (h : Stands v pos.offset (blockRecord raw))
    (hsize : pos.size = raw.length ∧ raw.length < 2 ^ 32) :
    ∃ sizeBuf, readExact v pos.offset 4 = some sizeBuf ∧ ofLeBytes sizeBuf = pos.size := by
  refine ⟨leBytes 4 raw.length, ?_, ?_⟩
  · have hread := h.readExact (a := 0) (n := 4) (by rw [length_blockRecord]; omega)
      (by rw [length_blockRecord]; omega)
    exact hread
  · rw [ofLeBytes_leBytes (lt_of_lt_of_eq hsize.2 (by norm_num)), hsize.1]

/-- No record of the size is in its file at a position. -/
def Missing (s : SharedBlocks) (pos : BlockPos) : Prop :=
  ∀ raw, pos.size = raw.length ∧ raw.length < 2 ^ 32 →
    ¬ Stands (s.onDisk pos.fileNum) pos.offset (blockRecord raw)

/-- **What a step of a reader's attempt comes to**: the size is right, the block
is read, or the record is missing. -/
inductive Attempt (s : SharedBlocks) (r : Nat) : SharedBlocks × Option BlockAnswer → Prop where
  | none : Attempt s r (s, none)
  | size {pos : BlockPos} {first : Option StorageError} (hr : s.readers r = .header pos first) :
    Attempt s r (s.setReader r (.body pos first), none)
  | block {pos : BlockPos} {first : Option StorageError} {data : Bytes}
    (hr : s.readers r = .body pos first)
    (hread : readExact (s.onDisk pos.fileNum) (pos.offset + 4) pos.size = some data) :
    Attempt s r (s.setReader r .idle, some (pos, .ok data))
  | fails {pos : BlockPos} {first : Option StorageError} (e : StorageError)
    (hr : s.readers r = .header pos first ∨ s.readers r = .body pos first)
    (hno : s.Missing pos) : Attempt s r (s.attemptFails r pos first e)

theorem attempt_readHeader (s : SharedBlocks) (r : Nat) : s.Attempt r (s.readHeader r) := by
  unfold readHeader
  split
  · rename_i pos first hr
    split
    · rename_i hfile
      refine .fails _ (Or.inl hr) fun raw _ hs => ?_
      have hlen := hs.length_le (by rw [length_blockRecord]; omega)
      rw [length_blockRecord, onDisk, hfile, Option.getD_none, length_nil] at hlen
      omega
    · rename_i bytes hfile
      have hread : ∀ raw, pos.size = raw.length ∧ raw.length < 2 ^ 32 →
          Stands (s.onDisk pos.fileNum) pos.offset (blockRecord raw) →
          ∃ sizeBuf, readExact bytes pos.offset 4 = some sizeBuf
            ∧ ofLeBytes sizeBuf = pos.size := by
        intro raw hsize hs
        rw [onDisk, hfile] at hs
        exact readExact_size hs hsize
      split
      · rename_i hnone
        refine .fails _ (Or.inl hr) fun raw hsize hs => ?_
        obtain ⟨sizeBuf, hsome, -⟩ := hread raw hsize hs
        rw [hnone] at hsome
        cases hsome
      · rename_i sizeBuf hbuf
        dsimp only
        split
        · exact .size hr
        · rename_i hneq
          refine .fails _ (Or.inl hr) fun raw hsize hs => ?_
          obtain ⟨sizeBuf', hsome, heq⟩ := hread raw hsize hs
          rw [hbuf] at hsome
          exact hneq (Option.some.inj hsome ▸ heq)
  · exact .none

theorem attempt_readBody (s : SharedBlocks) (r : Nat) : s.Attempt r (s.readBody r) := by
  unfold readBody
  split
  · rename_i pos first hr
    split
    · rename_i hnone
      refine .fails _ (Or.inr hr) fun raw hsize hs => ?_
      have hread := hs.readExact (a := 4) (n := raw.length)
        (by rw [length_blockRecord]; omega) (by rw [length_blockRecord])
      rw [hsize.1, hread] at hnone
      cases hnone
    · rename_i data hdata
      exact .block hr hdata
  · exact .none

/-! ## Schedules in turn -/

/-- Everything that holds in a schedule in turn. -/
structure Sound (s : SharedBlocks) : Prop where
  laid : s.Laid
  written : s.Written
  orderly : s.Orderly
  served : s.Served

theorem sound_open : (openWithMaxFileSize dir maxFileSize).Sound where
  laid := laid_open dir maxFileSize
  written := ⟨fun _ _ h => (by cases h), fun _ _ _ h => (by cases h),
    fun _ _ _ _ _ h => (by cases h)⟩
  orderly := ⟨fun _ => rfl, fun _ _ h => (by cases h),
    fun _ h => (by rcases h with h | h <;> cases h)⟩
  served := ⟨fun _ _ h => (by cases h), fun _ => trivial⟩

section

variable (h : s.Sound)
include h

/-- Without a writer, and with no write failed, every record is in its file. -/
theorem Sound.ready_of_off (hoff : s.writeTx = false) (hf : s.failed = false) (pos : BlockPos) :
    s.Ready pos := by
  intro raw hraw
  have hstands := h.written.stands hf pos raw hraw
  rw [reach_eq, h.orderly.off hoff, bytesFor_nil, append_nil] at hstands
  exact hstands

/-- A position that is read and ready: the attempt cannot have failed. -/
theorem Sound.not_ready (hpos : (s.readers r).pos? = some pos) (hno : s.Missing pos) :
    ¬ s.Ready pos := by
  intro hready
  obtain ⟨raw, hraw⟩ := h.served.known r pos hpos
  exact hno raw (h.laid.returned pos raw hraw).1 (hready raw hraw)

/-- A step that moves a reader on. -/
theorem Sound.setReader (hpos : ∀ pos, p.pos? = some pos → ∃ raw, (pos, raw) ∈ s.returned)
    (hp : s.ReaderFine p) :
    (s.setReader r p).Sound where
  laid := h.laid.congr ⟨rfl, rfl, rfl, rfl, rfl⟩
  written := ⟨h.written.agrees, h.written.stands, h.written.appended⟩
  orderly := h.orderly.congr rfl rfl rfl rfl rfl rfl
  served := h.served.setReader hpos hp

/-- **A failed attempt** is followed by a second one, which waits for the writer
if there is one. -/
theorem Sound.attemptFails (hpos : (s.readers r).pos? = some pos) (hno : s.Missing pos)
    (e : StorageError) : (s.attemptFails r pos first e).1.Sound := by
  cases first with
  | none =>
    refine h.setReader (fun pos' hp => ?_) ?_
    · cases hp
      exact h.served.known r pos hpos
    · show s.writeTx = true ∨ s.failed = true
      by_contra hnot
      rw [not_or, Bool.not_eq_true, Bool.not_eq_true] at hnot
      exact h.not_ready hpos hno (h.ready_of_off hnot.1 hnot.2 pos)
  | some e₀ => exact h.setReader (fun pos' hp => by cases hp) trivial

/-- A step of a caller or of the writer that returns no position. -/
theorem Sound.of_cut (hlaid : s'.Laid) (horderly : s'.Orderly) (hreaders : s'.readers = s.readers)
    (hreturned : s'.returned = s.returned) (hdisk : ∀ num, s.onDisk num <+: s'.onDisk num)
    (hcut : ∀ num, s'.reach num <+: s.reach num)
    (hkept : s'.failed = false → s.failed = false ∧ Kept s s' ∧ ∀ num, s'.reach num = s.reach num)
    (hwriter : s.writeTx = true → s'.writeTx = true)
    (happ : ∀ c locked p raw w, s'.callers c = .appending locked p raw w →
      s.callers c = .appending locked p raw w ∨ w = 0) : s'.Sound where
  laid := hlaid
  written := h.written.of_cut hdisk hcut (fun hf => ⟨(hkept hf).1, (hkept hf).2.2⟩) hreturned happ
  orderly := horderly
  served := h.served.of_step (fun hf => ⟨(hkept hf).1, (hkept hf).2.1⟩) hwriter hreaders
    (fun _ _ hq => hreturned ▸ hq) (fun _ _ _ hq _ => hreturned ▸ hq)

/-- A step of one caller that touches neither the files nor the queue. -/
theorem Sound.of_caller {fileNum offset : Nat} {lock : Option Nat} {p : CallerPhase}
    {failed : Bool}
    (hlaid : Laid { s with
      fileNum, offset, lock, callers := Function.update s.callers c p, failed })
    (hfailed : failed = false → s.failed = false)
    (hp : ∀ locked q raw w, p = .appending locked q raw w → w = 0) :
    Sound { s with fileNum, offset, lock, callers := Function.update s.callers c p, failed } :=
  h.of_cut hlaid ⟨h.orderly.off, h.orderly.batch, h.orderly.fresh⟩ rfl rfl
    (fun _ => prefix_refl _) (fun _ => prefix_refl _)
    (fun hf => ⟨hfailed hf, Kept.of_eq rfl rfl rfl, fun _ => rfl⟩) id (appending_update hp)

/-- The queue is asked for an acknowledgement. -/
theorem Sound.sendFlush (htx : s.writeTx = true) : s.sendFlush.Sound := by
  have hreach : ∀ num, s.sendFlush.reach num = s.reach num := fun num => by
    rw [reach_eq, cmds_sendFlush, bytesFor_append]
    exact congrArg (s.onDisk num ++ ·) (append_nil _)
  refine h.of_cut (h.laid.congr ⟨rfl, rfl, rfl, rfl, rfl⟩) (h.orderly.sendFlush htx) rfl rfl
    (fun _ => prefix_refl _) (fun num => ?_)
    (fun hf => ⟨hf, Kept.of_send rfl (cmds_sendFlush s) rfl, hreach⟩) id
    fun _ _ _ _ _ hc => Or.inl hc
  rw [hreach]

/-! ### Every step -/

theorem sound_lockFor (c : Nat) {p : CallerPhase} (hpos : p.pos? = none)
    (hraw : ∀ raw, p.raw? = some raw → raw.length < 2 ^ 32) : (s.lockFor c p).Sound := by
  unfold lockFor
  split
  · rename_i hfree
    refine h.of_caller (h.laid.replace (c := c) (p := p) rfl (fun q hq => hq)
      (Or.inl fun c' _ => ?_) (fun _ => rfl) hraw (fun pos hp => ?_) fun q raw hq => Or.inl hq) id
      fun _ _ _ _ heq => ?_
    · refine Bool.eq_false_iff.mpr fun hl => ?_
      rw [h.laid.lock c' hl] at hfree
      cases hfree
    · rw [hpos] at hp
      cases hp
    · rw [heq] at hpos
      cases hpos
  · exact h

theorem sound_sendRotateFlush (c : Nat) : (s.sendRotateFlush c).Sound := by
  unfold sendRotateFlush
  split
  · rename_i raw hc
    split
    · rename_i hon
      exact (h.sendFlush hon.1).of_caller (h.laid.replace (c := c) rfl (fun q hq => hq)
        (Or.inr ⟨rfl, rfl, rfl⟩) (fun _ => h.laid.lock c (by rw [hc]; rfl))
        (fun raw' hr => h.laid.fits c raw' (by rw [hc]; exact hr)) (fun pos hp => by cases hp)
        fun q raw hq => Or.inl hq) id fun _ _ _ _ heq => by cases heq
    · exact h
  · exact h

end

/-- **A caller with the lock gets the next position.** -/
theorem Laid.granted (h : s.Laid) (hlock : s.lock = some c) {raw : Bytes}
    (hraw : raw.length < 2 ^ 32) {p : CallerPhase}
    (hpos : p.pos? = some ((s.rotate raw.length).nextPos raw)) (hpraw : p.raw? = some raw)
    (hcallers : s'.callers = Function.update (s.rotate raw.length).callers c p)
    (hreturned : s'.returned = (s.rotate raw.length).returned)
    (hgrow : ∀ q, (s.rotate raw.length).Below q → s'.Below q)
    (hheld : p.holdsLock = true → s'.lock = (s.rotate raw.length).lock
      ∧ s'.fileNum = (s.rotate raw.length).fileNum ∧ s'.offset = (s.rotate raw.length).offset)
    (hfree : p.holdsLock = false → s'.Below ((s.rotate raw.length).nextPos raw)) : s'.Laid := by
  obtain ⟨hcs, hl, hret⟩ := s.rotate_same raw.length
  have hap := h.apart_nextPos hlock raw
  rw [hcs] at hcallers
  rw [hret] at hreturned
  refine h.replace hcallers (fun q hq => hgrow q (below_rotate hq _))
    (Or.inl fun c' hc' => h.others hlock hc') (fun hp => (hheld hp).1.trans (hl.trans hlock))
    (fun raw' hr => ?_) (fun pos hp => ?_) fun q raw' hq => Or.inl (hreturned ▸ hq)
  · cases hpraw.symm.trans hr
    exact hraw
  · cases hpos.symm.trans hp
    refine ⟨fun raw' hr => ?_, fun hp => ⟨(hheld hp).2.1.symm, (hheld hp).2.2.symm⟩, hfree, hap.1,
      fun q raw' hq => hap.2 q raw' (hreturned ▸ hq)⟩
    cases hpraw.symm.trans hr
    exact mod_eq_of_lt hraw

section

variable (h : s.Sound)
include h

theorem sound_reserveFor {raw : Bytes} (hlock : s.lock = some c) (hraw : raw.length < 2 ^ 32) :
    (s.reserveFor c raw).Sound := by
  have hlaid : (s.reserveFor c raw).Laid := by
    refine h.laid.granted hlock hraw (p := .reserved ((s.rotate raw.length).nextPos raw) raw) rfl
      rfl rfl rfl (fun q hq => ?_) (fun hl => by cases hl) fun _ => Or.inr ⟨rfl, ?_⟩
    · unfold Below at hq ⊢
      show q.fileNum < (s.rotate raw.length).fileNum ∨ q.fileNum = (s.rotate raw.length).fileNum
        ∧ q.stop ≤ (s.rotate raw.length).offset + 4 + raw.length
      omega
    · exact Nat.add_le_add_left (Nat.mod_le _ _) _
  revert hlaid
  unfold reserveFor
  obtain ⟨fileNum, offset, heq⟩ := s.rotate_eq raw.length
  rw [heq]
  exact fun hlaid => h.of_caller hlaid id fun _ _ _ _ heq => by cases heq

theorem sound_reserve (c : Nat) : (s.reserve c).Sound := by
  have hlock : (s.callers c).holdsLock = true → s.lock = some c := h.laid.lock c
  have hfits := h.laid.fits c
  unfold reserve
  split
  · rename_i raw hc
    rw [hc] at hlock hfits
    have hlaid : Laid { s.rotate raw.length with
        callers := Function.update (s.rotate raw.length).callers c (.appending true
          ((s.rotate raw.length).nextPos raw) raw 0) } :=
      h.laid.granted (hlock rfl) (hfits raw rfl) rfl rfl rfl rfl
        (fun _ hq => hq) (fun _ => ⟨rfl, rfl, rfl⟩) fun hl => by cases hl
    revert hlaid
    obtain ⟨fileNum, offset, heq⟩ := s.rotate_eq raw.length
    rw [heq]
    refine fun hlaid => h.of_caller hlaid id fun _ _ _ _ heq => ?_
    cases heq
    rfl
  · rename_i raw hc
    rw [hc] at hlock hfits
    split
    · exact h
    · exact sound_reserveFor h (hlock rfl) (hfits raw rfl)
  · rename_i raw _ hc
    rw [hc] at hlock hfits
    exact sound_reserveFor h (hlock rfl) (hfits raw rfl)
  · exact h

/-- **A position is returned** once its record is in place. It is new to every
reader. -/
theorem Sound.returning {d : Bytes} (hlaid : s'.Laid) (horderly : s'.Orderly)
    (hpos : (s.callers c).pos? = some pos) (hlo : pos.offset ≤ (s.reach pos.fileNum).length)
    (hhi : (s.reach pos.fileNum).length + d.length ≤ pos.stop)
    (hself : s'.reach pos.fileNum = s.reach pos.fileNum ++ d)
    (hne : ∀ num, num ≠ pos.fileNum → s'.reach num = s.reach num) (hkept : Kept s s')
    (hstands : Stands (s'.reach pos.fileNum) pos.offset (blockRecord raw))
    (hreturned : s'.returned = (pos, raw) :: s.returned) (hfailed : s'.failed = s.failed)
    (hcallers : s'.callers = Function.update s.callers c .idle) (hreaders : s'.readers = s.readers)
    (htx : s'.writeTx = s.writeTx) : s'.Sound := by
  have hcase : ∀ {q raw'}, (q, raw') ∈ s'.returned →
      q = pos ∧ raw' = raw ∨ (q, raw') ∈ s.returned := fun hq => by
    rwa [hreturned, mem_cons, Prod.mk.injEq] at hq
  refine ⟨hlaid, ⟨fun q raw' hq => ?_, fun hf q raw' hq => ?_, fun c' locked q raw' w hc' => ?_⟩,
    horderly, h.served.of_step (fun hf => ⟨hfailed ▸ hf, hkept⟩) (fun hon => htx.trans hon) hreaders
      (fun q raw' hq => ?_) fun q raw₁ raw₂ hq hold => ?_⟩
  · rcases hcase hq with ⟨rfl, rfl⟩ | hold
    · exact hstands.agrees
    · exact (h.written.grow h.laid hpos hlo hhi hself hne hold).1
  · rcases hcase hq with ⟨rfl, rfl⟩ | hold
    · exact hstands
    · exact (h.written.grow h.laid hpos hlo hhi hself hne hold).2 (hfailed ▸ hf)
  · rw [hcallers] at hc'
    rcases appending_update (fun _ _ _ _ h => by cases h) c' locked q raw' w hc' with hold | rfl
    · exact (h.written.appended c' locked q raw' w hold).imp_right fun hs =>
        hs.mono (hkept.disk _)
    · exact ⟨zero_le _, stands_nil _ _⟩
  · rw [hreturned]
    exact mem_cons_of_mem _ hq
  · rcases hcase hq with ⟨rfl, -⟩ | hq
    · exact absurd ((h.laid.returned q raw₂ hold).2.2 c q hpos) q.not_apart_self
    · exact hq

theorem sound_handOver (hin : s.InTurn (.handOver c)) : (s.handOver c).Sound := by
  unfold InTurn at hin
  unfold handOver
  split
  · rename_i pos raw hc
    simp only [hc] at hin
    have hpos : (s.callers c).pos? = some pos := by rw [hc]; rfl
    have hraw : (s.callers c).raw? = some raw := by rw [hc]; rfl
    have hsize := h.laid.sized c pos raw hpos hraw
    have hb : s.Below pos := h.laid.below c pos (by rw [hc]; rfl) hpos
    split
    · rename_i hon
      have hreach := hin hon
      have hself := reach_send_block s pos.fileNum pos.fileNum (blockRecord raw)
      rw [if_pos rfl] at hself
      split
      · refine h.returning (d := blockRecord raw)
          (laid_returning h.laid hpos hraw rfl rfl (fun q hq => hq) hb (Or.inr ⟨rfl, rfl, rfl⟩))
          ((h.orderly.send hon (le_refl _) fun _ h => by cases h).congr rfl rfl rfl rfl rfl rfl)
          hpos hreach.ge ?_ hself (fun num hnum => ?_) (Kept.of_send rfl (cmds_send s _) rfl) ?_
          rfl rfl rfl rfl rfl
        · rw [length_blockRecord, BlockPos.stop]
          omega
        · exact (reach_send_block s pos.fileNum num _).trans
            (by rw [if_neg (Ne.symm hnum), append_nil])
        · show Stands ((s.send (.block pos.fileNum (blockRecord raw))).reach pos.fileNum) _ _
          rw [hself]
          exact stands_append_right hreach _
      · exact h
    · refine h.of_caller (h.laid.going hpos hraw rfl rfl rfl (fun hl => ?_) rfl) id
        fun _ _ _ _ heq => ?_
      · rw [hc]
        exact hl
      · cases heq
        rfl
  · exact h

theorem sound_append {k : Nat} (hin : s.InTurn (.append c k)) : (s.append c k).Sound := by
  unfold InTurn at hin
  unfold append
  split
  · rename_i locked pos raw written hc
    simp only [hc] at hin
    obtain ⟨hqueued, hlen⟩ := hin
    have hpos : (s.callers c).pos? = some pos := by rw [hc]; rfl
    have hraw : (s.callers c).raw? = some raw := by rw [hc]; rfl
    have hheld : (s.callers c).holdsLock = locked := by rw [hc]; rfl
    have hsize := h.laid.sized c pos raw hpos hraw
    obtain ⟨hw, hstood⟩ := h.written.appended c locked pos raw written hc
    rw [length_blockRecord] at hw
    generalize hd : ((blockRecord raw).drop written).take k = d
    have hdlen : d.length ≤ 4 + raw.length - written := by
      rw [← hd, length_take, length_drop, length_blockRecord]
      exact min_le_right _ _
    -- nothing is on its way to the file, so it ends where the record goes on
    have hreach : s.reach pos.fileNum = s.onDisk pos.fileNum :=
      (congrArg (s.onDisk pos.fileNum ++ ·) hqueued).trans (append_nil _)
    have hlo : pos.offset ≤ (s.reach pos.fileNum).length := by
      rw [hreach, hlen]
      exact le_add_right _ _
    have hhi : (s.reach pos.fileNum).length + d.length ≤ pos.stop := by
      rw [hreach, BlockPos.stop]
      omega
    have hself : (s.appendTo pos.fileNum d).reach pos.fileNum = s.reach pos.fileNum ++ d := by
      rw [reach_eq, onDisk_appendTo_self, hreach]
      exact (congrArg (_ ++ ·) hqueued).trans (append_nil _)
    have hne : ∀ num, num ≠ pos.fileNum → (s.appendTo pos.fileNum d).reach num = s.reach num :=
      fun num hnum => by
        rw [reach_eq, onDisk_appendTo_of_ne s hnum]
        rfl
    have hkept : Kept s (s.appendTo pos.fileNum d) := Kept.of_appendTo hqueued rfl rfl rfl
    have hcont : Stands ((s.appendTo pos.fileNum d).onDisk pos.fileNum) pos.offset
        ((blockRecord raw).take (written + k)) := by
      rw [onDisk_appendTo_self, take_add, hd]
      refine hstood.continue ?_ d
      rw [hlen, length_take, length_blockRecord, min_eq_left hw]
    split
    · rename_i hdone
      rw [take_of_length_le hdone] at hcont
      have hstands : Stands ((s.appendTo pos.fileNum d).reach pos.fileNum) pos.offset
          (blockRecord raw) := hcont.mono (prefix_append _ _)
      unfold finishAppend
      split
      · rename_i hl
        rw [hl] at hheld
        obtain ⟨hf, ho⟩ := h.laid.current c pos hheld hpos
        refine h.returning (laid_returning h.laid hpos hraw rfl rfl (fun q hq => ?_)
            (Or.inr ⟨hf, ?_⟩) (Or.inl fun c' hc' => h.laid.others (h.laid.lock c hheld) hc'))
          (h.orderly.congr rfl rfl rfl rfl rfl rfl) hpos hlo hhi hself hne
          (Kept.of_appendTo hqueued rfl rfl rfl) hstands rfl rfl rfl rfl rfl
        · unfold Below at hq ⊢
          show q.fileNum < s.fileNum ∨ q.fileNum = s.fileNum ∧ q.stop ≤ s.offset + 4 + raw.length
          omega
        · show pos.offset + 4 + pos.size ≤ s.offset + 4 + raw.length
          omega
      · rename_i hl
        rw [Bool.not_eq_true] at hl
        exact h.returning (laid_returning h.laid hpos hraw rfl rfl (fun q hq => hq)
            (h.laid.below c pos (hheld.trans hl) hpos) (Or.inr ⟨rfl, rfl, rfl⟩))
          (h.orderly.congr rfl rfl rfl rfl rfl rfl) hpos hlo hhi hself hne
          (Kept.of_appendTo hqueued rfl rfl rfl) hstands rfl rfl rfl rfl rfl
    · rename_i hmore
      refine ⟨h.laid.going hpos hraw rfl rfl rfl (fun hl => hheld.trans hl) rfl,
        ⟨fun q raw' hq => ?_, fun hf q raw' hq => ?_, fun c' locked' q raw' w hc' => ?_⟩,
        h.orderly.congr rfl rfl rfl rfl rfl rfl,
        h.served.of_step (s := s) (fun hf => ⟨hf, .of_appendTo hqueued rfl rfl rfl⟩) id rfl
          (fun _ _ hq => hq) fun _ _ _ hq _ => hq⟩
      · exact (h.written.grow h.laid hpos hlo hhi hself hne hq).1
      · exact (h.written.grow h.laid hpos hlo hhi hself hne hq).2 hf
      · change Function.update s.callers c _ c' = _ at hc'
        rcases eq_or_ne c' c with rfl | hc''
        · rw [update_self] at hc'
          cases hc'
          exact ⟨Nat.le_of_not_le hmore, hcont⟩
        · rw [update_of_ne hc''] at hc'
          exact (h.written.appended c' locked' q raw' w hc').imp_right fun hs =>
            hs.mono (hkept.disk _)
  · exact h

theorem sound_appendFails (c : Nat) : (s.appendFails c).Sound := by
  unfold appendFails
  split
  · rename_i locked pos raw written hc
    have hheld : (s.callers c).holdsLock = locked := by rw [hc]; rfl
    refine h.of_caller (h.laid.replace (c := c) (p := .idle) rfl (fun q hq => hq) ?_
      (fun hl => by cases hl) (fun raw' hr => by cases hr) (fun pos' hp => by cases hp)
      fun q raw' hq => Or.inl hq) (fun hf => by cases hf) fun _ _ _ _ heq => by cases heq
    cases locked with
    | true => exact Or.inl fun c' hc' => h.laid.others (h.laid.lock c hheld) hc'
    | false => exact Or.inr ⟨rfl, rfl, rfl⟩
  · exact h

/-- The writer moves bytes: what each file is going to be stays as it is. -/
theorem Sound.of_writer (hby : ByWriter s s') (horderly : s'.Orderly) (hkept : Kept s s')
    (hreach : ∀ num, s'.reach num = s.reach num) : s'.Sound := by
  refine h.of_cut (h.laid.congr hby.toSameCallers) horderly hby.readers hby.returned hkept.disk
    (fun num => ?_) (fun hf => ⟨hby.failed hf, hkept, hreach⟩) (fun hon => hby.writeTx.trans hon)
    fun c locked p raw w hc => Or.inl (hby.callers ▸ hc)
  rw [hreach]

/-- The writer has the same still to do. -/
theorem Sound.of_cmds_eq (hby : ByWriter s s') (hcmds : s'.cmds = s.cmds)
    (hfiles : s'.files = s.files) (hacked : s'.acked = s.acked) (hnext : s'.nextAck = s.nextAck)
    (hbatch : ∀ num data, s'.writer = .batching num data → s'.carry = none) : s'.Sound := by
  refine h.of_writer hby (h.orderly.of_sublist hby.writeTx (fun h0 => hcmds.trans h0)
    (fun ack hack => hcmds ▸ hack) hbatch hacked hnext) (Kept.of_eq hfiles hcmds hacked)
    fun num => ?_
  rw [reach_eq, reach_eq, hcmds, onDisk, onDisk, hfiles]

theorem sound_take : s.take.Sound := by
  rcases take_cases s with heq | ⟨hidle, cmd, queue, hcmds, heq⟩
  · rw [heq]
    exact h
  rw [heq]
  cases cmd with
  | block num data =>
    exact h.of_cmds_eq ⟨⟨rfl, rfl, rfl, rfl, rfl⟩, rfl, rfl, id⟩ hcmds.symm rfl rfl rfl
      fun _ _ _ => rfl
  | flush ack =>
    have hrest : ({ s with carry := none, queue := queue }.process (.flush ack)).cmds = queue := by
      simp only [hidle]
      rfl
    have hreach : ∀ num, ({ s with carry := none, queue := queue }.process (.flush ack)).reach num
        = s.reach num := fun num => by
      rw [reach_eq, reach_eq, hrest, hcmds]
      rfl
    refine h.of_writer ⟨⟨rfl, rfl, rfl, rfl, rfl⟩, rfl, rfl, id⟩
      ⟨fun hoff => ?_, fun num data hw => ?_, fun ack' hack => h.orderly.fresh ack' ?_⟩
      ⟨fun num => prefix_refl _, fun num => ?_, fun ack' hack' => ?_,
        fun ack' hack' hno num => ?_⟩ hreach
    · cases hcmds.symm.trans (h.orderly.off hoff)
    · cases hidle.symm.trans hw
    · rw [hcmds]
      rw [hrest] at hack
      rcases hack with hmem | hmem
      · exact Or.inl (mem_cons_of_mem _ hmem)
      · rcases mem_cons.mp hmem with rfl | hold
        · exact Or.inl mem_cons_self
        · exact Or.inr hold
    · rw [hreach]
    · have hne : ack' ≠ ack := fun heq => hack' (heq ▸ mem_cons_self)
      refine ⟨fun hmem => hack' (mem_cons_of_mem _ hmem), fun hmem => ?_⟩
      rw [hcmds, mem_cons, WriteCmd.flush.injEq] at hmem
      refine ⟨by rw [hrest]; exact hmem.resolve_left hne, fun num => ?_⟩
      rw [hrest, hcmds, aheadOf_cons_of_ne (by rw [Ne, WriteCmd.flush.injEq]; exact Ne.symm hne)]
      exact prefix_refl _
    · rcases mem_cons.mp hack' with rfl | hold
      · rw [hcmds, aheadOf_flush_self, bytesFor_nil, append_nil]
        exact prefix_refl _
      · exact absurd hold hno

theorem sound_poll : s.poll.Sound := by
  unfold poll
  split
  · rename_i num data hwriter
    have hcarry := h.orderly.batch num data hwriter
    have hcmds : s.cmds = .block num data :: s.queue := by
      unfold cmds inHand
      rw [hwriter, hcarry]
      rfl
    split
    · refine h.of_cmds_eq ⟨⟨rfl, rfl, rfl, rfl, rfl⟩, rfl, rfl, id⟩ ?_ rfl rfl rfl
        fun _ _ hw => by cases hw
      unfold cmds inHand
      rw [hwriter]
    · rename_i num' data' queue hqueue
      rw [hqueue] at hcmds
      split
      · rename_i heq
        rw [heq] at hcmds
        -- two neighbours become one record
        have hnew : { s with queue := queue, writer := .batching num (data ++ data') }.cmds
            = .block num (data ++ data') :: queue := by
          simp only [hcarry]
          rfl
        have hbytes : ∀ n (as : List WriteCmd), bytesFor n (.block num (data ++ data') :: as)
              = bytesFor n (.block num data :: .block num data' :: as) := fun n as => by
          simp only [bytesFor_cons, WriteCmd.bytesFor]
          split <;> simp only [append_assoc, nil_append]
        have hreach : ∀ n,
            { s with queue := queue, writer := .batching num (data ++ data') }.reach n
              = s.reach n := fun n => by
          rw [reach_eq, reach_eq, hnew, hcmds, hbytes]
          rfl
        refine h.of_writer ⟨⟨rfl, rfl, rfl, rfl, rfl⟩, rfl, rfl, id⟩
          (h.orderly.of_sublist rfl (fun h0 => ?_) (fun ack hack => ?_) (fun _ _ _ => hcarry) rfl
            rfl)
          (Kept.of_moved (fun _ => prefix_refl _) rfl (fun ack hack => ?_)
            (fun ack n => ?_) hreach) hreach
        · rw [hcmds] at h0
          cases h0
        · rw [hnew] at hack
          simpa [hcmds] using hack
        · rw [hcmds] at hack
          simpa [hnew] using hack
        · rw [hnew, hcmds, aheadOf_block, hbytes]
          rfl
      · exact h.of_cmds_eq ⟨⟨rfl, rfl, rfl, rfl, rfl⟩, rfl, rfl, id⟩ hcmds.symm rfl rfl rfl
          fun _ _ hw => by cases hw
    · rename_i ack queue hqueue
      rw [hqueue] at hcmds
      exact h.of_cmds_eq ⟨⟨rfl, rfl, rfl, rfl, rfl⟩, rfl, rfl, id⟩ hcmds.symm rfl rfl rfl
        fun _ _ hw => by cases hw
  · exact h

theorem sound_write (k : Nat) : (s.write k).Sound := by
  unfold write
  split
  · rename_i num data hwriter
    have hcmds := cmds_of_writing hwriter
    generalize hs' : (if data.length ≤ k then { s.appendTo num (data.take k) with writer := .idle }
      else { s.appendTo num (data.take k) with writer := .writing num (data.drop k) }) = s'
    have hfiles : ∀ n, s'.onDisk n = (s.appendTo num (data.take k)).onDisk n := fun n => by
      rw [← hs']
      split <;> rfl
    obtain ⟨hby, hacked, hnext, hbatch⟩ : ByWriter s s' ∧ s'.acked = s.acked
        ∧ s'.nextAck = s.nextAck ∧ ∀ num data, s'.writer ≠ .batching num data := by
      rw [← hs']
      split <;>
        exact ⟨⟨⟨rfl, rfl, rfl, rfl, rfl⟩, rfl, rfl, id⟩, rfl, rfl, fun _ _ hw => by cases hw⟩
    have hnew : s'.cmds = s.carry.toList ++ s.queue ∧ data.take k = data
        ∨ s'.cmds = .block num (data.drop k) :: (s.carry.toList ++ s.queue) := by
      rw [← hs']
      split
      · rename_i hk
        exact Or.inl ⟨rfl, take_of_length_le hk⟩
      · exact Or.inr rfl
    have hflush : ∀ ack, .flush ack ∈ s'.cmds ↔ .flush ack ∈ s.cmds := fun ack => by
      rcases hnew with ⟨heq, -⟩ | heq <;> simp [heq, hcmds]
    have hmoved : ∀ n (as bs : List WriteCmd),
        (as = bs ∧ data.take k = data ∨ as = .block num (data.drop k) :: bs) →
        s'.onDisk n ++ bytesFor n as = s.onDisk n ++ bytesFor n (.block num data :: bs) := by
      intro n as bs has
      rw [hfiles, bytesFor_cons]
      rcases eq_or_ne n num with rfl | hn
      · rw [onDisk_appendTo_self, WriteCmd.bytesFor, if_pos rfl, append_assoc]
        congr 1
        rcases has with ⟨rfl, htake⟩ | rfl
        · rw [htake]
        · rw [bytesFor_cons, WriteCmd.bytesFor, if_pos rfl, ← append_assoc, take_append_drop]
      · rw [onDisk_appendTo_of_ne s hn, WriteCmd.bytesFor, if_neg (Ne.symm hn)]
        rcases has with ⟨rfl, -⟩ | rfl
        · rfl
        · rw [bytesFor_cons, WriteCmd.bytesFor, if_neg (Ne.symm hn)]
    have hreach : ∀ n, s'.reach n = s.reach n := fun n => by
      rw [reach_eq, reach_eq, hcmds]
      exact hmoved n _ _ hnew
    refine h.of_writer hby (h.orderly.of_sublist hby.writeTx (fun h0 => ?_)
      (fun ack hack => (hflush ack).mp hack) (fun _ _ hw => absurd hw (hbatch _ _)) hacked hnext)
      (Kept.of_moved (fun n => ?_) hacked (fun ack hack => (hflush ack).mpr hack)
        (fun ack n => ?_) hreach) hreach
    · rw [hcmds] at h0
      cases h0
    · rw [hfiles]
      rcases eq_or_ne n num with rfl | hn
      · rw [onDisk_appendTo_self]
        exact prefix_append _ _
      · rw [onDisk_appendTo_of_ne s hn]
    · rw [hcmds, aheadOf_block]
      refine hmoved n _ _ (hnew.imp (fun h => ⟨by rw [h.1], h.2⟩) fun h => ?_)
      rw [h, aheadOf_block]
  · exact h

/-- **A failed write cuts the file off**, if nothing else was on its way to it. -/
theorem sound_writeFails (hin : s.InTurn .writeFails) : s.writeFails.Sound := by
  unfold InTurn at hin
  unfold writeFails
  split
  · rename_i num data hwriter
    simp only [hwriter] at hin
    have hcmds := cmds_of_writing hwriter
    refine h.of_cut (h.laid.congr ⟨rfl, rfl, rfl, rfl, rfl⟩)
      (h.orderly.of_sublist rfl (fun h0 => ?_) (fun ack hack => ?_) (fun _ _ hw => by cases hw)
        rfl rfl) rfl rfl (fun _ => prefix_refl _) (fun num' => ?_) (fun hf => by cases hf) id
      fun _ _ _ _ _ hc => Or.inl hc
    · rw [hcmds] at h0
      cases h0
    · rw [hcmds]
      exact mem_cons_of_mem _ hack
    · rw [reach_eq, reach_eq, hcmds, bytesFor_cons]
      show s.onDisk num' ++ bytesFor num' (s.carry.toList ++ s.queue) <+: _
      rcases eq_or_ne num num' with rfl | hne
      · rw [hin, append_nil]
        exact prefix_append _ _
      · rw [WriteCmd.bytesFor, if_neg hne, nil_append]
  · exact h

theorem sound_startBackgroundWriter : { s with writeTx := true }.Sound := by
  refine h.of_cut (h.laid.congr ⟨rfl, rfl, rfl, rfl, rfl⟩)
    ⟨fun hoff => (by cases hoff), h.orderly.batch, h.orderly.fresh⟩ rfl rfl
    (fun _ => prefix_refl _) (fun _ => prefix_refl _)
    (fun hf => ⟨hf, Kept.of_eq rfl rfl rfl, fun _ => rfl⟩) (fun _ => rfl)
    fun _ _ _ _ _ hc => Or.inl hc

theorem sound_readBlock (r : Nat) (pos : BlockPos) : (s.readBlock r pos).Sound := by
  unfold readBlock
  split
  · split
    · rename_i hmem
      obtain ⟨entry, hentry, rfl⟩ := mem_map.mp hmem
      refine h.setReader (fun pos' hp => ?_) trivial
      cases hp
      exact ⟨entry.2, hentry⟩
    · exact h
  · exact h

/-- The phase of a reader that goes on with the same position. -/
theorem Sound.known (hp : (s.readers r).pos? = p.pos?) (pos' : BlockPos)
    (hpos' : p.pos? = some pos') : ∃ raw, (pos', raw) ∈ s.returned :=
  h.served.known r pos' (hp.trans hpos')

/-- The position of an attempt, and what its second try relies on. -/
theorem Sound.trying (hr : s.readers r = .header pos first ∨ s.readers r = .body pos first) :
    (s.readers r).pos? = some pos ∧ ∀ e, first = some e → s.failed = false → s.Ready pos := by
  have hfine := h.served.fine r
  rcases hr with hr | hr <;>
  · rw [hr] at hfine ⊢
    refine ⟨rfl, fun e hfirst => ?_⟩
    subst hfirst
    exact hfine

end

theorem Attempt.sound {out : SharedBlocks × Option BlockAnswer} (ha : s.Attempt r out)
    (h : s.Sound) : out.1.Sound := by
  cases ha with
  | none => exact h
  | @size pos first hr =>
    have hready := (h.trying (Or.inl hr)).2
    refine h.setReader (h.known (r := r) (by rw [hr]; rfl)) ?_
    cases first with
    | none => trivial
    | some e => exact hready e rfl
  | block hr hread => exact h.setReader (fun pos' hp => by cases hp) trivial
  | fails e hr hno => exact h.attemptFails (h.trying hr).1 hno e

/-- **A reader waits for everything that is queued**, its own record
included. -/
theorem sound_flush (h : s.Sound) (r : Nat) : (s.flush r).Sound := by
  unfold flush
  split
  · rename_i pos e hr
    have hknown : ∀ {p : BlockReaderPhase}, p.pos? = some pos → ∀ pos', p.pos? = some pos' →
        ∃ raw, (pos', raw) ∈ s.returned := fun hp =>
      h.known (r := r) (by rw [hr, hp]; rfl)
    split
    · rename_i hon
      split
      · refine (h.sendFlush hon).setReader (hknown rfl) fun hf => ?_
        -- the acknowledgement has not been asked for before
        have hnew := fun hack => lt_irrefl _ (h.orderly.fresh s.nextAck hack)
        refine ⟨fun hack => absurd (Or.inr hack) hnew, fun _ => ⟨?_, fun raw hraw => ?_⟩⟩
        · rw [cmds_sendFlush]
          exact mem_append_right _ (mem_singleton_self _)
        · rw [cmds_sendFlush, aheadOf_append_flush fun hcmd => hnew (Or.inl hcmd)]
          exact h.written.stands hf pos raw hraw
      · exact h
    · rename_i hoff
      rw [Bool.not_eq_true] at hoff
      exact h.setReader (hknown rfl) fun hf => h.ready_of_off hoff hf pos
  · exact h

theorem sound_flushFails (h : s.Sound) (r : Nat) : (s.flushFails r).1.Sound := by
  unfold flushFails
  split
  · split
    · exact h
    · exact h.setReader (fun pos' hp => by cases hp) trivial
  · exact h

theorem sound_acknowledged (h : s.Sound) (r : Nat) : (s.acknowledged r).Sound := by
  unfold acknowledged
  split
  · rename_i pos e ack hr
    have hfine := h.served.fine r
    rw [hr] at hfine
    split
    · rename_i hack
      exact h.setReader (h.known (r := r) (by rw [hr]; rfl)) fun hf => (hfine hf).1 hack
    · exact h
  · exact h

theorem sound_step (h : s.Sound) (hin : s.InTurn e) : (s.step e).1.Sound := by
  cases e with
  | startBackgroundWriter => exact sound_startBackgroundWriter h
  | storeBlock c raw =>
    refine sound_lockFor h c rfl fun raw' hr => ?_
    cases hr
    exact hin
  | storeBlockAsync c raw =>
    refine sound_lockFor h c rfl fun raw' hr => ?_
    cases hr
    exact hin
  | sendRotateFlush c => exact sound_sendRotateFlush h c
  | reserve c => exact sound_reserve h c
  | handOver c => exact sound_handOver h hin
  | append c k => exact sound_append h hin
  | appendFails c => exact sound_appendFails h c
  | take => exact sound_take h
  | poll => exact sound_poll h
  | write k => exact sound_write h k
  | writeFails => exact sound_writeFails h hin
  | readBlock r pos => exact sound_readBlock h r pos
  | readHeader r => exact (s.attempt_readHeader r).sound h
  | readBody r => exact (s.attempt_readBody r).sound h
  | flush r => exact sound_flush h r
  | flushFails r => exact sound_flushFails h r
  | acknowledged r => exact sound_acknowledged h r
  | timesOut r => exact hin.elim

theorem sound_run (h : s.Sound) {events : List BlockEvent} (hin : s.AllInTurn events) :
    (s.run events).Sound := by
  induction events generalizing s with
  | nil => exact h
  | cons e events ih => exact ih (sound_step h hin.1) hin.2

/-! ## Answers -/

/-- **An attempt ends a read with the block**, or with an error where the record
is missing, which takes a failed write. -/
theorem Attempt.answersRight {out : SharedBlocks × Option BlockAnswer} (ha : s.Attempt r out)
    (h : s.Sound) {pos : BlockPos} {answer : Except StorageError Bytes}
    (hans : out.2 = some (pos, answer)) {raw : Bytes} (hraw : (pos, raw) ∈ s.returned) :
    (∀ data, answer = .ok data → data = raw) ∧ (s.failed = false → answer = .ok raw) := by
  cases ha with
  | none => cases hans
  | size hr => cases hans
  | @block pos first data hr hread =>
    obtain ⟨rfl, rfl⟩ := Prod.mk.inj (Option.some.inj hans)
    -- what is in the file at this place is the record
    have hagrees : Agrees (s.onDisk pos.fileNum) pos.offset (blockRecord raw) :=
      (h.written.agrees pos raw hraw).cut (prefix_append _ _)
    have hdata : data = raw := by
      rw [(h.laid.returned pos raw hraw).1.1] at hread
      rw [hagrees.readExact_eq (by rw [length_blockRecord]) hread, blockRecord,
        drop_left' (length_leBytes 4 _), take_length]
    exact ⟨fun data' heq => (Except.ok.inj heq).symm.trans hdata, fun _ => congrArg Except.ok hdata⟩
  | @fails pos first e hr hno =>
    obtain ⟨hpos, hready⟩ := h.trying hr
    cases first with
    | none => cases hans
    | some e₀ =>
      obtain ⟨-, rfl⟩ := Prod.mk.inj (Option.some.inj hans)
      exact ⟨fun data heq => (by cases heq),
        fun hf => absurd (hready e₀ rfl hf) (h.not_ready hpos hno)⟩

/-- **Every answer is right** in a state that a schedule in turn reaches. -/
theorem Sound.answersRight (h : s.Sound) (e : BlockEvent) : s.AnswersRight e := by
  intro pos answer hans raw hraw
  cases e with
  | readHeader r => exact (s.attempt_readHeader r).answersRight h hans hraw
  | readBody r => exact (s.attempt_readBody r).answersRight h hans hraw
  | flushFails r =>
    change (s.flushFails r).2 = _ at hans
    unfold flushFails at hans
    split at hans
    · rename_i pos' e hr
      have hfine := h.served.fine r
      rw [hr] at hfine
      split at hans
      · cases hans
      · rename_i hoff
        obtain ⟨-, rfl⟩ := Prod.mk.inj (Option.some.inj hans)
        refine ⟨fun data heq => (by cases heq), fun hf => ?_⟩
        rcases hfine with hon | hfailed
        · exact absurd hon hoff
        · rw [hf] at hfailed
          cases hfailed
    · cases hans
  | _ => cases hans

/-- **Read your writes, in turn**: in every schedule whose steps are all in
turn, with any number of callers and readers, a read at a position that a store
call has returned gives no other bytes than the block stored there, and gives
the block if no write has failed. -/
theorem read_your_writes (dir : List (Nat × Bytes)) (maxFileSize : Nat) (events : List BlockEvent)
    (h : (openWithMaxFileSize dir maxFileSize).AllInTurn events) (e : BlockEvent) :
    ((openWithMaxFileSize dir maxFileSize).run events).AnswersRight e :=
  (sound_run (sound_open dir maxFileSize) h).answersRight e

/-- Two blocks are stored one after the other, and the first is read before
anything is in the file: the read fails, waits and reads again. -/
def earlyRead : List BlockEvent :=
  [.startBackgroundWriter, .storeBlockAsync 0 [1], .reserve 0, .handOver 0, .storeBlockAsync 1 [2],
    .reserve 1, .handOver 1, .readBlock 0 ⟨0, 0, 1⟩, .readHeader 0, .flush 0, .take, .poll, .poll,
    .write 3, .write 100, .take, .acknowledged 0, .readHeader 0]

theorem read_your_writes_earlyRead :
    ((openWithMaxFileSize [] 100).run earlyRead).AnswersRight (.readBody 0)
      ∧ (((openWithMaxFileSize [] 100).run earlyRead).step (.readBody 0)).2
        = some (⟨0, 0, 1⟩, .ok [1]) :=
  ⟨read_your_writes [] 100 earlyRead
      ⟨trivial, by show 1 < 2 ^ 32; decide, trivial, fun _ => rfl, by show 1 < 2 ^ 32; decide,
        trivial, fun _ => rfl, trivial, trivial, trivial, trivial, trivial, trivial, trivial,
        trivial, trivial, trivial, trivial, trivial⟩ (.readBody 0), rfl⟩

/-- Reads give back what was stored, in every schedule. -/
def ReadYourWrites : Prop :=
  ∀ (dir : List (Nat × Bytes)) (maxFileSize : Nat) (events : List BlockEvent) (e : BlockEvent),
    ((openWithMaxFileSize dir maxFileSize).run events).AnswersRight e

/-- Two callers reserve one after the other and send their records the other way
round. -/
def swappedSends : List BlockEvent :=
  [.startBackgroundWriter, .storeBlockAsync 0 [1], .reserve 0, .storeBlockAsync 1 [2], .reserve 1,
    .handOver 1, .handOver 0, .take, .poll, .poll, .write 100, .readBlock 0 ⟨0, 0, 1⟩,
    .readHeader 0]

/-- **Each caller reads the other's block**: the lock is released between the
reservation and the queue. -/
theorem not_readYourWrites : ¬ ReadYourWrites := by
  intro h
  have hread := (h [] 100 swappedSends (.readBody 0) ⟨0, 0, 1⟩ (.ok [2]) rfl [1]
    (by show _ ∈ [_, _]; exact mem_cons_self)).1 [2] rfl
  exact absurd hread (by decide)

-- one caller alone, and the first of its two writes fails
example :
    (((openWithMaxFileSize [] 100).run
        [.startBackgroundWriter, .storeBlockAsync 0 [1], .reserve 0, .handOver 0, .take, .poll,
          .writeFails, .storeBlockAsync 0 [2], .reserve 0, .handOver 0, .take, .poll, .write 100,
          .readBlock 0 ⟨0, 0, 1⟩, .readHeader 0]).step (.readBody 0)).2
      = some (⟨0, 0, 1⟩, .ok [2]) := rfl

end SharedBlocks
