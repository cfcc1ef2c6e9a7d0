import BitcoinPR.Lib.Places
import BitcoinPR.Storage.BlockStore

/-!
# Block files and their writers

The bytes behind a `BlockPos`. A block is stored as a record, four bytes of size
and the block, and there are two ways to store one. `store_block` keeps the
current file locked while it appends the record. `store_block_async` keeps it
locked only while it *reserves* a position; the record goes to a background
writer through a queue, after the lock has been released. The writer takes
records off the queue in order, joins those for one file into one write, and
carries on when a write fails. A read that fails asks the writer to drain its
queue and tries once more.

None of this is atomic. `SharedBlocks` is the whole of it, with any number of
callers, any number of readers and the writer, each in one of its phases, and
`step` is what one of them does between two points at which another may come in:
taking or releasing the lock, sending or receiving a command, a part of a write
reaching the file, one of the two reads of a record. A step of somebody who is
not in the phase for it changes nothing, so that every list of events is a
schedule.

Files are neither deleted nor replaced here, so a handle kept open is the file.
Syncing a file has no effect on what is read from it and is left out; waiting
for it is not.
-/

open Places

/-- What is sent to the background writer. -/
inductive WriteCmd where
  | block (fileNum : Nat) (data : Bytes)
  /-- Drain the queue and acknowledge. -/
  | flush (ack : Nat)
deriving DecidableEq, Repr

/-- Where the background writer is: it has a batch that still grows, or one that
it is writing. -/
inductive WriterPhase where
  | idle
  | batching (fileNum : Nat) (data : Bytes)
  | writing (fileNum : Nat) (data : Bytes)
deriving DecidableEq, Repr

/-- Where a caller of one of the two store functions is. -/
inductive CallerPhase where
  | idle
  /-- `store_block` has the lock. -/
  | storing (raw : Bytes)
  /-- `store_block_async` has the lock. -/
  | storingAsync (raw : Bytes)
  /-- It has asked the writer to drain the file it rotates away from. -/
  | rotating (raw : Bytes) (ack : Nat)
  /-- It has released the lock and has a position. -/
  | reserved (pos : BlockPos) (raw : Bytes)
  /-- So many bytes of the record have been appended to the file: under the
  lock by `store_block`, without it by `store_block_async` when there is no
  writer. -/
  | appending (locked : Bool) (pos : BlockPos) (raw : Bytes) (written : Nat)
deriving DecidableEq, Repr

/-- The caller has the lock. -/
def CallerPhase.holdsLock : CallerPhase → Bool
  | storing _ | storingAsync _ | rotating _ _ => true
  | appending locked _ _ _ => locked
  | _ => false

/-- The block that is being stored. -/
def CallerPhase.raw? : CallerPhase → Option Bytes
  | idle => none
  | storing raw | storingAsync raw | rotating raw _ | reserved _ raw | appending _ _ raw _ =>
    some raw

/-- The position the block is going to have. -/
def CallerPhase.pos? : CallerPhase → Option BlockPos
  | reserved pos _ | appending _ pos _ _ => some pos
  | _ => none

/-- Where a reader is. In a second attempt it remembers the error of the
first. -/
inductive BlockReaderPhase where
  | idle
  /-- About to read the size. -/
  | header (pos : BlockPos) (first : Option StorageError)
  /-- About to read the block. -/
  | body (pos : BlockPos) (first : Option StorageError)
  /-- The first attempt has failed. -/
  | draining (pos : BlockPos) (first : StorageError)
  /-- Waiting for the writer's acknowledgement. -/
  | waiting (pos : BlockPos) (first : StorageError) (ack : Nat)
deriving DecidableEq, Repr

/-- The position that is being read. -/
def BlockReaderPhase.pos? : BlockReaderPhase → Option BlockPos
  | idle => none
  | header pos _ | body pos _ | draining pos _ | waiting pos _ _ => some pos

/-- A stored block: four bytes of size, then the block. -/
def blockRecord (raw : Bytes) : Bytes := leBytes 4 raw.length ++ raw

@[simp] theorem length_blockRecord (raw : Bytes) :
    (blockRecord raw).length = 4 + raw.length := by
  rw [blockRecord, List.length_append, length_leBytes]

/-- The block files, the current file and its lock, the background writer and
its queue, the callers and the readers. -/
structure SharedBlocks where
  maxFileSize : Nat
  files : Nat → Option Bytes
  fileNum : Nat
  offset : Nat
  lock : Option Nat
  /-- A background writer has been started. -/
  writeTx : Bool
  queue : List WriteCmd
  /-- A command taken off the queue that did not fit the batch. -/
  carry : Option WriteCmd
  writer : WriterPhase
  acked : List Nat
  nextAck : Nat
  callers : Nat → CallerPhase
  readers : Nat → BlockReaderPhase
  /-- The positions that store calls have returned, with the blocks stored. -/
  returned : List (BlockPos × Bytes)
  /-- Some write has failed. -/
  failed : Bool

/-- Commands the queue has room for. -/
def writeQueueBound : Nat := 256

/-- What a read that ends returns, with the position it was for. -/
abbrev BlockAnswer := BlockPos × Except StorageError Bytes

/-- One atomic step of a caller, of the writer or of a reader. -/
inductive BlockEvent where
  | startBackgroundWriter
  | storeBlock (c : Nat) (raw : Bytes)
  | storeBlockAsync (c : Nat) (raw : Bytes)
  | sendRotateFlush (c : Nat)
  | reserve (c : Nat)
  | handOver (c : Nat)
  | append (c : Nat) (k : Nat)
  | appendFails (c : Nat)
  | take
  | poll
  | write (k : Nat)
  | writeFails
  | readBlock (r : Nat) (pos : BlockPos)
  | readHeader (r : Nat)
  | readBody (r : Nat)
  | flush (r : Nat)
  | flushFails (r : Nat)
  | acknowledged (r : Nat)
  | timesOut (r : Nat)
deriving DecidableEq, Repr

namespace SharedBlocks

/-- Open the store over the files found in the directory: append to the one of
the highest number, or begin the next if it is full. -/
def openWithMaxFileSize (dir : List (Nat × Bytes)) (maxFileSize : Nat) : SharedBlocks :=
  let latest : Nat × Nat :=
    match (dir.map Prod.fst).max? with
    | none => (0, 0)
    | some num =>
      let size := ((dir.lookup num).getD []).length
      if size < maxFileSize then (num, size) else (num + 1, 0)
  { maxFileSize := maxFileSize
    files := fun num => dir.lookup num
    fileNum := latest.1
    offset := latest.2
    lock := none
    writeTx := false
    queue := []
    carry := none
    writer := .idle
    acked := []
    nextAck := 0
    callers := fun _ => .idle
    readers := fun _ => .idle
    returned := []
    failed := false }

/-- The bytes of a file, none if there is no such file. -/
def onDisk (s : SharedBlocks) (num : Nat) : Bytes := (s.files num).getD []

/-- Append to a file, creating it if there is none. -/
def appendTo (s : SharedBlocks) (num : Nat) (bytes : Bytes) : SharedBlocks :=
  { s with files := Function.update s.files num (some (s.onDisk num ++ bytes)) }

def setCaller (s : SharedBlocks) (c : Nat) (p : CallerPhase) : SharedBlocks :=
  { s with callers := Function.update s.callers c p }

def setReader (s : SharedBlocks) (r : Nat) (p : BlockReaderPhase) : SharedBlocks :=
  { s with readers := Function.update s.readers r p }

/-- Send a command to the writer. -/
def send (s : SharedBlocks) (cmd : WriteCmd) : SharedBlocks :=
  { s with queue := s.queue ++ [cmd] }

/-- Ask the writer to drain the queue, with an acknowledgement of its own. -/
def sendFlush (s : SharedBlocks) : SharedBlocks :=
  { s.send (.flush s.nextAck) with nextAck := s.nextAck + 1 }

/-! ## Storing -/

/-- A block of this length goes to the next file. -/
def needsRotation (s : SharedBlocks) (len : Nat) : Bool :=
  decide (0 < s.offset ∧ s.maxFileSize < s.offset + len)

/-- Begin a new file if a block of this length does not fit. -/
def rotate (s : SharedBlocks) (len : Nat) : SharedBlocks :=
  if s.needsRotation len then { s with fileNum := s.fileNum + 1, offset := 0 } else s

/-- The position of a block stored now. -/
def nextPos (s : SharedBlocks) (raw : Bytes) : BlockPos :=
  ⟨s.fileNum, s.offset, raw.length % 2 ^ 32⟩

/-- A store function asks for the lock of the current file. -/
def lockFor (s : SharedBlocks) (c : Nat) (p : CallerPhase) : SharedBlocks :=
  match s.callers c, s.lock with
  | .idle, none => { s with lock := some c }.setCaller c p
  | _, _ => s

/-- Before it rotates, `store_block_async` asks a running writer to drain the
queue. -/
def sendRotateFlush (s : SharedBlocks) (c : Nat) : SharedBlocks :=
  match s.callers c with
  | .storingAsync raw =>
    if s.writeTx = true ∧ s.needsRotation raw.length = true ∧ s.queue.length < writeQueueBound then
      s.sendFlush.setCaller c (.rotating raw s.nextAck)
    else s
  | _ => s

/-- Reserve a position and release the lock. -/
def reserveFor (s : SharedBlocks) (c : Nat) (raw : Bytes) : SharedBlocks :=
  let s := s.rotate raw.length
  { s with offset := s.offset + 4 + raw.length, lock := none }.setCaller c
    (.reserved (s.nextPos raw) raw)

/-- Rotate if need be and fix the position. The wait for the drained queue is a
bounded one, so it may be over at any time. -/
def reserve (s : SharedBlocks) (c : Nat) : SharedBlocks :=
  match s.callers c with
  | .storing raw =>
    let s := s.rotate raw.length
    s.setCaller c (.appending true (s.nextPos raw) raw 0)
  | .storingAsync raw =>
    if s.writeTx = true ∧ s.needsRotation raw.length = true then s else s.reserveFor c raw
  | .rotating raw _ => s.reserveFor c raw
  | _ => s

/-- The store call returns a position. -/
def returning (s : SharedBlocks) (c : Nat) (pos : BlockPos) (raw : Bytes) : SharedBlocks :=
  { s with returned := (pos, raw) :: s.returned }.setCaller c .idle

/-- `store_block_async` sends its record to the writer, or appends it itself if
there is none. -/
def handOver (s : SharedBlocks) (c : Nat) : SharedBlocks :=
  match s.callers c with
  | .reserved pos raw =>
    if s.writeTx then
      if s.queue.length < writeQueueBound then
        (s.send (.block pos.fileNum (blockRecord raw))).returning c pos raw
      else s
    else s.setCaller c (.appending false pos raw 0)
  | _ => s

/-- The record has been appended: under the lock, the offset is advanced only
now. -/
def finishAppend (s : SharedBlocks) (c : Nat) (locked : Bool) (pos : BlockPos) (raw : Bytes) :
    SharedBlocks :=
  if locked then { s with offset := s.offset + 4 + raw.length, lock := none }.returning c pos raw
  else s.returning c pos raw

/-- At most `k` more bytes of a record reach the file. -/
def append (s : SharedBlocks) (c k : Nat) : SharedBlocks :=
  match s.callers c with
  | .appending locked pos raw written =>
    let s := s.appendTo pos.fileNum (((blockRecord raw).drop written).take k)
    if (blockRecord raw).length ≤ written + k then s.finishAppend c locked pos raw
    else s.setCaller c (.appending locked pos raw (written + k))
  | _ => s

/-- The file cannot be opened, or the rest of a record cannot be written. The
store call returns the error. -/
def appendFails (s : SharedBlocks) (c : Nat) : SharedBlocks :=
  match s.callers c with
  | .appending locked _ _ _ =>
    { s with failed := true, lock := if locked then none else s.lock }.setCaller c .idle
  | _ => s

/-! ## The background writer -/

/-- The writer begins with a command. -/
def process (s : SharedBlocks) : WriteCmd → SharedBlocks
  | .block num data => { s with writer := .batching num data }
  | .flush ack => { s with acked := ack :: s.acked }

/-- The writer takes its next command. -/
def take (s : SharedBlocks) : SharedBlocks :=
  match s.writer with
  | .idle =>
    match s.carry, s.queue with
    | some cmd, _ => { s with carry := none }.process cmd
    | none, cmd :: queue => { s with queue := queue }.process cmd
    | none, [] => s
  | _ => s

/-- The writer looks whether another record for the same file is queued
already. -/
def poll (s : SharedBlocks) : SharedBlocks :=
  match s.writer with
  | .batching num data =>
    match s.queue with
    | [] => { s with writer := .writing num data }
    | .block num' data' :: queue =>
      if num' = num then { s with queue := queue, writer := .batching num (data ++ data') }
      else
        { s with queue := queue, carry := some (.block num' data'), writer := .writing num data }
    | .flush ack :: queue =>
      { s with queue := queue, carry := some (.flush ack), writer := .writing num data }
  | _ => s

/-- At most `k` more bytes of the batch reach the file. -/
def write (s : SharedBlocks) (k : Nat) : SharedBlocks :=
  match s.writer with
  | .writing num data =>
    let s := s.appendTo num (data.take k)
    if data.length ≤ k then { s with writer := .idle }
    else { s with writer := .writing num (data.drop k) }
  | _ => s

/-- The file cannot be opened, or the rest of the batch cannot be written. The
writer goes on to the next command. -/
def writeFails (s : SharedBlocks) : SharedBlocks :=
  match s.writer with
  | .writing _ _ => { s with writer := .idle, failed := true }
  | _ => s

/-! ## Reading -/

/-- An attempt has failed: the first is followed by a second one, and the second
ends the read with the error of the first. -/
def attemptFails (s : SharedBlocks) (r : Nat) (pos : BlockPos) (first : Option StorageError)
    (e : StorageError) : SharedBlocks × Option BlockAnswer :=
  match first with
  | none => (s.setReader r (.draining pos e), none)
  | some e₀ => (s.setReader r .idle, some (pos, .error e₀))

/-- A read at a position that a store call has returned. -/
def readBlock (s : SharedBlocks) (r : Nat) (pos : BlockPos) : SharedBlocks :=
  match s.readers r with
  | .idle => if pos ∈ s.returned.map Prod.fst then s.setReader r (.header pos none) else s
  | _ => s

/-- Open the file, read the size and compare. -/
def readHeader (s : SharedBlocks) (r : Nat) : SharedBlocks × Option BlockAnswer :=
  match s.readers r with
  | .header pos first =>
    match s.files pos.fileNum with
    | none => s.attemptFails r pos first (.io "No such file or directory (os error 2)")
    | some bytes =>
      match readExact bytes pos.offset 4 with
      | none => s.attemptFails r pos first (.io "failed to fill whole buffer")
      | some sizeBuf =>
        let size := ofLeBytes sizeBuf
        if size = pos.size then (s.setReader r (.body pos first), none)
        else s.attemptFails r pos first
          (.serialization s!"block size mismatch: expected {pos.size}, got {size}")
  | _ => (s, none)

/-- Read the block. -/
def readBody (s : SharedBlocks) (r : Nat) : SharedBlocks × Option BlockAnswer :=
  match s.readers r with
  | .body pos first =>
    match readExact (s.onDisk pos.fileNum) (pos.offset + 4) pos.size with
    | none => s.attemptFails r pos first (.io "failed to fill whole buffer")
    | some data => (s.setReader r .idle, some (pos, .ok data))
  | _ => (s, none)

/-- After a failed attempt, ask the writer to drain the queue; without a writer
there is nothing to wait for. -/
def flush (s : SharedBlocks) (r : Nat) : SharedBlocks :=
  match s.readers r with
  | .draining pos e =>
    if s.writeTx then
      if s.queue.length < writeQueueBound then
        s.sendFlush.setReader r (.waiting pos e s.nextAck)
      else s
    else s.setReader r (.header pos (some e))
  | _ => s

/-- Without a writer the current file is synced, which may fail; there is no
second attempt then. -/
def flushFails (s : SharedBlocks) (r : Nat) : SharedBlocks × Option BlockAnswer :=
  match s.readers r with
  | .draining pos e =>
    if s.writeTx then (s, none) else (s.setReader r .idle, some (pos, .error e))
  | _ => (s, none)

/-- The writer has acknowledged: second attempt. -/
def acknowledged (s : SharedBlocks) (r : Nat) : SharedBlocks :=
  match s.readers r with
  | .waiting pos e ack => if ack ∈ s.acked then s.setReader r (.header pos (some e)) else s
  | _ => s

/-- The writer has not acknowledged for half a minute: second attempt all the
same. -/
def timesOut (s : SharedBlocks) (r : Nat) : SharedBlocks :=
  match s.readers r with
  | .waiting pos e _ => s.setReader r (.header pos (some e))
  | _ => s

/-! ## Schedules -/

/-- One step, and the answer of the read it ends, if it ends one. -/
def step (s : SharedBlocks) : BlockEvent → SharedBlocks × Option BlockAnswer
  | .startBackgroundWriter => ({ s with writeTx := true }, none)
  | .storeBlock c raw => (s.lockFor c (.storing raw), none)
  | .storeBlockAsync c raw => (s.lockFor c (.storingAsync raw), none)
  | .sendRotateFlush c => (s.sendRotateFlush c, none)
  | .reserve c => (s.reserve c, none)
  | .handOver c => (s.handOver c, none)
  | .append c k => (s.append c k, none)
  | .appendFails c => (s.appendFails c, none)
  | .take => (s.take, none)
  | .poll => (s.poll, none)
  | .write k => (s.write k, none)
  | .writeFails => (s.writeFails, none)
  | .readBlock r pos => (s.readBlock r pos, none)
  | .readHeader r => s.readHeader r
  | .readBody r => s.readBody r
  | .flush r => (s.flush r, none)
  | .flushFails r => s.flushFails r
  | .acknowledged r => (s.acknowledged r, none)
  | .timesOut r => (s.timesOut r, none)

/-- The state a schedule ends in. -/
def run (s : SharedBlocks) (events : List BlockEvent) : SharedBlocks :=
  events.foldl (fun s e => (s.step e).1) s

/-- **Read your writes**, for one step: an answer for a position that a store
call has returned holds no other bytes than the block stored, and holds the
block if no write has failed. -/
def AnswersRight (s : SharedBlocks) (e : BlockEvent) : Prop :=
  ∀ pos answer, (s.step e).2 = some (pos, answer) →
    ∀ raw, (pos, raw) ∈ s.returned →
      (∀ data, answer = .ok data → data = raw) ∧ (s.failed = false → answer = .ok raw)

end SharedBlocks
