import BitcoinPR.Core.Bip110

/-!
# Header sync

`HeaderSync.processHeaders` walks over the headers of a message. The walk keeps
the block it stands on – its hash and its height – and fills a batch with the
headers it accepts. A header already stored moves the walk there without
entering the batch; a header whose parent is stored elsewhere starts a fork
there. After the walk the batch is stored, and the block the walk stands on
becomes the best header if the work of the batch's last header is at least that
of the best header and the branch is not tainted: no marked block is found
below the batch's first parent, and none is in the batch.

The code does not take the work of the parent from where the walk stands but
from the last header of the batch, and it does not ask whether the walk still
stands on the batch when it ends.

The split monitor, which is only told of tainted branches, is left out, and so
are the failures of the database. The checker of BIP 110 shares its memory with
the one that validates blocks; here it is part of the state.
-/

/-- Why a message is refused. -/
inductive HeaderSyncError where
  | invalid (msg : String)
  | unconnected (msg : String)
deriving DecidableEq, Repr

/-- The state of header sync. -/
structure HeaderSync where
  params : ConsensusParams
  headerIndex : HeaderIndex
  bestHeight : Nat
  bestHash : Hash
  bestChainWork : Bytes
  synced : Bool
  /-- Which branch tips are known to be tainted or clean. -/
  branchTainted : AList fun _ : Hash => Bool
  /-- The generation of the markers the memo was built with. -/
  taintMemoGeneration : Nat
  bip110 : Option Bip110Deployment
  bip110Cache : Bip110Cache

/-- The bound on the taint memo. -/
def taintMemoMax : Nat := 4096

/-- The bound on the walk to a marked ancestor. -/
def taintWalkMax : Nat := 10000

def ibdCatchUpMargin : Nat := 4

/-- Whether the blocks are far behind the headers. -/
def isCatchingUp (blockHeight headerTip : Nat) : Bool :=
  decide (ibdCatchUpMargin < headerTip - blockHeight)

/-- Where the walk over a message stands. -/
structure Walk where
  headerIndex : HeaderIndex
  bip110Cache : Bip110Cache
  /-- The accepted headers; their number is what the call returns. -/
  batch : List (Hash × StoredHeader)
  prevHash : Hash
  height : Nat
  /-- The last stored header above the tip the walk moved to, with its height
  and work. -/
  storedWalkTip : Option (Hash × Nat × Bytes)

/-- What is done with a header. -/
inductive Placement where
  /-- It is stored, at or below the tip: move on. -/
  | skip (stored : StoredHeader)
  /-- It is stored, above the tip: move on and remember it. -/
  | reannounced (stored : StoredHeader)
  /-- It is to be accepted, over a parent of this height. -/
  | child (parentHeight : Nat)
  /-- The walk ends here. -/
  | stop
  /-- The message does not connect. -/
  | unconnected
deriving DecidableEq, Repr

/-- A header as the batch knows it, else as it is stored. -/
def Walk.lookup (w : Walk) (hash : Hash) : Option StoredHeader :=
  (PartialMap.putAll (fun _ => none) w.batch hash).or (w.headerIndex.getHeader hash)

/-- The work of the parent: that of the last accepted header, if there is one,
else of the stored parent. -/
def Walk.prevWork (w : Walk) (header : Header) (height : Nat) : Except HeaderSyncError Bytes :=
  if height = 1 then .ok zeroWork
  else
    match w.batch.getLast? with
    | some last => .ok last.2.chainWork
    | none =>
      match w.headerIndex.getHeader header.prevBlockhash with
      | some stored => .ok stored.chainWork
      | none => .error (.unconnected
          (s!"prev header {Hash.hex header.prevBlockhash} of height {height} "
            ++ "has no stored data"))

/-- The target is the one required, if the ancestors to tell are known. -/
def Walk.checkBits (w : Walk) (params : ConsensusParams) (header : Header) (height : Nat) :
    Except HeaderSyncError Unit :=
  match getNextWorkRequiredWith w.lookup params header.prevBlockhash (height - 1)
      header.time with
  | some expected =>
    rejectIf (header.bits ≠ expected) (.invalid
      (s!"nBits mismatch at height {height}: expected 0x{hexPad 8 expected.toNat}, "
        ++ s!"got 0x{hexPad 8 header.bits.toNat}"))
  | none => .ok ()

namespace HeaderSync

/-- Header sync over an index, from a given tip. -/
def new (params : ConsensusParams) (ix : HeaderIndex) (bestHeight : Nat) (bestHash : Hash)
    (bip110 : Option Bip110Deployment) (cache : Bip110Cache) : HeaderSync where
  params := params
  headerIndex := ix
  bestHeight := bestHeight
  bestHash := bestHash
  bestChainWork := ((ix.getHeader bestHash).map StoredHeader.chainWork).getD zeroWork
  synced := false
  branchTainted := ∅
  taintMemoGeneration := 0
  bip110 := bip110
  bip110Cache := cache

/-! ## The walk -/

section

variable [Hashing]

def startWalk (s : HeaderSync) : Walk :=
  ⟨s.headerIndex, s.bip110Cache, [], s.bestHash, s.bestHeight, none⟩

/-- Where a header goes. -/
def place (s : HeaderSync) (blockHeight : Nat) (w : Walk) (header : Header) : Placement :=
  match (w.headerIndex.getHeader header.blockHash).filter
      fun stored => decide (stored.height ≤ s.bestHeight) with
  | some stored => .skip stored
  | none =>
    if header.prevBlockhash = w.prevHash then .child w.height
    else
      match w.headerIndex.getHeader header.blockHash with
      | some stored => .reannounced stored
      | none =>
        match w.headerIndex.getHeader header.prevBlockhash with
        | some forkParent =>
          if isCatchingUp blockHeight s.bestHeight then .stop else .child forkParent.height
        | none => if w.batch.isEmpty then .unconnected else .stop

/-- The checks of a header at a height, and the work of the chain it ends. -/
def validateHeader (s : HeaderSync) (w : Walk) (header : Header) (height : Nat) :
    Except HeaderSyncError Bytes := do
  rejectIf (!header.validatePow) (.invalid s!"invalid PoW at height {height}")
  checkIf s.params.signetChallenge.isNone (w.checkBits s.params header height)
  let prevWork ← w.prevWork header height
  return addChainWork prevWork (calculateWork header.target)

/-- Mark a header that does not signal in the mandatory window of BIP 110. -/
def markSignaling (s : HeaderSync) (w : Walk) (header : Header) (height : Nat) : Walk :=
  match s.bip110 with
  | none => w
  | some dep =>
    if dep.mandatoryWindow.1 ≤ height ∧ height ≤ dep.mandatoryWindow.2
        ∧ dep.signals header.versionBits = false
        ∧ w.headerIndex.isInvalid header.blockHash = false then
      let (activation, cache) :=
        activationFor w.headerIndex dep w.bip110Cache header.prevBlockhash height
      { w with
        headerIndex := if activation.state = .started then
            w.headerIndex.markInvalid header.blockHash
          else w.headerIndex
        bip110Cache := cache }
    else w

/-- Put a header into the batch and stand on it. -/
def pushHeader (w : Walk) (header : Header) (height : Nat) (chainWork : Bytes) : Walk :=
  { w with
    batch := w.batch ++ [(header.blockHash, ⟨header, height, chainWork⟩)]
    prevHash := header.blockHash
    height := height }

/-- What one header makes of the walk; `none` ends it. -/
def walkHeader (s : HeaderSync) (blockHeight : Nat) (w : Walk) (header : Header) :
    Except HeaderSyncError (Option Walk) :=
  match s.place blockHeight w header with
  | .skip stored => .ok (some { w with prevHash := header.blockHash, height := stored.height })
  | .reannounced stored => .ok (some { w with
      prevHash := header.blockHash
      height := stored.height
      storedWalkTip := some (header.blockHash, stored.height, stored.chainWork) })
  | .stop => .ok none
  | .unconnected => .error (.unconnected
      (s!"header with prev {Hash.hex header.prevBlockhash} doesn't connect "
        ++ s!"(our tip {Hash.hex w.prevHash})"))
  | .child parentHeight => do
    let chainWork ← s.validateHeader w header (parentHeight + 1)
    return some (pushHeader (s.markSignaling w header (parentHeight + 1)) header
      (parentHeight + 1) chainWork)

/-- The walk over a message. A refused message leaves the walk where the header
that is refused was met. -/
def walkHeaders (s : HeaderSync) (blockHeight : Nat) :
    List Header → Walk → Except HeaderSyncError Unit × Walk
  | [], w => (.ok (), w)
  | header :: headers, w =>
    match s.walkHeader blockHeight w header with
    | .error e => (.error e, w)
    | .ok none => (.ok (), w)
    | .ok (some w') => s.walkHeaders blockHeight headers w'

end

/-! ## Fork choice -/

/-- Drop the memo if the markers have changed since it was built. -/
def refreshTaintMemo (s : HeaderSync) : HeaderSync :=
  if s.headerIndex.invalidGeneration ≠ s.taintMemoGeneration then
    { s with branchTainted := ∅, taintMemoGeneration := s.headerIndex.invalidGeneration }
  else s

def noteBranchTaint (s : HeaderSync) (tip : Hash) (tainted : Bool) : HeaderSync :=
  let memo := if taintMemoMax ≤ s.branchTainted.keys.length then ∅ else s.branchTainted
  { s with branchTainted := memo.insert tip tainted }

/-- Whether a marked block is found on the branch that ends in `tip`; the memo
answers first. -/
def branchIsTainted (s : HeaderSync) (tip : Hash) (validatedFloor : Nat) : Bool × HeaderSync :=
  match s.branchTainted.lookup tip with
  | some tainted => (tainted, s)
  | none =>
    let tainted := s.headerIndex.isInvalid tip
      || (s.headerIndex.firstInvalidAncestor tip validatedFloor taintWalkMax).isSome
    (tainted, s.noteBranchTaint tip tainted)

/-- Make the branch of the batch the best chain, with the tip the walk stands
on. -/
def adoptBatch (s : HeaderSync) (w : Walk) (newChainWork : Bytes) : HeaderSync :=
  let ix := s.headerIndex.updateHeightIndexBatch w.batch
  let ix := (ix.restoreBranchHeightIndex w.prevHash).getD ix
  { s with
    headerIndex := ix.setHeaderTip w.prevHash w.height
    bestHeight := w.height
    bestHash := w.prevHash
    bestChainWork := newChainWork }

/-- Store the batch by hash only. -/
def storeBatch (s : HeaderSync) (w : Walk) : HeaderSync :=
  { s with headerIndex := s.headerIndex.insertHeadersHashOnly w.batch }

/-- Whether the branch of the batch is tainted: the parent of its first header
carries what is below, and the batch is looked at directly. -/
def taintOfBatch (s : HeaderSync) (w : Walk) (batchParent : Hash) (blockHeight : Nat) :
    Bool × HeaderSync :=
  let (parentTainted, s) := s.branchIsTainted batchParent blockHeight
  let tainted := parentTainted || w.batch.any fun p => s.headerIndex.isInvalid p.1
  (tainted, s.noteBranchTaint w.prevHash tainted)

/-- Store the batch, and adopt it if it has enough work and is not tainted. -/
def chooseBatch (s : HeaderSync) (w : Walk) (blockHeight : Nat) : HeaderSync :=
  match w.batch.head?, w.batch.getLast? with
  | some first, some last =>
    let s := s.storeBatch w
    let currentBestWork :=
      ((s.headerIndex.getHeader s.bestHash).map StoredHeader.chainWork).getD zeroWork
    let (tainted, s) := s.taintOfBatch w first.2.header.prevBlockhash blockHeight
    if !tainted && decide (currentBestWork ≤ last.2.chainWork) then
      s.adoptBatch w last.2.chainWork
    else s
  | _, _ => s

/-- Adopt a stored branch that was announced again, if it has more work and is
not tainted. -/
def chooseStored (s : HeaderSync) (w : Walk) (blockHeight : Nat) : HeaderSync :=
  match w.storedWalkTip with
  | none => s
  | some (tip, tipHeight, tipWork) =>
    if tip ≠ s.bestHash ∧ s.bestChainWork < tipWork
        ∧ isCatchingUp blockHeight s.bestHeight = false then
      let (tainted, s) := s.branchIsTainted tip blockHeight
      if tainted then s
      else
        match s.headerIndex.restoreBranchHeightIndex tip with
        | none => s
        | some ix =>
          { s with
            headerIndex := ix.resetForkHeaderTip tipHeight tip
            bestHash := tip
            bestHeight := tipHeight
            bestChainWork := tipWork }
    else s

/-- A short message ends the sync, once the minimum of work is reached. -/
def noteSynced (s : HeaderSync) (received : Nat) : HeaderSync :=
  if received < 2000 ∧ s.params.minChainWork ≤ beNat s.bestChainWork then
    { s with synced := true }
  else s

/-- The markers and the memory of BIP 110 that a walk leaves. -/
def takeWalk (s : HeaderSync) (w : Walk) : HeaderSync :=
  { s with headerIndex := w.headerIndex, bip110Cache := w.bip110Cache }

/-- **Process the headers of a message**; the number of accepted ones comes
back. -/
def processHeaders [Hashing] (s : HeaderSync) (headers : List Header) (blockHeight : Nat) :
    Except HeaderSyncError Nat × HeaderSync :=
  if headers.isEmpty then (.ok 0, s)
  else
    let s := s.refreshTaintMemo
    match s.walkHeaders blockHeight headers s.startWalk with
    | (.error e, w) => (.error e, s.takeWalk w)
    | (.ok _, w) =>
      (.ok w.batch.length,
        (((s.takeWalk w).chooseBatch w blockHeight).chooseStored w blockHeight).noteSynced
          headers.length)

end HeaderSync
