import BitcoinPR.Primitives

/-!
# The header index

Headers by hash, the canonical hash by height, the two tips and the set of
blocks marked invalid. Values are kept as such, not as bytes, and the
database is assumed not to fail, so that every lookup is total.

The index does not know whether a header is on the active chain: the height
index does, and it is written by whoever believes to know the active chain.
Ancestors are found by walking parent links (`getAncestor`), which is why
what they return depends on the ancestors alone.
-/

/-- A header with its height and the work of the chain it ends, as 32
big-endian bytes. -/
structure StoredHeader where
  header : Header
  height : Nat
  chainWork : Bytes
deriving DecidableEq, Repr

/-- The header index. -/
structure HeaderIndex where
  headers : Hash → Option StoredHeader
  heightIndex : Nat → Option Hash
  bestTip : Option (Hash × Nat)
  headerTip : Option (Hash × Nat)
  validatedHeight : Option Nat
  /-- The blocks marked invalid, without repetition. -/
  invalidSet : List Hash
  /-- Bumped whenever a marker is added or removed. -/
  invalidGeneration : Nat

namespace HeaderIndex

/-- An index without headers. -/
def empty : HeaderIndex := ⟨fun _ => none, fun _ => none, none, none, none, [], 0⟩

def getHeader (ix : HeaderIndex) (hash : Hash) : Option StoredHeader := ix.headers hash

def getHashAtHeight (ix : HeaderIndex) (height : Nat) : Option Hash := ix.heightIndex height

/-- Store a header, and make it canonical at its height. -/
def insertHeader (ix : HeaderIndex) (hash : Hash) (stored : StoredHeader) : HeaderIndex :=
  { ix with
    headers := Function.update ix.headers hash (some stored)
    heightIndex := Function.update ix.heightIndex stored.height (some hash) }

/-- Store headers without touching the height index. -/
def insertHeadersHashOnly (ix : HeaderIndex) (hs : List (Hash × StoredHeader)) : HeaderIndex :=
  { ix with
    headers := hs.foldl (fun m p => Function.update m p.1 (some p.2)) ix.headers }

/-- Make headers canonical at their heights. -/
def updateHeightIndexBatch (ix : HeaderIndex) (hs : List (Hash × StoredHeader)) :
    HeaderIndex :=
  { ix with
    heightIndex := hs.foldl (fun m p => Function.update m p.2.height (some p.1))
      ix.heightIndex }

def setHeightHash (ix : HeaderIndex) (height : Nat) (hash : Hash) : HeaderIndex :=
  { ix with heightIndex := Function.update ix.heightIndex height (some hash) }

def deleteHeightEntry (ix : HeaderIndex) (height : Nat) : HeaderIndex :=
  { ix with heightIndex := Function.update ix.heightIndex height none }

def setBestTip (ix : HeaderIndex) (hash : Hash) (height : Nat) : HeaderIndex :=
  { ix with bestTip := some (hash, height) }

def setHeaderTip (ix : HeaderIndex) (hash : Hash) (height : Nat) : HeaderIndex :=
  { ix with headerTip := some (hash, height) }

def setValidatedHeight (ix : HeaderIndex) (height : Nat) : HeaderIndex :=
  { ix with validatedHeight := some height }

/-- The height of the header tip; of the validated tip as long as none is stored. -/
def getHeaderTipHeight (ix : HeaderIndex) : Option Nat := (ix.headerTip.or ix.bestTip).map Prod.snd

/-! ## Walking to an ancestor -/

/-- Walk parent links down to `target`, giving up at a missing parent or at
one that is not lower. The heights decrease, so that the height of `cur` is
fuel enough. -/
def ancestorWalk (ix : HeaderIndex) (target : Nat) : Nat → StoredHeader → Option StoredHeader
  | fuel, cur =>
    if cur.height ≤ target then some cur
    else match fuel with
      | 0 => none
      | fuel + 1 =>
        match ix.getHeader cur.header.prevBlockhash with
        | some parent =>
          if parent.height < cur.height then ancestorWalk ix target fuel parent else none
        | none => none

/-- The ancestor of `start` at a height, on the chain `start` is on. When
heights skip, it is the first ancestor at or below it. -/
def getAncestor (ix : HeaderIndex) (start : Hash) (target : Nat) : Option StoredHeader :=
  match ix.getHeader start with
  | none => none
  | some cur => if cur.height < target then none else ix.ancestorWalk target cur.height cur

/-! ## Repointing the height index -/

/-- Walk down from `cur` and list the entries to write, until the height index
already names the block at its height. A parent that is missing or not lower
is an error. -/
def restoreWalk (ix : HeaderIndex) :
    Nat → Hash → StoredHeader → List (Nat × Hash) → Option (List (Nat × Hash))
  | fuel, curHash, cur, writes =>
    if ix.getHashAtHeight cur.height = some curHash then some writes
    else
      let writes := writes ++ [(cur.height, curHash)]
      if cur.height = 0 then some writes
      else match fuel with
        | 0 => none
        | fuel + 1 =>
          match ix.getHeader cur.header.prevBlockhash with
          | some parent =>
            if parent.height < cur.height then
              ix.restoreWalk fuel cur.header.prevBlockhash parent writes
            else none
          | none => none

/-- Repoint the height index at the branch that ends in `tip`; `none` when the
branch is broken, and then nothing is written. -/
def restoreBranchHeightIndex (ix : HeaderIndex) (tip : Hash) : Option HeaderIndex :=
  match ix.getHeader tip with
  | none => none
  | some stored =>
    (ix.restoreWalk stored.height tip stored []).map fun writes =>
      { ix with heightIndex :=
          writes.foldl (fun m p => Function.update m p.1 (some p.2)) ix.heightIndex }

/-- Make `hash` the header tip at `height` and drop the height entries above,
up to the tip so far. -/
def resetForkHeaderTip (ix : HeaderIndex) (height : Nat) (hash : Hash) : HeaderIndex :=
  let currentTip := ix.getHeaderTipHeight.getD 0
  { ix with
    heightIndex := Function.update
      (fun h => if height < h ∧ h ≤ currentTip then none else ix.heightIndex h) height (some hash)
    headerTip := some (hash, height) }

/-! ## Invalid markers -/

def isInvalid (ix : HeaderIndex) (hash : Hash) : Bool := decide (hash ∈ ix.invalidSet)

def markInvalid (ix : HeaderIndex) (hash : Hash) : HeaderIndex :=
  { ix with
    invalidSet := if hash ∈ ix.invalidSet then ix.invalidSet else hash :: ix.invalidSet
    invalidGeneration := ix.invalidGeneration + 1 }

/-- Remove a marker; the generation moves only if there was one. -/
def clearInvalid (ix : HeaderIndex) (hash : Hash) : HeaderIndex :=
  if hash ∈ ix.invalidSet then
    { ix with
      invalidSet := ix.invalidSet.filter fun h => h != hash
      invalidGeneration := ix.invalidGeneration + 1 }
  else ix

def clearAllInvalid (ix : HeaderIndex) : HeaderIndex :=
  { ix with invalidSet := [], invalidGeneration := ix.invalidGeneration + 1 }

/-- Walk down from `cur` for at most `maxWalk` blocks, keeping the lowest
marked block seen. The walk ends early at an unknown block, at a canonical
block not above `validatedHeight`, and at height zero. -/
def invalidWalk (ix : HeaderIndex) (validatedHeight : Nat) :
    Nat → Hash → Option (Hash × Nat) → Option (Hash × Nat)
  | 0, _, found => found
  | maxWalk + 1, cur, found =>
    match ix.getHeader cur with
    | none => found
    | some stored =>
      let found := if ix.isInvalid cur then some (cur, stored.height) else found
      if stored.height ≤ validatedHeight
          && ix.getHashAtHeight stored.height == some cur then found
      else if stored.height = 0 then found
      else ix.invalidWalk validatedHeight maxWalk stored.header.prevBlockhash found

/-- The lowest marked ancestor of `tip`, as far as the walk goes. -/
def firstInvalidAncestor (ix : HeaderIndex) (tip : Hash) (validatedHeight maxWalk : Nat) :
    Option (Hash × Nat) :=
  if ix.invalidSet.isEmpty then none else ix.invalidWalk validatedHeight maxWalk tip none

end HeaderIndex
