import BitcoinPR.Core.Consensus

/-!
# Merkle trees

The root of a list of leaves, level by level with the last node of an odd
level paired with itself (`merkleRoot`), and the single-pass computation
that also reports two equal sibling subtrees (`rootDetectingMutation`): the
leaves are added one by one to a stack of complete subtrees, one per set bit
of the count, and what is left is folded up at the end. The count has 32 bits and
the stack 32 places. A list whose tree needs a level more makes the code index
beyond the stack and panic.
-/

variable [Hashing]

/-- Pair the nodes of a level; the last of an odd level is paired with
itself. -/
def pairLevel : List Hash → List Hash
  | [] => []
  | [a] => [Hashing.hashPair a a]
  | a :: b :: rest => Hashing.hashPair a b :: pairLevel rest

/-- Pair levels until one node is left; a level of `n` nodes needs at most `n`
rounds. -/
def foldLevels : Nat → List Hash → List Hash
  | 0, level => level
  | fuel + 1, level => if level.length ≤ 1 then level else foldLevels fuel (pairLevel level)

/-- The merkle root; zero for no leaves. -/
def merkleRoot (leaves : List Hash) : Hash :=
  (foldLevels leaves.length leaves).headD Hash.allZeros

/-! ## One pass, detecting mutation

`inner` holds the roots of the complete subtrees of the leaves seen so far,
`inner[level]` being meant only where bit `level` of the count is set. -/

/-- The panic of indexing `inner` at level 32. A build that checks overflow panics
before, where the count is increased to `2 ^ 32`. -/
def innerPanic : CoreError := .panic "index out of bounds: the len is 32 but the index is 32"

/-- Fold `h` up while the bit of `count` at `level` is clear. Returns the
level where it stops, the node, and whether two siblings were equal. No level is
left only when the count has wrapped to zero. -/
def collapse (inner : Nat → Hash) (count : Nat) :
    Nat → Nat → Hash → Bool → Except CoreError (Nat × Hash × Bool)
  | 0, _, _, _ => .error innerPanic
  | fuel + 1, level, h, mutated =>
    if count.testBit level then .ok (level, h, mutated)
    else collapse inner count fuel (level + 1) (Hashing.hashPair (inner level) h)
      (mutated || inner level == h)

/-- Add the leaves one by one. -/
def addLeaves : List Hash → Nat → (Nat → Hash) → Bool →
    Except CoreError (Nat × (Nat → Hash) × Bool)
  | [], count, inner, mutated => .ok (count, inner, mutated)
  | leaf :: leaves, count, inner, mutated => do
    let count := (count + 1) % 2 ^ 32
    let (level, h, mutated) ← collapse inner count 32 0 leaf mutated
    addLeaves leaves count (Function.update inner level h) mutated

/-- The lowest set bit of the count. -/
def lowestBit (count : Nat) : Nat → Nat → Nat
  | 0, level => level
  | fuel + 1, level => if count.testBit level then level else lowestBit count fuel (level + 1)

/-- Fold the partial subtrees up: the node is paired with itself, then
collapsed, until the count is a power of two. -/
def closeTree (inner : Nat → Hash) :
    Nat → Nat → Nat → Hash → Bool → Except CoreError (Hash × Bool)
  | 0, _, _, h, mutated => .ok (h, mutated)
  | fuel + 1, count, level, h, mutated =>
    if count = 2 ^ level then .ok (h, mutated)
    else do
      let count := (count + 2 ^ level) % 2 ^ 32
      let (level, h, mutated) ←
        collapse inner count (31 - level) (level + 1) (Hashing.hashPair h h) mutated
      closeTree inner fuel count level h mutated

/-- The root of the leaves, and whether the tree is mutated. -/
def rootDetectingMutation (leaves : List Hash) : Except CoreError (Option Hash × Bool) :=
  if leaves.isEmpty then .ok (none, false)
  else do
    let (count, inner, mutated) ← addLeaves leaves 0 (fun _ => Hash.allZeros) false
    let level := lowestBit count 32 0
    let (h, mutated) ← closeTree inner 32 count level (inner level) mutated
    return (some h, mutated)
