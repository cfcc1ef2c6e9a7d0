import Mathlib.Data.List.Basic
import Mathlib.Data.List.Perm.Basic

/-!
# Iterating a hash map, writing in chunks

Two things a hash-map backed store does that a list does not show.

A hash map is iterated in an order the program cannot rely on. An
`IterOrder` stands for one such order: it reorders any list it is given,
and that is all that is known of it. What is proved for every
`IterOrder` holds whatever the hasher.

A long list of operations is written in **chunks**: operations pile up
in an open chunk, which is sealed as soon as its weight reaches a target.
`Chunks.seal_flatten` says sealing moves nothing: the sealed chunks
followed by the open one are the operations, in their order, so that a
prefix of the chunks is a prefix of the operations.
-/

/-- **An iteration order**: a reordering of every list. -/
structure IterOrder (α : Type) where
  /-- The entries in the order they are visited. -/
  order : List α → List α
  /-- Every entry is visited, and visited once. -/
  perm : ∀ l, (order l).Perm l

namespace IterOrder

variable {α : Type}

/-- The order in which the entries are listed. -/
def id : IterOrder α := ⟨fun l => l, fun l => List.Perm.refl l⟩

@[simp] theorem mem_order (ρ : IterOrder α) {l : List α} {a : α} :
    a ∈ ρ.order l ↔ a ∈ l :=
  (ρ.perm l).mem_iff

end IterOrder

/-- The state of a chunked write: the chunks sealed so far, the open
chunk and its weight. -/
structure Chunks (α : Type) where
  /-- The chunks already written, oldest first. -/
  sealed : List (List α)
  /-- The operations waiting in the open chunk. -/
  current : List α
  /-- The weight of the open chunk. -/
  weight : Nat

namespace Chunks

variable {α : Type}

/-- Nothing written, nothing waiting. -/
def empty : Chunks α := ⟨[], [], 0⟩

/-- Add one operation of weight `w`, sealing the open chunk once it
weighs at least `target`. -/
def push (target : Nat) (c : Chunks α) (op : α) (w : Nat) : Chunks α :=
  if target ≤ c.weight + w then
    ⟨c.sealed ++ [c.current ++ [op]], [], 0⟩
  else
    ⟨c.sealed, c.current ++ [op], c.weight + w⟩

/-- Add a list of weighted operations. -/
def pushAll (target : Nat) (c : Chunks α) (ops : List (α × Nat)) : Chunks α :=
  ops.foldl (fun c p => c.push target p.1 p.2) c

/-- Every operation added so far, in order. -/
def flatten (c : Chunks α) : List α := c.sealed.flatten ++ c.current

theorem flatten_push (target : Nat) (c : Chunks α) (op : α) (w : Nat) :
    (c.push target op w).flatten = c.flatten ++ [op] := by
  unfold push flatten
  split <;> simp

/-- **Chunking moves nothing.** -/
theorem flatten_pushAll (target : Nat) (c : Chunks α) (ops : List (α × Nat)) :
    (c.pushAll target ops).flatten = c.flatten ++ ops.map Prod.fst := by
  induction ops generalizing c with
  | nil => simp [pushAll]
  | cons p ops ih =>
    rw [pushAll, List.foldl_cons, ← pushAll, ih, flatten_push, List.append_assoc,
      List.singleton_append, List.map_cons]

end Chunks
