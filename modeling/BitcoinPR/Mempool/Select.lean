import BitcoinPR.Mempool.Pool

/-!
# Selecting transactions for a block

`Mempool.selectForBlock` takes what is final at a height and a median time,
best payers first, in passes: a pass takes every candidate whose parents in the
pool are taken already, drops what no longer fits, and leaves the rest to the
next pass. It ends with the pass that takes nothing.

What holds of a selection is said once (`Mempool.Selection.Sound`) and kept by
every step. That nothing more could have been taken is a fact about the last
pass: what it leaves it found waiting for a parent, and the parents it waits
for are still the same when it ends.

Weights are those of transactions in memory, so that their sums are far from
the end of 64 bits; they are added as numbers.
-/

open List

variable {R : Type}

/-- Whether an entry may be in a block at a height and median time past. -/
def MempoolEntry.finalForBlock (e : MempoolEntry R) (height mtp : Nat) : Bool :=
  isFinalTx e.tx height mtp && decide (e.lockHeight ≤ height) && decide (e.lockTime ≤ mtp)

namespace Mempool

/-- What has been selected, in order, and its weight. What was found over
budget is kept for the record, with what had been selected at that time. -/
structure Selection (R : Type) where
  selected : List (MempoolEntry R)
  totalWeight : Nat
  dropped : List (MempoolEntry R × List (MempoolEntry R))

namespace Selection

def add (sel : Selection R) (e : MempoolEntry R) : Selection R :=
  { sel with selected := sel.selected ++ [e], totalWeight := sel.totalWeight + e.weight }

def drop (sel : Selection R) (e : MempoolEntry R) : Selection R :=
  { sel with dropped := (e, sel.selected) :: sel.dropped }

end Selection

/-- Whether the parents of an entry are selected, as far as they are in the
pool. -/
def parentsReady (pool : Mempool R) (selected : List (MempoolEntry R)) (e : MempoolEntry R) :
    Bool :=
  e.tx.input.all fun i =>
    !pool.contains i.previousOutput.txid
      || decide (i.previousOutput.txid ∈ selected.map MempoolEntry.txid)

/-- One pass over the candidates; those left for the next pass come back. -/
def selectPass (pool : Mempool R) (maxWeight maxCount : Nat) :
    List (MempoolEntry R) → Selection R → List (MempoolEntry R) × Selection R
  | [], sel => ([], sel)
  | e :: candidates, sel =>
    if maxCount ≤ sel.selected.length ∨ maxWeight < sel.totalWeight + e.weight then
      pool.selectPass maxWeight maxCount candidates (sel.drop e)
    else if pool.parentsReady sel.selected e then
      pool.selectPass maxWeight maxCount candidates (sel.add e)
    else
      let (rest, sel) := pool.selectPass maxWeight maxCount candidates sel
      (e :: rest, sel)

/-- Pass after pass, as many as are given; none comes back when they do not
suffice. -/
def selectLoop (pool : Mempool R) (maxWeight maxCount : Nat) :
    Nat → List (MempoolEntry R) → Selection R → Option (Selection R)
  | 0, _, _ => none
  | passes + 1, candidates, sel =>
    let (rest, next) := pool.selectPass maxWeight maxCount candidates sel
    if next.selected.length = sel.selected.length ∨ rest.isEmpty then some next
    else pool.selectLoop maxWeight maxCount passes rest next

/-- Higher fee rates first, then earlier arrivals. -/
def precedes [FeeRates R] (a b : MempoolEntry R) : Prop :=
  b.feeRate < a.feeRate ∨ a.feeRate = b.feeRate ∧ a.time ≤ b.time

instance [FeeRates R] : DecidableRel (precedes (R := R)) :=
  fun a b => inferInstanceAs
    (Decidable (b.feeRate < a.feeRate ∨ a.feeRate = b.feeRate ∧ a.time ≤ b.time))

/-- The entries that are final, in the order in which they are considered. -/
def candidates [FeeRates R] (pool : Mempool R) (ρ : IterOrder (MempoolEntry R))
    (height mtp : Nat) : List (MempoolEntry R) :=
  ((ρ.order pool.entries).filter fun e => e.finalForBlock height mtp).insertionSort precedes

/-- **Select transactions for a block** at a height and median time past,
within a weight and a number of transactions, in so many passes at most. -/
def selectForBlock [FeeRates R] (pool : Mempool R) (ρ : IterOrder (MempoolEntry R))
    (height mtp maxWeight maxCount passes : Nat) : Option (Selection R) :=
  pool.selectLoop maxWeight maxCount passes (pool.candidates ρ height mtp) ⟨[], 0, []⟩

/-! ## What a selection is made of -/

/-- Every parent in the pool of a listed entry is listed before it. -/
def ParentsFirst (pool : Mempool R) (l : List (MempoolEntry R)) : Prop :=
  ∀ before e after, l = before ++ e :: after → ∀ i ∈ e.tx.input,
    pool.contains i.previousOutput.txid = true →
      i.previousOutput.txid ∈ before.map MempoolEntry.txid

/-- An entry exceeds a budget of which `before` has been used. -/
def OverBudget (maxWeight maxCount : Nat) (before : List (MempoolEntry R))
    (e : MempoolEntry R) : Prop :=
  maxCount ≤ before.length ∨ maxWeight < (before.map MempoolEntry.weight).sum + e.weight

section

variable {pool : Mempool R} {among left candidates kept : List (MempoolEntry R)}
  {maxWeight maxCount : Nat} {sel : Selection R} {e : MempoolEntry R}

theorem ParentsFirst.concat {l : List (MempoolEntry R)} (h : pool.ParentsFirst l)
    (hready : pool.parentsReady l e = true) : pool.ParentsFirst (l ++ [e]) := by
  intro before e' after heq i hi hparent
  rcases eq_nil_or_concat after with rfl | ⟨after', last, rfl⟩
  · -- the entry is the last one
    obtain ⟨rfl, hlast⟩ := append_inj' heq rfl
    obtain rfl := singleton_inj.mp hlast
    have hi' := all_eq_true.mp hready i hi
    rw [hparent, Bool.not_true] at hi'
    exact of_decide_eq_true hi'
  · rw [concat_eq_append, ← cons_append, ← append_assoc] at heq
    obtain ⟨rfl, -⟩ := append_inj' heq rfl
    exact h before e' after' rfl i hi hparent

/-- **What a selection is made of**: the candidates are selected, dropped or
left; parents are first; both budgets are kept, and were exceeded by what was
dropped. -/
structure Selection.Sound (pool : Mempool R) (among : List (MempoolEntry R))
    (maxWeight maxCount : Nat) (sel : Selection R) (left : List (MempoolEntry R)) : Prop where
  perm : (sel.selected ++ (sel.dropped.map Prod.fst ++ left)).Perm among
  parentsFirst : pool.ParentsFirst sel.selected
  weight_eq : sel.totalWeight = (sel.selected.map MempoolEntry.weight).sum
  weight_le : sel.totalWeight ≤ maxWeight
  count_le : sel.selected.length ≤ maxCount
  dropped : ∀ d ∈ sel.dropped, d.2 <+: sel.selected ∧ OverBudget maxWeight maxCount d.2 d.1

theorem perm_moved (a b c : List (MempoolEntry R)) :
    (e :: (a ++ (b ++ c))).Perm (a ++ (b ++ e :: c)) := by
  rw [← append_assoc, ← append_assoc]
  exact perm_middle.symm

namespace Selection.Sound

theorem drop (h : sel.Sound pool among maxWeight maxCount (kept ++ e :: left))
    (hover : maxCount ≤ sel.selected.length ∨ maxWeight < sel.totalWeight + e.weight) :
    (sel.drop e).Sound pool among maxWeight maxCount (kept ++ left) where
  perm := (List.Perm.append_left _ (perm_moved _ _ _)).trans h.perm
  parentsFirst := h.parentsFirst
  weight_eq := h.weight_eq
  weight_le := h.weight_le
  count_le := h.count_le
  dropped d hd := by
    rcases mem_cons.mp hd with rfl | hd
    · rw [h.weight_eq] at hover
      exact ⟨prefix_refl _, hover⟩
    · exact h.dropped d hd

theorem add (h : sel.Sound pool among maxWeight maxCount (kept ++ e :: left))
    (hcount : sel.selected.length < maxCount) (hweight : sel.totalWeight + e.weight ≤ maxWeight)
    (hready : pool.parentsReady sel.selected e = true) :
    (sel.add e).Sound pool among maxWeight maxCount (kept ++ left) where
  perm := by
    show (sel.selected ++ [e] ++ (sel.dropped.map Prod.fst ++ (kept ++ left))).Perm among
    rw [append_assoc]
    exact (List.Perm.append_left sel.selected (perm_moved _ kept left)).trans h.perm
  parentsFirst := h.parentsFirst.concat hready
  weight_eq := by
    show sel.totalWeight + e.weight = ((sel.selected ++ [e]).map MempoolEntry.weight).sum
    rw [map_append, sum_append, h.weight_eq]
    rfl
  weight_le := hweight
  count_le := by
    show (sel.selected ++ [e]).length ≤ maxCount
    rw [length_append]
    exact hcount
  dropped d hd := ⟨(h.dropped d hd).1.trans (prefix_append _ _), (h.dropped d hd).2⟩

end Selection.Sound

/-! ## Passes -/

/-- **One pass** keeps the selection sound and only adds to it; if it adds
nothing, what it leaves waits for a parent. `kept` are the candidates the pass
has left so far. -/
theorem selectPass_spec (h : sel.Sound pool among maxWeight maxCount (kept ++ candidates)) :
    (pool.selectPass maxWeight maxCount candidates sel).2.Sound pool among maxWeight maxCount
        (kept ++ (pool.selectPass maxWeight maxCount candidates sel).1)
      ∧ sel.selected <+: (pool.selectPass maxWeight maxCount candidates sel).2.selected
      ∧ ((pool.selectPass maxWeight maxCount candidates sel).2.selected.length
          = sel.selected.length →
        ∀ e ∈ (pool.selectPass maxWeight maxCount candidates sel).1,
          pool.parentsReady sel.selected e = false) := by
  induction candidates generalizing kept sel with
  | nil => exact ⟨h, prefix_refl _, fun _ e he => absurd he not_mem_nil⟩
  | cons e candidates ih =>
    rw [selectPass]
    split
    · rename_i hover
      exact ih (h.drop hover)
    · rename_i hfits
      rw [not_or, Nat.not_le, Nat.not_lt] at hfits
      split
      · rename_i hready
        obtain ⟨hnext, hpre, -⟩ := ih (h.add hfits.1 hfits.2 hready)
        refine ⟨hnext, (prefix_append _ _).trans hpre, fun hlen => ?_⟩
        -- the entry has been added, so that the length has grown
        have hle := hpre.length_le
        rw [hlen, Selection.add, length_append] at hle
        exact absurd hle (Nat.not_succ_le_self _)
      · rename_i hready
        have hkept : sel.Sound pool among maxWeight maxCount (kept ++ [e] ++ candidates) := by
          rw [append_assoc]
          exact h
        obtain ⟨hnext, hpre, hwait⟩ := ih hkept
        rw [append_assoc] at hnext
        refine ⟨hnext, hpre, fun hlen e' he' => ?_⟩
        rcases mem_cons.mp he' with rfl | he'
        · exact Bool.eq_false_iff.mpr hready
        · exact hwait hlen e' he'

/-- **The loop ends** within a pass for each candidate and one more, with a
sound selection that leaves only what waits for a parent. -/
theorem selectLoop_spec {passes : Nat} (h : sel.Sound pool among maxWeight maxCount candidates)
    (hpasses : among.length + 1 ≤ passes + sel.selected.length) :
    ∃ sel' left, pool.selectLoop maxWeight maxCount passes candidates sel = some sel'
      ∧ sel'.Sound pool among maxWeight maxCount left
      ∧ ∀ e ∈ left, pool.parentsReady sel'.selected e = false := by
  induction passes generalizing candidates sel with
  | zero =>
    have hlen := h.perm.length_eq
    rw [length_append] at hlen
    omega
  | succ passes ih =>
    obtain ⟨hnext, hpre, hwait⟩ := selectPass_spec
      (show sel.Sound pool among maxWeight maxCount ([] ++ candidates) from h)
    rw [selectLoop]
    dsimp only
    split
    · rename_i hend
      refine ⟨_, _, rfl, hnext, fun e he => ?_⟩
      rcases hend with hlen | hempty
      · rw [← hpre.eq_of_length hlen.symm]
        exact hwait hlen e he
      · rw [isEmpty_iff.mp hempty] at he
        exact absurd he not_mem_nil
    · rename_i hgo
      have hle := hpre.length_le
      have hne := fun hlen => hgo (Or.inl hlen)
      exact ih hnext (by omega)

end

/-! ## What is selected for a block -/

/-- **What a block template may hold**: entries of the pool, each once, all
final; parents first; within both budgets; and nothing that could have been
taken is missing. -/
structure Selected (pool : Mempool R) (height mtp maxWeight maxCount : Nat)
    (sel : Selection R) : Prop where
  nodup : (sel.selected.map MempoolEntry.txid).Nodup
  final : ∀ e ∈ sel.selected, e ∈ pool.entries ∧ e.finalForBlock height mtp = true
  parentsFirst : pool.ParentsFirst sel.selected
  weight_le : (sel.selected.map MempoolEntry.weight).sum ≤ maxWeight
  count_le : sel.selected.length ≤ maxCount
  maximal : ∀ e ∈ pool.entries, e.finalForBlock height mtp = true → e ∉ sel.selected →
    (∃ i ∈ e.tx.input, pool.contains i.previousOutput.txid = true
      ∧ i.previousOutput.txid ∉ sel.selected.map MempoolEntry.txid)
    ∨ ∃ before, (e, before) ∈ sel.dropped ∧ before <+: sel.selected
      ∧ OverBudget maxWeight maxCount before e

theorem nodup_txids {pool : Mempool R}
    (hkeyed : ∀ id e, pool.get id = some e → e.txid = id) :
    (pool.entries.map MempoolEntry.txid).Nodup := by
  have hkeys : pool.entries.map MempoolEntry.txid = pool.txs.keys := by
    rw [entries, map_map]
    exact map_congr_left fun s hs => hkeyed s.1 s.2 (AList.mem_lookup_iff.mpr hs)
  rw [hkeys]
  exact pool.txs.keys_nodup

/-- **Selection for a block ends** within one pass for each transaction and one
more, with what a template may hold. -/
theorem exists_selectForBlock [FeeRates R] {pool : Mempool R} (ρ : IterOrder (MempoolEntry R))
    (height mtp maxWeight maxCount : Nat)
    (hkeyed : ∀ id e, pool.get id = some e → e.txid = id) :
    ∃ sel, pool.selectForBlock ρ height mtp maxWeight maxCount (pool.entries.length + 1) = some sel
      ∧ pool.Selected height mtp maxWeight maxCount sel := by
  have hperm : (pool.candidates ρ height mtp).Perm
      (pool.entries.filter fun e => e.finalForBlock height mtp) :=
    (perm_insertionSort _ _).trans ((ρ.perm _).filter _)
  have hlen := hperm.length_eq ▸ length_filter_le _ pool.entries
  have hstart : Selection.Sound pool (pool.candidates ρ height mtp) maxWeight maxCount ⟨[], 0, []⟩
      (pool.candidates ρ height mtp) :=
    ⟨List.Perm.refl _, fun _ _ _ heq => absurd heq.symm (by simp), rfl, Nat.zero_le _,
      Nat.zero_le _, fun _ hd => absurd hd not_mem_nil⟩
  obtain ⟨sel, left, hsel, h, hwait⟩ := selectLoop_spec hstart (Nat.succ_le_succ hlen)
  have hmem : ∀ e, e ∈ sel.selected ++ (sel.dropped.map Prod.fst ++ left) ↔
      e ∈ pool.entries ∧ e.finalForBlock height mtp = true := fun e =>
    (h.perm.trans hperm).mem_iff.trans mem_filter
  refine ⟨sel, hsel, ?_, fun e he => (hmem e).mp (mem_append_left _ he), h.parentsFirst,
    h.weight_eq ▸ h.weight_le, h.count_le, fun e he hfinal hnot => ?_⟩
  · have hnodup := ((h.perm.trans hperm).map MempoolEntry.txid).nodup_iff.mpr
      ((filter_sublist.map _).nodup (nodup_txids hkeyed))
    exact ((sublist_append_left sel.selected _).map _).nodup hnodup
  · rcases mem_append.mp ((hmem e).mpr ⟨he, hfinal⟩) with hs | hrest
    · exact absurd hs hnot
    rcases mem_append.mp hrest with hd | hl
    · obtain ⟨⟨_, before⟩, hbefore, rfl⟩ := mem_map.mp hd
      exact Or.inr ⟨before, hbefore, h.dropped _ hbefore⟩
    · obtain ⟨i, hi, hnot⟩ := all_eq_false.mp (hwait e hl)
      rw [Bool.or_eq_true, Bool.not_eq_true', decide_eq_true_iff, not_or, Bool.not_eq_false] at hnot
      exact Or.inl ⟨i, hi, hnot⟩

section Sample

attribute [local instance] sampleRates

/-- A transaction that pays little, and one that spends it and pays more. -/
def samplePair : Mempool Nat :=
  let parent : Tx := ⟨2, 0, [⟨⟨9, 0⟩, [], 0, []⟩], [⟨5, []⟩]⟩
  let child : Tx := ⟨2, 0, [⟨⟨1, 0⟩, [], 0, []⟩], [⟨4, []⟩]⟩
  let txs := (∅ : AList fun _ : Hash => MempoolEntry Nat)
    |>.insert 2 ⟨child, 2, 90, 60, 240, 9, 0, 0, 0⟩
    |>.insert 1 ⟨parent, 1, 10, 60, 240, 1, 0, 0, 0⟩
  { new 300000000 with txs }

/-- The pair does not fit a block for one: the child is considered first, and
waits. -/
theorem exists_select_samplePair :
    ∃ sel, samplePair.selectForBlock IterOrder.id 1 0 4000 1 3 = some sel
      ∧ samplePair.Selected 1 0 4000 1 sel := by
  refine exists_selectForBlock IterOrder.id 1 0 4000 1 fun id e h => ?_
  rcases AList.mem_lookup_iff.mp h with _ | ⟨_, _ | ⟨_, hnil⟩⟩
  · rfl
  · rfl
  · cases hnil

end Sample

end Mempool
