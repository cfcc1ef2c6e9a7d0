import BitcoinPR.Core.Runs
import BitcoinPR.P2P.Linked

/-!
# Blocks whose scripts are assumed valid

A network may name an assume-valid block: the scripts of that block and of its
ancestors are trusted, so that `connectBlock` need not run them. The code
decides by height alone. A block is waived when it is the assume-valid block
itself, or when the assume-valid header is known and the block is connected at
no greater height – whichever branch it is on. Being an ancestor is what
`getAncestor` answers: walk down from the assume-valid block to the height of
the block and compare. The two agree on one branch and differ on every other
one that forks off below.
-/

open StoredHeader

open Branches (Ancestor Graded up)

/-! ## Ancestors by height -/

namespace HeaderIndex

variable {ix : HeaderIndex} {a b : Hash} {v w : StoredHeader}

section

variable (hg : Graded parent height ix.headers)
  (hv : ix.headers a = some v)
include hg hv

/-- The walk ends in the ancestor at the height it is sent to. -/
theorem ancestorWalk_eq_iterate_up {target fuel : Nat} (ht : target ≤ v.height)
    (hf : v.height - target ≤ fuel) :
    ix.ancestorWalk target fuel v
      = ix.headers ((up parent ix.headers)^[v.height - target] a) := by
  induction fuel generalizing a v with
  | zero =>
    have hle : v.height ≤ target := by omega
    unfold ancestorWalk
    rw [if_pos hle, Nat.sub_eq_zero_of_le hle]
    exact hv.symm
  | succ fuel ih =>
    unfold ancestorWalk
    by_cases hle : v.height ≤ target
    · rw [if_pos hle, Nat.sub_eq_zero_of_le hle]
      exact hv.symm
    · rcases hg a v hv with ⟨-, hzero⟩ | ⟨b, w, hb, hw, hheight⟩
      · omega
      · obtain rfl : v.header.prevBlockhash = b := by
          rw [parent, if_neg (by omega)] at hb
          exact Option.some.inj hb
        rw [if_neg hle]
        simp only [getHeader, hw]
        rw [if_pos (by omega), ih hw (by omega) (by omega),
          show v.height - target = w.height - target + 1 by omega,
          Function.iterate_succ_apply, up_eq hv (by omega)]

end

/-- **A header tree**: every header is stored under its hash, and one above its
parent. -/
structure Tree [Hashing] (ix : HeaderIndex) : Prop where
  graded : Graded parent height ix.headers
  keyed : ∀ hash stored, ix.headers hash = some stored → stored.header.blockHash = hash

/-- **In a tree, a stored header is an ancestor exactly if `getAncestor` finds
it at its height.** -/
theorem Tree.ancestor_iff_getAncestor [Hashing] (h : ix.Tree) (hv : ix.headers a = some v)
    (hw : ix.headers b = some w) :
    Ancestor parent ix.headers a b
      ↔ (ix.getAncestor a w.height).map (fun x => x.header.blockHash) = some b := by
  rw [h.graded.ancestor_iff hv hw]
  unfold getAncestor
  simp only [getHeader, hv]
  by_cases hle : w.height ≤ v.height
  · -- as many steps up as the other is lower
    obtain ⟨x, hx, -⟩ := h.graded.exists_iterate_up hv (v.height - w.height)
    rw [if_neg (Nat.not_lt.mpr hle), ancestorWalk_eq_iterate_up h.graded hv hle (Nat.sub_le _ _),
      hx, Option.map_some, h.keyed _ x hx, Option.some.injEq]
    exact and_iff_right hle
  · rw [if_pos (Nat.not_le.mp hle)]
    exact iff_of_false (fun hand => hle hand.1) (by simp)

end HeaderIndex

/-! ## Waived by height, trusted by ancestry -/

namespace ChainState

/-- The assume-valid block or an ancestor of it. -/
def AssumedValid (s : ChainState) (hash : Hash) : Prop :=
  ∃ av, s.params.assumeValid = some av
    ∧ Ancestor parent s.headerIndex.headers av hash

/-- **The block is found on the way down from the assume-valid block**, at its
own height, in case that block's header is known and not below `height`. -/
def OnAssumedBranch [Hashing] (s : ChainState) (hash : Hash) (height : Nat) : Prop :=
  ∀ av stored, s.params.assumeValid = some av → s.headerIndex.getHeader av = some stored →
    height ≤ stored.height →
      ∃ b, s.headerIndex.getHeader hash = some b
        ∧ (s.headerIndex.getAncestor av b.height).map (fun x => x.header.blockHash) = some hash

/-- When a block is waived. -/
theorem verifyScripts_eq_false_iff {s : ChainState} {hash : Hash} {height : Nat} :
    s.verifyScripts hash height = false ↔
      ∃ av, s.params.assumeValid = some av ∧ (hash = av ∨
        ∃ stored, s.headerIndex.getHeader av = some stored ∧ height ≤ stored.height) := by
  unfold verifyScripts
  cases s.params.assumeValid with
  | none => simp
  | some av =>
    by_cases heq : hash = av
    · simp [heq]
    · cases hav : s.headerIndex.getHeader av with
      | none => simp [heq, hav]
      | some stored => simp [heq, hav]

variable [Hashing] [ScriptEngine]

/-- If the block is connected without its scripts being run, it is the
assume-valid block or an ancestor of it. -/
def WaivesAncestor (s : ChainState) (env : Env) (block : Block) (height : Nat) : Prop :=
  ∀ txids, (s.connectBlock env block height).1 = .ok txids →
    s.verifyScripts block.blockHash height = false → s.AssumedValid block.blockHash

/-- **Only an ancestor is waived exactly if the block is on the assumed
branch**, for every block that is connected, at any height and on any
branch. -/
theorem waivesAncestor_iff {s : ChainState} (htree : s.headerIndex.Tree) {env : Env}
    {block : Block} {height : Nat} {txids : List Hash}
    (haccepted : (s.connectBlock env block height).1 = .ok txids) :
    s.WaivesAncestor env block height ↔ s.OnAssumedBranch block.blockHash height := by
  constructor
  · intro h av stored hav hstored hle
    obtain ⟨av', hav', hanc⟩ := h txids haccepted
      (verifyScripts_eq_false_iff.mpr ⟨av, hav, Or.inr ⟨stored, hstored, hle⟩⟩)
    obtain rfl := Option.mem_unique hav hav'
    -- an ancestor of a stored header is stored
    obtain ⟨b, hb⟩ := Option.isSome_iff_exists.mp
      (hanc.isSome htree.graded.closed (Option.isSome_iff_exists.mpr ⟨stored, hstored⟩))
    exact ⟨b, hb, (htree.ancestor_iff_getAncestor hstored hb).mp hanc⟩
  · intro h _ _ hskip
    obtain ⟨av, hav, heq | ⟨stored, hstored, hle⟩⟩ := verifyScripts_eq_false_iff.mp hskip
    · exact ⟨av, hav, heq ▸ Ancestor.refl _⟩
    · obtain ⟨b, hb, hget⟩ := h av stored hav hstored hle
      exact ⟨av, hav, (htree.ancestor_iff_getAncestor hstored hb).mpr hget⟩

end ChainState

/-- Every block that is connected without its scripts being run is the
assume-valid block or an ancestor of it. -/
def WaivesOnlyAssumed : Prop :=
  ∀ [Hashing] [ScriptEngine] (s : ChainState) (env : Env) (block : Block) (height : Nat),
    s.headerIndex.Tree → s.WaivesAncestor env block height

section Sample

/-- Every script fails. -/
@[reducible] def refusingScripts : ScriptEngine :=
  ⟨fun _ _ _ _ => .error (.invalidScript "script evaluated to false")⟩

attribute [local instance] sampleHashing refusingScripts

/-- Headers 1, 2 and 3, of which 3 is assumed valid; the tip is block 1, and a
coin is unspent. -/
def assumingChain : ChainState :=
  { sampleState (sampleIndex [(3, 2, 2), (2, 1, 1), (1, 0, 0)])
      (sampleStore [(⟨5#256, 0⟩, ⟨10, [0x51], 0, false⟩)]) 1 0 with
    params := { ConsensusParams.regtest with assumeValid := some 3#256 } }

/-- A block on the first one that spends the coin with a script that fails. -/
def waivedBlock (nonce : Nat) : Block :=
  sampleBlock 1 nonce 10 1 77 [sampleSpend 78 [⟨5#256, 0⟩] [10]]

theorem headers_assumingChain {hash : Hash} {stored : StoredHeader}
    (h : assumingChain.headerIndex.headers hash = some stored) :
    (hash = 3 ∧ stored = ⟨sampleHeader 2 3 2 0, 2, zeroWork⟩)
      ∨ (hash = 2 ∧ stored = ⟨sampleHeader 1 2 1 0, 1, zeroWork⟩)
      ∨ (hash = 1 ∧ stored = ⟨sampleHeader 0 1 0 0, 0, zeroWork⟩) := by
  simp only [assumingChain, sampleState, sampleIndex, HeaderIndex.insertHeader,
    Function.update_apply] at h
  split_ifs at h with h₁ h₂ h₃
  · exact Or.inl ⟨h₁, (Option.some.inj h).symm⟩
  · exact Or.inr (Or.inl ⟨h₂, (Option.some.inj h).symm⟩)
  · exact Or.inr (Or.inr ⟨h₃, (Option.some.inj h).symm⟩)
  · cases h

theorem tree_assumingChain : assumingChain.headerIndex.Tree := by
  constructor
  · intro hash stored h
    rcases headers_assumingChain h with ⟨-, rfl⟩ | ⟨-, rfl⟩ | ⟨-, rfl⟩
    · exact Or.inr ⟨2, ⟨sampleHeader 1 2 1 0, 1, zeroWork⟩, by decide, by decide, by decide⟩
    · exact Or.inr ⟨1, ⟨sampleHeader 0 1 0 0, 0, zeroWork⟩, by decide, by decide, by decide⟩
    · exact Or.inl ⟨by decide, by decide⟩
  · intro hash stored h
    rcases headers_assumingChain h with ⟨rfl, rfl⟩ | ⟨rfl, rfl⟩ | ⟨rfl, rfl⟩ <;> decide

theorem connected_waivedBlock (nonce : Nat) (h : nonce = 2 ∨ nonce = 4) :
    (assumingChain.connectBlock sampleEnv (waivedBlock nonce) 1).1 = .ok [77#256, 78#256] := by
  rcases h with rfl | rfl <;> decide +kernel

/-- Block 2 is waived, as an ancestor of block 3. -/
theorem waivesAncestor_secondBlock :
    assumingChain.verifyScripts (waivedBlock 2).blockHash 1 = false
      ∧ assumingChain.WaivesAncestor sampleEnv (waivedBlock 2) 1 :=
  ⟨by decide, (ChainState.waivesAncestor_iff tree_assumingChain
    (connected_waivedBlock 2 (Or.inl rfl))).mpr fun av stored hav hstored _ => by
      obtain rfl := Option.some.inj hav
      exact ⟨⟨sampleHeader 1 2 1 0, 1, zeroWork⟩, by decide, by decide⟩⟩

/-- **A block beside the assumed chain is waived**: block 4 forks off below
block 3, is not higher, and spends the coin although its script fails. -/
theorem not_waivesOnlyAssumed : ¬ WaivesOnlyAssumed := by
  intro h
  obtain ⟨av, hav, hanc⟩ := h assumingChain sampleEnv (waivedBlock 4) 1 tree_assumingChain
    [77#256, 78#256] (connected_waivedBlock 4 (Or.inr rfl)) (by decide)
  obtain rfl := Option.some.inj hav
  obtain ⟨stored, hstored⟩ := Option.isSome_iff_exists.mp
    (hanc.isSome tree_assumingChain.graded.closed (by decide))
  rcases headers_assumingChain hstored with ⟨heq, -⟩ | ⟨heq, -⟩ | ⟨heq, -⟩ <;>
    exact absurd heq (by decide)

end Sample
