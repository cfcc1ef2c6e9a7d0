import BitcoinPR.Lib.PartialMap

/-!
# Undo logs that delete before they put back

A store moves up through levels. A level binds the keys it creates and then
unbinds the keys it spends, and keeps what it spent. It is undone by deleting
the keys it created and *then* putting back what it spent – the same two
passes in the same order, so that a key the level both created and spent is
bound afterwards.

Undoing a run of levels from the top therefore leaves a key as the lowest
level that touched it left it: bound if that level spent it, unbound if it
only created it. `undoAll_redoAll_iff` says when this is what the key was
before the run, and `undoAll_eq_redoAll_iff` when it is what the key was after
it, provided that values tell the level they were created at.
-/

open PartialMap Option Prod

namespace UndoLog

variable {K V : Type} [DecidableEq K]

/-- What a level created and what it spent, with the values spent. -/
structure Level (K V : Type) where
  creates : List (K × V)
  spends : List (K × V)

namespace Level

def touches (l : Level K V) (k : K) : Bool :=
  decide (k ∈ l.creates.map fst ∨ k ∈ l.spends.map fst)

/-- Go up one level. -/
def redo (l : Level K V) (m : K → Option V) : K → Option V :=
  PartialMap.eraseAll (PartialMap.putAll m l.creates) (l.spends.map fst)

/-- Go down one level. -/
def undo (l : Level K V) (m : K → Option V) : K → Option V :=
  PartialMap.putAll (PartialMap.eraseAll m (l.creates.map fst)) l.spends

/-- The value a level keeps for a key it spent. -/
def kept (l : Level K V) (k : K) : Option V := PartialMap.putAll (fun _ => none) l.spends k

/-- What a level spends was there, or is created in it. -/
def Valid (base : K → Option V) (l : Level K V) : Prop :=
  ∀ p ∈ l.spends, base p.1 = some p.2 ∨ (base p.1 = none ∧ p ∈ l.creates)

variable {l : Level K V} {k : K}

theorem touches_eq_false :
    l.touches k = false ↔ k ∉ l.creates.map fst ∧ k ∉ l.spends.map fst := by
  rw [touches, decide_eq_false_iff_not, not_or]

theorem isSome_kept : (l.kept k).isSome ↔ k ∈ l.spends.map fst :=
  (isSome_putAll _).trans (or_iff_left fun h => by cases h)

theorem undo_of_touches (h : l.touches k = true) (m : K → Option V) : l.undo m k = l.kept k := by
  by_cases hs : k ∈ l.spends.map fst
  · exact putAll_eq_of_mem _ _ hs
  · have hc := (of_decide_eq_true h).resolve_right hs
    rw [undo, kept, putAll_of_notMem _ hs, putAll_of_notMem _ hs, eraseAll_apply, if_pos hc]

theorem undo_of_not_touches (h : l.touches k = false) (m : K → Option V) :
    l.undo m k = m k := by
  obtain ⟨hc, hs⟩ := touches_eq_false.mp h
  rw [undo, putAll_of_notMem _ hs, eraseAll_apply, if_neg hc]

theorem redo_of_not_touches (h : l.touches k = false) (m : K → Option V) :
    l.redo m k = m k := by
  obtain ⟨hc, hs⟩ := touches_eq_false.mp h
  rw [redo, eraseAll_apply, if_neg hs, putAll_of_notMem _ hc]

theorem redo_of_mem_spends (h : k ∈ l.spends.map fst) (m : K → Option V) :
    l.redo m k = none := by
  rw [redo, eraseAll_apply, if_pos h]

theorem exists_redo_of_not_mem_spends (h : l.touches k = true) (hs : k ∉ l.spends.map fst)
    (m : K → Option V) : ∃ v, (k, v) ∈ l.creates ∧ l.redo m k = some v := by
  obtain ⟨v, hv, hput⟩ := exists_putAll_of_mem m ((of_decide_eq_true h).resolve_right hs)
  exact ⟨v, hv, by rw [redo, eraseAll_apply, if_neg hs, hput]⟩

end Level

/-! ## Runs of levels, top first -/

/-- Go up through all levels. -/
def redoAll : List (Level K V) → (K → Option V) → K → Option V
  | [], m => m
  | l :: ls, m => l.redo (redoAll ls m)

/-- Go down through all levels. -/
def undoAll : List (Level K V) → (K → Option V) → K → Option V
  | [], m => m
  | l :: ls, m => undoAll ls (l.undo m)

/-- The lowest level that touches a key. -/
def lowest : List (Level K V) → K → Option (Level K V)
  | [], _ => none
  | l :: ls, k => (lowest ls k).or (if l.touches k then some l else none)

/-- The highest level that touches a key. -/
def highest : List (Level K V) → K → Option (Level K V)
  | [], _ => none
  | l :: ls, k => if l.touches k then some l else highest ls k

/-- Every level is valid over those below it. -/
def ValidOver (base : K → Option V) : List (Level K V) → Prop
  | [] => True
  | l :: ls => l.Valid (redoAll ls base) ∧ ValidOver base ls

/-- **The undone run is as if it never was**: a key created by the lowest level
that touches it is spent in that level exactly if it was there before. -/
def Restores (base : K → Option V) (ls : List (Level K V)) : Prop :=
  ∀ k low, lowest ls k = some low → k ∈ low.creates.map fst →
    (k ∈ low.spends.map fst ↔ (base k).isSome)

/-- **The run changes nothing**: every key it touches is first created only and
at last spent. -/
def Cancels (ls : List (Level K V)) : Prop :=
  ∀ k low high, lowest ls k = some low → highest ls k = some high →
    k ∉ low.spends.map fst ∧ k ∈ high.spends.map fst

variable {base : K → Option V} {ls : List (Level K V)} {k : K} {low high : Level K V}

/-- A run touches a key in a lowest level if in a highest one. -/
theorem lowest_eq_none_iff : lowest ls k = none ↔ highest ls k = none := by
  induction ls with
  | nil => exact Iff.rfl
  | cons l ls ih =>
    rw [lowest, highest]
    split
    · simp
    · simp [ih]

theorem touches_of_lowest (h : lowest ls k = some low) : low.touches k = true := by
  induction ls with
  | nil => cases h
  | cons l ls ih =>
    rw [lowest, or_eq_some_iff] at h
    rcases h with h | ⟨-, h⟩
    · exact ih h
    · split at h
      · exact Option.some.inj h ▸ ‹l.touches k = true›
      · cases h

theorem redoAll_of_highest_none (h : highest ls k = none) (m : K → Option V) :
    redoAll ls m k = m k := by
  induction ls with
  | nil => rfl
  | cons l ls ih =>
    rw [highest] at h
    split at h
    · cases h
    · rw [redoAll, Level.redo_of_not_touches (eq_false_of_ne_true ‹_›), ih h]

theorem undoAll_of_lowest_none (h : lowest ls k = none) (m : K → Option V) :
    undoAll ls m k = m k := by
  induction ls generalizing m with
  | nil => rfl
  | cons l ls ih =>
    rw [lowest, or_eq_none_iff] at h
    rw [undoAll, ih h.1]
    refine Level.undo_of_not_touches (eq_false_of_ne_true fun ht => ?_) m
    rw [if_pos ht] at h
    cases h.2

/-- **Undone, a key reads what the lowest level that touched it keeps.** -/
theorem undoAll_of_lowest (h : lowest ls k = some low) (m : K → Option V) :
    undoAll ls m k = low.kept k := by
  induction ls generalizing m with
  | nil => cases h
  | cons l ls ih =>
    rw [undoAll]
    rw [lowest, or_eq_some_iff] at h
    rcases h with h | ⟨hnone, h⟩
    · exact ih h _
    · rw [undoAll_of_lowest_none hnone]
      split at h
      · rw [← Option.some.inj h]
        exact Level.undo_of_touches ‹_› m
      · cases h

theorem redoAll_of_mem_spends (h : highest ls k = some high)
    (hs : k ∈ high.spends.map fst) (m : K → Option V) : redoAll ls m k = none := by
  induction ls with
  | nil => cases h
  | cons l ls ih =>
    rw [highest] at h
    rw [redoAll]
    split at h
    · rw [← Option.some.inj h] at hs
      exact Level.redo_of_mem_spends hs _
    · rw [Level.redo_of_not_touches (eq_false_of_ne_true ‹_›), ih h]

theorem isSome_redoAll (h : highest ls k = some high)
    (hs : k ∉ high.spends.map fst) (m : K → Option V) : (redoAll ls m k).isSome := by
  induction ls with
  | nil => cases h
  | cons l ls ih =>
    rw [highest] at h
    rw [redoAll]
    split at h
    · rw [← Option.some.inj h] at hs
      obtain ⟨v, -, hv⟩ := Level.exists_redo_of_not_mem_spends ‹_› hs (redoAll ls m)
      rw [hv]
      rfl
    · rw [Level.redo_of_not_touches (eq_false_of_ne_true ‹_›)]
      exact ih h

/-- What the lowest level that touched a key keeps for it is what the key was
before the run, or else created by that level. -/
theorem kept_lowest (hv : ValidOver base ls) (h : lowest ls k = some low) {v : V}
    (hk : low.kept k = some v) : base k = some v ∨ (base k = none ∧ (k, v) ∈ low.creates) := by
  induction ls with
  | nil => cases h
  | cons l ls ih =>
    rw [lowest, or_eq_some_iff] at h
    rcases h with h | ⟨hnone, h⟩
    · exact ih hv.2 h
    · split at h
      · obtain rfl := Option.some.inj h
        have hl := hv.1 (k, v) (mem_of_putAll_none hk)
        rwa [redoAll_of_highest_none (lowest_eq_none_iff.mp hnone)] at hl
      · cases h

/-- **When undoing a run restores what was there before it.** -/
theorem undoAll_redoAll_iff (hv : ValidOver base ls) :
    undoAll ls (redoAll ls base) = base ↔ Restores base ls := by
  constructor
  · intro heq k low hlow hc
    have hk := congrFun heq k
    rw [undoAll_of_lowest hlow] at hk
    rw [← hk, Level.isSome_kept]
  · intro h
    funext k
    cases hlow : lowest ls k with
    | none =>
      rw [undoAll_of_lowest_none hlow, redoAll_of_highest_none (lowest_eq_none_iff.mp hlow)]
    | some low =>
      rw [undoAll_of_lowest hlow]
      cases hk : low.kept k with
      | none =>
        -- not spent, so created, and then not there before
        have hs : k ∉ low.spends.map fst := fun hs => by
          have := Level.isSome_kept.mpr hs
          rw [hk] at this
          cases this
        have hc := (of_decide_eq_true (touches_of_lowest hlow)).resolve_right hs
        have hnone := (h k low hlow hc).not.mp hs
        exact (not_isSome_iff_eq_none.mp hnone).symm
      | some v =>
        rcases kept_lowest hv hlow hk with hb | ⟨hnone, hc⟩
        · exact hb.symm
        · have hs := Level.isSome_kept.mp (isSome_iff_exists.mpr ⟨v, hk⟩)
          have hsome := (h k low hlow (List.mem_map.mpr ⟨_, hc, rfl⟩)).mp hs
          rw [hnone] at hsome
          cases hsome

/-! ## Values that tell their level -/

section Stamped

variable {stamp : V → Nat} {n : Nat}

/-- The values created by the levels over height `n` are stamped with the
height of their level. -/
def Stamped (stamp : V → Nat) (n : Nat) : List (Level K V) → Prop
  | [] => True
  | l :: ls => (∀ p ∈ l.creates, stamp p.2 = n + ls.length + 1) ∧ Stamped stamp n ls

variable (hst : Stamped stamp n ls) (hbase : ∀ k v, base k = some v → stamp v ≤ n)
  (hv : ValidOver base ls)
include hst hbase hv

theorem stamp_kept_le (h : lowest ls k = some low) {v : V} (hk : low.kept k = some v) :
    stamp v ≤ n + ls.length := by
  rcases kept_lowest hv h hk with hb | ⟨-, hc⟩
  · exact Nat.le_trans (hbase k v hb) (Nat.le_add_right n _)
  · clear hv hk
    induction ls with
    | nil => cases h
    | cons l ls ih =>
      rw [lowest, or_eq_some_iff] at h
      rcases h with h | ⟨-, h⟩
      · exact Nat.le_trans (ih hst.2 h) (by rw [List.length_cons]; omega)
      · split at h
        · rw [← Option.some.inj h] at hc
          exact Nat.le_of_eq (hst.1 _ hc)
        · cases h

/-- What a level keeps for a key is not what the run leaves, unless the run
leaves the key spent. -/
theorem redoAll_ne_kept (hlow : lowest ls k = some low) (hhigh : highest ls k = some high)
    (hs : k ∉ high.spends.map fst) {v : V} (hk : low.kept k = some v) :
    redoAll ls base k ≠ some v := by
  induction ls with
  | nil => cases hlow
  | cons l ls ih =>
    rw [lowest, or_eq_some_iff] at hlow
    rw [highest] at hhigh
    rw [redoAll]
    rcases hlow with hlow | ⟨-, hlow⟩
    · have hle := stamp_kept_le hst.2 hbase hv.2 hlow hk
      split at hhigh
      · -- the top level created the key anew, with a later stamp
        rw [← Option.some.inj hhigh] at hs
        obtain ⟨w, hw, hredo⟩ := Level.exists_redo_of_not_mem_spends ‹_› hs (redoAll ls base)
        rw [hredo]
        rintro ⟨⟩
        have hstamp := hst.1 _ hw
        dsimp only at hstamp
        omega
      · rw [Level.redo_of_not_touches (eq_false_of_ne_true ‹_›)]
        exact ih hst.2 hv.2 hlow hhigh
    · split at hlow
      · -- one level is the lowest and the highest
        rw [if_pos ‹_›] at hhigh
        obtain rfl := Option.some.inj hlow
        obtain rfl := Option.some.inj hhigh
        exact absurd (Level.isSome_kept.mp (isSome_iff_exists.mpr ⟨v, hk⟩)) hs
      · cases hlow

/-- **When undoing a run leaves what was there after it.** -/
theorem undoAll_eq_redoAll_iff :
    undoAll ls (redoAll ls base) = redoAll ls base ↔ Cancels ls := by
  constructor
  · intro heq k low high hlow hhigh
    have hk := congrFun heq k
    rw [undoAll_of_lowest hlow] at hk
    have hns : k ∉ low.spends.map fst := by
      intro hs
      obtain ⟨v, hkept⟩ := isSome_iff_exists.mp (Level.isSome_kept.mpr hs)
      by_cases hs' : k ∈ high.spends.map fst
      · rw [redoAll_of_mem_spends hhigh hs', hkept] at hk
        cases hk
      · exact redoAll_ne_kept hst hbase hv hlow hhigh hs' hkept (hk.symm.trans hkept)
    refine ⟨hns, by_contra fun hs => ?_⟩
    have hsome := isSome_redoAll hhigh hs base
    rw [← hk, Level.isSome_kept] at hsome
    exact hns hsome
  · intro h
    funext k
    cases hlow : lowest ls k with
    | none => exact undoAll_of_lowest_none hlow _
    | some low =>
      cases hhigh : highest ls k with
      | none =>
        rw [lowest_eq_none_iff.mpr hhigh] at hlow
        cases hlow
      | some high =>
        obtain ⟨hns, hs⟩ := h k low high hlow hhigh
        rw [undoAll_of_lowest hlow, redoAll_of_mem_spends hhigh hs]
        exact not_isSome_iff_eq_none.mp (Level.isSome_kept.not.mpr hns)

end Stamped

end UndoLog
