import BitcoinPR.Storage.Undo

/-!
# What the write buffer counts

The write buffer keeps three counters beside its entries: how many inserts it
has, how many tombstones, and what all of it costs in bytes. A write adjusts
them for what it replaces, and a flush sets them to zero with the rest.

Deleting an undo record is the one call that forgets its share. If the record is
still in the buffer it goes, and its bytes stay counted until a flush that
writes. So the counters are right all along exactly if no call deletes a record
that is still buffered.
-/

open List

/-- What a buffered entry costs. -/
def entryCost : Option UtxoEntry → Nat
  | some e => insertCost e
  | none => deletionCost

/-- What the undo records of a buffer cost. -/
def undoCost (undos : List (Hash × Bytes)) : Nat :=
  (undos.map fun p => undoBaseCost + p.2.length).sum

/-- Records left out are not charged for. -/
theorem undoCost_filter_iff (hash : Hash) (undos : List (Hash × Bytes)) :
    undoCost (undos.filter fun p => p.1 != hash) = undoCost undos
      ↔ hash ∉ undos.map Prod.fst := by
  have hle : ∀ l : List (Hash × Bytes),
      undoCost (l.filter fun p => p.1 != hash) ≤ undoCost l :=
    fun l => (filter_sublist.map _).sum_le_sum fun _ _ => Nat.zero_le _
  induction undos with
  | nil => exact iff_of_true rfl not_mem_nil
  | cons p l ih =>
    rw [map_cons, mem_cons, not_or]
    have hcons : undoCost (p :: l) = undoBaseCost + p.2.length + undoCost l := rfl
    by_cases hp : p.1 = hash
    · rw [filter_cons_of_neg (by simp [hp]), hcons]
      have hcost : 0 < undoBaseCost := by decide
      exact iff_of_false (by have := hle l; omega) fun hne => hne.1 hp.symm
    · rw [filter_cons_of_pos (by simp [hp]), hcons, and_iff_right (Ne.symm hp)]
      exact Nat.add_left_cancel_iff.trans ih

namespace WriteBuffer

variable {wb wb' : WriteBuffer}

/-- A weight, summed over the buffered entries. -/
def tally (wb : WriteBuffer) (f : Option UtxoEntry → Nat) : Nat :=
  (wb.entries.entries.map fun p => f p.2).sum

/-- **The counters are right.** -/
structure Accounted (wb : WriteBuffer) : Prop where
  insertCount : wb.insertCount = wb.tally fun v => v.isSome.toNat
  deletionCount : wb.deletionCount = wb.tally fun v => v.isNone.toNat
  bytes : wb.bytes = wb.tally entryCost + undoCost wb.undoBuffer

/-- Whatever entry is replaced, what the write subtracts for it is there. -/
def Covered (wb : WriteBuffer) : Prop :=
  ∀ o v, wb.entries.lookup o = some v → entryCost v ≤ wb.bytes
    ∧ v.isSome.toNat ≤ wb.insertCount ∧ v.isNone.toNat ≤ wb.deletionCount

/-- Nothing that a batch subtracts, write by write, is missing. -/
def CoversBatch (wb : WriteBuffer) (b : UtxoBatch) : Prop :=
  (∀ done, done <+: b.inserts → (done.foldl insert wb).Covered)
    ∧ ∀ done, done <+: b.removals → (done.foldl remove (b.inserts.foldl insert wb)).Covered

/-- A write trades the weight of what it replaces for that of what it writes. -/
theorem tally_insert {o : OutPoint} {v : Option UtxoEntry} (f : Option UtxoEntry → Nat)
    (he : wb'.entries = wb.entries.insert o v) :
    wb'.tally f + (wb.entries.lookup o).elim 0 f = wb.tally f + f v := by
  have hkerase : ∀ l : List (Σ _ : OutPoint, Option UtxoEntry),
      ((kerase o l).map fun p => f p.2).sum + (dlookup o l).elim 0 f
        = (l.map fun p => f p.2).sum := by
    intro l
    induction l with
    | nil => rfl
    | cons p l ih =>
      by_cases ho : o = p.1
      · obtain ⟨o', w⟩ := p
        obtain rfl : o = o' := ho
        simp [Nat.add_comm]
      · rw [kerase_cons_ne ho, dlookup_cons_ne l p ho, map_cons, sum_cons, map_cons, sum_cons,
          Nat.add_assoc, ih]
  have htally := hkerase wb.entries.entries
  simp only [tally, he, AList.entries_insert, map_cons, sum_cons, AList.lookup]
  omega

theorem Accounted.covered (h : wb.Accounted) : wb.Covered := by
  intro o v hv
  have hle : ∀ f : Option UtxoEntry → Nat, f v ≤ wb.tally f := fun f =>
    le_sum_of_mem (mem_map.mpr ⟨⟨o, v⟩, AList.mem_lookup_iff.mp hv, rfl⟩)
  rw [h.insertCount, h.deletionCount, h.bytes]
  exact ⟨(hle entryCost).trans (Nat.le_add_right _ _), hle fun v => v.isSome.toNat,
    hle fun v => v.isNone.toNat⟩

/-- **A write keeps the counters right** if it trades in each as in the tally. -/
theorem Accounted.of_write (h : wb.Accounted) {o : OutPoint} {v : Option UtxoEntry}
    (he : wb'.entries = wb.entries.insert o v) (hu : wb'.undoBuffer = wb.undoBuffer)
    (hi : wb'.insertCount + (wb.entries.lookup o).elim 0 (fun w => w.isSome.toNat)
      = wb.insertCount + v.isSome.toNat)
    (hd : wb'.deletionCount + (wb.entries.lookup o).elim 0 (fun w => w.isNone.toNat)
      = wb.deletionCount + v.isNone.toNat)
    (hb : wb'.bytes + (wb.entries.lookup o).elim 0 entryCost = wb.bytes + entryCost v) :
    wb'.Accounted := by
  have htally := fun f => tally_insert f he
  refine ⟨?_, ?_, ?_⟩
  · have := htally fun w => w.isSome.toNat
    rw [h.insertCount] at hi
    omega
  · have := htally fun w => w.isNone.toNat
    rw [h.deletionCount] at hd
    omega
  · have := htally entryCost
    rw [h.bytes] at hb
    rw [hu]
    omega

theorem Accounted.insert (h : wb.Accounted) (p : OutPoint × UtxoEntry) :
    (wb.insert p).Accounted := by
  rcases hl : wb.entries.lookup p.1 with - | - | old
  · refine h.of_write (o := p.1) (v := some p.2) rfl ?_ ?_ ?_ ?_
    all_goals simp [WriteBuffer.insert, hl, entryCost]
  · obtain ⟨hb, -, hd⟩ := h.covered p.1 none hl
    refine h.of_write (o := p.1) (v := some p.2) rfl ?_ ?_ ?_ ?_
    all_goals simp [WriteBuffer.insert, hl, entryCost] at hb hd ⊢
    all_goals omega
  · obtain ⟨hb, -⟩ := h.covered p.1 (some old) hl
    refine h.of_write (o := p.1) (v := some p.2) rfl ?_ ?_ ?_ ?_
    all_goals simp [WriteBuffer.insert, hl, entryCost] at hb ⊢
    omega

theorem Accounted.remove (h : wb.Accounted) (o : OutPoint) : (wb.remove o).Accounted := by
  rcases hl : wb.entries.lookup o with - | - | old
  · refine h.of_write (o := o) (v := none) rfl ?_ ?_ ?_ ?_
    all_goals simp [WriteBuffer.remove, hl, entryCost]
  · refine h.of_write (o := o) (v := none) rfl ?_ ?_ ?_ ?_
    all_goals simp [WriteBuffer.remove, hl, entryCost]
  · obtain ⟨hb, hi, -⟩ := h.covered o (some old) hl
    refine h.of_write (o := o) (v := none) rfl ?_ ?_ ?_ ?_
    all_goals simp [WriteBuffer.remove, hl, entryCost] at hb hi ⊢
    all_goals omega

theorem Accounted.inserts (h : wb.Accounted) (l : List (OutPoint × UtxoEntry)) :
    (l.foldl WriteBuffer.insert wb).Accounted :=
  foldlRecOn l _ h fun _ hw p _ => hw.insert p

theorem Accounted.removals (h : wb.Accounted) (l : List OutPoint) :
    (l.foldl WriteBuffer.remove wb).Accounted :=
  foldlRecOn l _ h fun _ hw o _ => hw.remove o

end WriteBuffer

namespace UtxoSet

/-- The calls that change the write buffer's contents. -/
inductive BufferCall where
  | applyBatch (ρ : MapOrder) (b : UtxoBatch)
  | storeUndo (hash : Hash) (spent : List SpentUtxo) (created : List OutPoint) (prev : Hash)
  | deleteUndo (hash : Hash)
  | flushToDisk (ρ : MapOrder)

def call (s : UtxoSet) : BufferCall → UtxoSet
  | .applyBatch ρ b => (s.applyBatch ρ b).1
  | .storeUndo hash spent created prev => s.storeUndo hash spent created prev
  | .deleteUndo hash => s.deleteUndo hash
  | .flushToDisk ρ => s.flushToDisk ρ

/-- Nothing that a call subtracts is missing. -/
def CoversCall (s : UtxoSet) : BufferCall → Prop
  | .applyBatch _ b => s.writeBuffer.CoversBatch b
  | _ => True

/-- **The accounts are kept**: the counters are right before and after every
call, and no subtraction goes below zero. -/
def KeepsAccounts (s : UtxoSet) : List BufferCall → Prop
  | [] => s.writeBuffer.Accounted
  | c :: cs => s.writeBuffer.Accounted ∧ s.CoversCall c ∧ (s.call c).KeepsAccounts cs

/-- No call deletes an undo record that is still buffered. -/
def DeletesFlushed (s : UtxoSet) : List BufferCall → Prop
  | [] => True
  | c :: cs => (∀ hash, c = .deleteUndo hash → hash ∉ s.writeBuffer.undoBuffer.map Prod.fst)
    ∧ (s.call c).DeletesFlushed cs

variable {s : UtxoSet}

theorem KeepsAccounts.accounted {cs : List BufferCall} (h : s.KeepsAccounts cs) :
    s.writeBuffer.Accounted := by
  cases cs with
  | nil => exact h
  | cons c cs => exact h.1

variable (h : s.writeBuffer.Accounted)
include h

theorem accounted_flushToDisk (ρ : MapOrder) : (s.flushToDisk ρ).writeBuffer.Accounted := by
  unfold flushToDisk
  split
  · exact ⟨h.insertCount, h.deletionCount, h.bytes⟩
  · exact ⟨rfl, rfl, rfl⟩

theorem accounted_applyBatch (ρ : MapOrder) (b : UtxoBatch) :
    (s.applyBatch ρ b).1.writeBuffer.Accounted := by
  have hb : (s.bufferBatch b).writeBuffer.Accounted := by
    obtain ⟨hi, hd, hb⟩ := (h.inserts b.inserts).removals b.removals
    exact ⟨hi, hd, hb⟩
  have he : ((s.bufferBatch b).maybeEvictCache ρ).writeBuffer.Accounted := by
    unfold maybeEvictCache
    split <;> exact hb
  unfold applyBatch
  dsimp only
  split
  · exact accounted_flushToDisk he ρ
  · exact he

/-- Deleting a record keeps the counters right exactly if it is not buffered. -/
theorem accounted_deleteUndo_iff (hash : Hash) : (s.deleteUndo hash).writeBuffer.Accounted
    ↔ hash ∉ s.writeBuffer.undoBuffer.map Prod.fst := by
  have hiff : (s.deleteUndo hash).writeBuffer.Accounted
      ↔ undoCost (s.writeBuffer.undoBuffer.filter fun p => p.1 != hash)
        = undoCost s.writeBuffer.undoBuffer := by
    refine ⟨fun hd => ?_, fun heq => ⟨h.insertCount, h.deletionCount, ?_⟩⟩
    · exact (Nat.add_left_cancel (h.bytes.symm.trans hd.bytes)).symm
    · exact h.bytes.trans (congrArg _ heq.symm)
  rw [hiff, undoCost_filter_iff]

theorem accounted_storeUndo (hash : Hash) (spent : List SpentUtxo) (created : List OutPoint)
    (prev : Hash) : (s.storeUndo hash spent created prev).writeBuffer.Accounted := by
  refine ⟨h.insertCount, h.deletionCount, ?_⟩
  simp only [storeUndo, h.bytes, undoCost, map_append, sum_append, map_singleton, sum_singleton]
  exact Nat.add_assoc _ _ _

/-- **One call**, from right counters. -/
theorem coversCall (c : BufferCall) : s.CoversCall c := by
  cases c with
  | applyBatch ρ b => exact ⟨fun done _ => (h.inserts done).covered,
      fun done _ => ((h.inserts b.inserts).removals done).covered⟩
  | _ => trivial

/-- **Any calls**, from right counters. -/
theorem keepsAccounts_iff_deletesFlushed (cs : List BufferCall) :
    s.KeepsAccounts cs ↔ s.DeletesFlushed cs := by
  induction cs generalizing s with
  | nil => exact iff_of_true h trivial
  | cons c cs ih =>
    have hcall : (s.call c).writeBuffer.Accounted
        ↔ ∀ hash, c = .deleteUndo hash → hash ∉ s.writeBuffer.undoBuffer.map Prod.fst := by
      cases c with
      | applyBatch ρ b => exact iff_of_true (accounted_applyBatch h ρ b) fun _ heq => by cases heq
      | storeUndo hash spent created prev =>
        exact iff_of_true (accounted_storeUndo h hash spent created prev)
          fun _ heq => by cases heq
      | flushToDisk ρ => exact iff_of_true (accounted_flushToDisk h ρ) fun _ heq => by cases heq
      | deleteUndo hash =>
        refine (accounted_deleteUndo_iff h hash).trans
          ⟨fun hmem _ heq => ?_, fun hall => hall _ rfl⟩
        exact BufferCall.deleteUndo.inj heq ▸ hmem
    constructor
    · rintro ⟨-, -, hrest⟩
      exact ⟨hcall.mp hrest.accounted, (ih hrest.accounted).mp hrest⟩
    · rintro ⟨hkeeps, hrest⟩
      exact ⟨h, coversCall h c, (ih (hcall.mpr hkeeps)).mpr hrest⟩

omit h in
/-- **The counters of a store are right through any calls exactly if none of
them deletes an undo record that is still buffered.** -/
theorem keepsAccounts_openDb (db : UtxoDb) (cacheCapacity writeBufferBudget : Nat)
    (cs : List BufferCall) :
    (openDb db cacheCapacity writeBufferBudget).KeepsAccounts cs
      ↔ (openDb db cacheCapacity writeBufferBudget).DeletesFlushed cs :=
  keepsAccounts_iff_deletesFlushed ⟨rfl, rfl, rfl⟩ cs

omit h in
/-- The undo record of a block that was connected and undone between two flushes
stays in the count. -/
theorem not_keepsAccounts : ¬ ∀ (db : UtxoDb) (cacheCapacity writeBufferBudget : Nat)
    (cs : List BufferCall), (openDb db cacheCapacity writeBufferBudget).KeepsAccounts cs := by
  intro hall
  have hkeeps := hall ⟨fun _ => none, fun _ => none, none, none⟩ 0 0
    [.storeUndo 1 [] [] 0, .deleteUndo 1]
  have hdeletes := (keepsAccounts_iff_deletesFlushed ⟨rfl, rfl, rfl⟩ _).mp hkeeps
  exact hdeletes.2.1 1 rfl (mem_singleton.mpr rfl)

end UtxoSet
