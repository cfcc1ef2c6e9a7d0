import BitcoinPR.Storage.Coherence

/-!
# Readers beside the writer

`UtxoSet.get` takes the write-buffer lock for its first probe only. Mempool
acceptance, RPC and the web interface call it while the block-connecting
thread applies batches and flushes, so a lookup is really three atomic
steps – probe the buffer, probe the cache, read the disk and cache what was
read – between which the writer may move. `SharedStore` is that system: one
store, any number of readers, each in one of three phases.

Run without interruption the three steps are the sequential lookup
(`steps_get`). Interleaved, the third step is the delicate one. If the
writer has put the key in the buffer since the first probe, the value on
disk is the *old* one, and caching it plants a coin that the next flush
will not displace. A schedule in which no reader reaches the disk with its
key pending in the buffer keeps the store sound.
-/

open List UtxoSet UtxoSet.Recached

/-- Where a reader is in its lookup. -/
inductive ReaderPhase where
  | idle
  | bufferMissed (o : OutPoint)
  | cacheMissed (o : OutPoint)
deriving DecidableEq, Repr

/-- The store and its readers. -/
structure SharedStore where
  store : UtxoSet
  phase : Nat → ReaderPhase

/-- One atomic step: a reader's, or the writer's. -/
inductive StoreAction where
  | probeBuffer (r : Nat) (o : OutPoint)
  | probeCache (r : Nat)
  | readDisk (r : Nat)
  | applyBatch (ρ : MapOrder) (b : UtxoBatch)
  | flushToDisk (ρ : MapOrder)

/-- The step inserts a coin at an outpoint. -/
def StoreAction.Inserts (o : OutPoint) : StoreAction → Prop
  | applyBatch _ b => o ∈ b.inserts.map Prod.fst
  | _ => False

/-- What a lookup that ends returns, with the outpoint it was for. -/
abbrev Answer := OutPoint × Except StorageError (Option UtxoEntry)

namespace SharedStore

/-- A freshly opened store, every reader idle. -/
def start (db : UtxoDb) (cap budget : Nat) : SharedStore :=
  ⟨UtxoSet.openDb db cap budget, fun _ => .idle⟩

def setPhase (s : SharedStore) (r : Nat) (p : ReaderPhase) : SharedStore :=
  { s with phase := Function.update s.phase r p }

/-- First step of a lookup: a pending change is the answer. -/
def probeBuffer (s : SharedStore) (r : Nat) (o : OutPoint) : SharedStore × Option Answer :=
  match s.phase r with
  | .idle =>
    match s.store.writeBuffer.entries.lookup o with
    | some v => (s, some (o, .ok v))
    | none => (s.setPhase r (.bufferMissed o), none)
  | _ => (s, none)

/-- Second step: a cached coin is the answer. -/
def probeCache (s : SharedStore) (r : Nat) : SharedStore × Option Answer :=
  match s.phase r with
  | .bufferMissed o =>
    match s.store.cache.lookup o with
    | some c => (s.setPhase r .idle, some (o, .ok (some c.toEntry)))
    | none => (s.setPhase r (.cacheMissed o), none)
  | _ => (s, none)

/-- Third step: the coin on disk is the answer, and is cached. -/
def readDisk (s : SharedStore) (r : Nat) : SharedStore × Option Answer :=
  match s.phase r with
  | .cacheMissed o =>
    match s.store.db.utxo o with
    | none => (s.setPhase r .idle, some (o, .ok none))
    | some data =>
      match UtxoEntry.deserialize data with
      | .error e => (s.setPhase r .idle, some (o, .error e))
      | .ok e =>
        ({ s.setPhase r .idle with
            store := { s.store with cache := s.store.cache.insert o (CompactCoin.new e) } },
          some (o, .ok (some e)))
  | _ => (s, none)

/-- One step, and the answer of the lookup it ends, if it ends one. A step
of a reader that is not in the phase for it changes nothing. -/
def step (s : SharedStore) : StoreAction → SharedStore × Option Answer
  | .probeBuffer r o => s.probeBuffer r o
  | .probeCache r => s.probeCache r
  | .readDisk r => s.readDisk r
  | .applyBatch ρ b => ({ s with store := (s.store.applyBatch ρ b).1 }, none)
  | .flushToDisk ρ => ({ s with store := s.store.flushToDisk ρ }, none)

/-- A schedule: the state it ends in and the answers given on the way. -/
def run (s : SharedStore) : List StoreAction → SharedStore × List Answer
  | [] => (s, [])
  | a :: as =>
    let (s₁, ans) := s.step a
    let (s₂, rest) := s₁.run as
    (s₂, ans.toList ++ rest)

theorem run_append (s : SharedStore) (as bs : List StoreAction) :
    s.run (as ++ bs)
      = (((s.run as).1.run bs).1, (s.run as).2 ++ ((s.run as).1.run bs).2) := by
  induction as generalizing s with
  | nil => rfl
  | cons a as ih =>
    simp only [cons_append, run, ih, append_assoc]

/-! ## Sound schedules -/

/-- A step is admissible when a reader reaching the disk finds nothing
pending for its key, and a batch of storable coins leaves no cached outpoint
bound. -/
def Admissible (s : SharedStore) : StoreAction → Prop
  | .readDisk r => ∀ o, s.phase r = .cacheMissed o →
      s.store.writeBuffer.entries.lookup o = none
  | .applyBatch ρ b => (StoreCall.applyBatch ρ b).Admissible s.store
  | _ => True

variable {s : SharedStore}

/-- Every step of a schedule is admissible where it is taken. -/
def RunAdmissible (s : SharedStore) : List StoreAction → Prop
  | [] => True
  | a :: as => s.Admissible a ∧ RunAdmissible (s.step a).1 as

theorem runAdmissible_append {as bs : List StoreAction} :
    s.RunAdmissible (as ++ bs) ↔ s.RunAdmissible as ∧ (s.run as).1.RunAdmissible bs := by
  induction as generalizing s with
  | nil => exact (true_and _).to_iff.symm
  | cons a as ih =>
    rw [cons_append, RunAdmissible, RunAdmissible, ih, and_assoc]
    rfl

variable {a : StoreAction}

/-- **What a step can do to the store**: a reader only recaches, the writer
makes one of its calls. -/
theorem step_cases (ha : s.Admissible a) :
    UtxoSet.Recached s.store (s.step a).1.store
      ∨ ∃ c : StoreCall, c.Admissible s.store ∧ (s.step a).1.store = c.run s.store
        ∧ ∀ o, ¬ a.Inserts o → ∀ m : OutPoint → Option UtxoEntry, m o = none →
          c.plain m o = none := by
  cases a with
  | probeBuffer r o =>
    left
    show UtxoSet.Recached s.store (s.probeBuffer r o).1.store
    unfold probeBuffer
    split
    · split <;> exact refl _
    · exact refl _
  | probeCache r =>
    left
    show UtxoSet.Recached s.store (s.probeCache r).1.store
    unfold probeCache
    split
    · split <;> exact refl _
    · exact refl _
  | readDisk r =>
    left
    show UtxoSet.Recached s.store (s.readDisk r).1.store
    unfold readDisk
    split
    · rename_i o hphase
      split
      · exact refl _
      · rename_i data hd
        split
        · exact refl _
        · rename_i e hp
          refine recached_insert (ha o hphase) ?_
          rw [UtxoDb.coin, hd, Option.bind_some, hp]
          rfl
    · exact refl _
  | applyBatch ρ b =>
    refine Or.inr ⟨.applyBatch ρ b, ha, rfl, fun o hins m hm => ?_⟩
    rw [StoreCall.plain, PartialMap.eraseAll_apply, PartialMap.putAll_of_notMem _ hins, hm,
      ite_self]
  | flushToDisk ρ =>
    exact Or.inr ⟨.flushToDisk ρ, ⟨trivial, fun _ _ h => (by cases h)⟩, rfl, fun _ _ _ hm => hm⟩

variable {as : List StoreAction}

section

variable (h : s.store.Sound ∧ s.store.Compact)
include h

theorem sound_step (ha : s.Admissible a) :
    (s.step a).1.store.Sound ∧ (s.step a).1.store.Compact := by
  rcases step_cases ha with hr | ⟨c, hc, heq, -⟩
  · exact ⟨h.1.recached hr, h.2.recached hr⟩
  · rw [heq]
    exact ⟨(h.1.run hc).1, UtxoSet.Compact.run h.1 h.2 hc⟩

theorem sound_run (has : s.RunAdmissible as) :
    (s.run as).1.store.Sound ∧ (s.run as).1.store.Compact := by
  induction as generalizing s with
  | nil => exact h
  | cons a as ih => exact ih (sound_step h has.1) has.2

variable {o : OutPoint}

/-- **Every answer is current**: it is what the store holds at the moment
the answer is given. -/
theorem answer_step (ha : s.Admissible a) {r : Except StorageError (Option UtxoEntry)}
    (hans : (s.step a).2 = some (o, r)) : r = .ok (s.store.view o) := by
  have hread := h.1.coherent.read_eq (h.2 o)
  unfold Layers.read at hread
  rw [layers_buffer, layers_cache] at hread
  cases a with
  | probeBuffer i o' =>
    change (s.probeBuffer i o').2 = _ at hans
    unfold probeBuffer at hans
    split at hans
    · split at hans
      · rename_i v hb
        obtain ⟨rfl, rfl⟩ := Prod.mk.inj (Option.some.inj hans)
        rw [hb] at hread
        exact congrArg _ hread
      · cases hans
    · cases hans
  | probeCache i =>
    change (s.probeCache i).2 = _ at hans
    unfold probeCache at hans
    split at hans
    · rename_i o' hphase
      split at hans
      · rename_i c hc
        obtain ⟨rfl, rfl⟩ := Prod.mk.inj (Option.some.inj hans)
        -- a cached key has nothing pending, whatever was pending at the first probe
        have hb : s.store.writeBuffer.entries.lookup o' = none :=
          h.1.coherent.buffer_eq_none hc
        rw [hb, hc] at hread
        exact congrArg _ hread
      · cases hans
    · cases hans
  | readDisk i =>
    change (s.readDisk i).2 = _ at hans
    unfold readDisk at hans
    split at hans
    · rename_i o' hphase
      have hview : s.store.view o' = s.store.db.coin o' := by
        show (s.store.writeBuffer.entries.lookup o').getD (s.store.db.coin o') = _
        rw [ha o' hphase, Option.getD_none]
      split at hans
      · rename_i hd
        obtain ⟨rfl, rfl⟩ := Prod.mk.inj (Option.some.inj hans)
        rw [hview, UtxoDb.coin, hd]
        rfl
      · rename_i data hd
        obtain ⟨e, -, -, hp, hcoin⟩ := h.1.disk.coin_eq hd
        rw [hp] at hans
        obtain ⟨rfl, rfl⟩ := Prod.mk.inj (Option.some.inj hans)
        rw [hview, hcoin]
    · cases hans
  | applyBatch ρ b => cases hans
  | flushToDisk ρ => cases hans

/-- An outpoint the store does not hold stays so until it is inserted. -/
theorem view_step_none (ha : s.Admissible a) (hins : ¬ a.Inserts o) (ho : s.store.view o = none) :
    (s.step a).1.store.view o = none := by
  rcases step_cases ha with hr | ⟨c, hc, heq, hplain⟩
  · rw [hr.view_eq, ho]
  · rw [heq, (h.1.run hc).2]
    exact hplain o hins _ ho

section

variable (has : s.RunAdmissible as) (hins : ∀ a ∈ as, ¬ a.Inserts o) (ho : s.store.view o = none)
include has hins ho

theorem view_run_none : (s.run as).1.store.view o = none := by
  induction as generalizing s with
  | nil => exact ho
  | cons a as ih =>
    exact ih (sound_step h has.1) has.2 (fun b hb => hins b (mem_cons_of_mem a hb))
      (view_step_none h has.1 (hins a mem_cons_self) ho)

/-- No schedule answers with a coin the store does not hold. -/
theorem answers_run_none (e : UtxoEntry) : (o, .ok (some e)) ∉ (s.run as).2 := by
  induction as generalizing s with
  | nil => exact not_mem_nil
  | cons a as ih =>
    show (o, .ok (some e)) ∉ (s.step a).2.toList ++ ((s.step a).1.run as).2
    rw [mem_append, not_or]
    refine ⟨fun hmem => ?_, ?_⟩
    · have := answer_step h has.1 (Option.mem_toList.mp hmem)
      rw [ho] at this
      cases this
    · exact ih (sound_step h has.1) has.2 (fun b hb => hins b (mem_cons_of_mem a hb))
        (view_step_none h has.1 (hins a mem_cons_self) ho)

end

/-! ## What readers may rely on -/

/-- Every cached coin with nothing pending is the coin on disk. -/
def CachedIsCurrent (s : SharedStore) : Prop :=
  ∀ o c, s.store.writeBuffer.entries.lookup o = none → s.store.cache.lookup o = some c →
    s.store.db.coin o = some c.toEntry

/-- In the schedule `as`, an outpoint that a batch removes and a later step
flushes is not answered with a coin after the flush, unless a batch inserts
it again. -/
def RemovedStaysRemoved (s : SharedStore) (as : List StoreAction) : Prop :=
  ∀ pre ρ b mid ρ' post, as = pre ++ (.applyBatch ρ b :: mid) ++ (.flushToDisk ρ' :: post) →
    ∀ o ∈ b.removals, (∀ a ∈ mid ++ post, ¬ a.Inserts o) →
      ∀ e, (o, .ok (some e)) ∉
        ((s.run (pre ++ (.applyBatch ρ b :: mid))).1.run (.flushToDisk ρ' :: post)).2

theorem cachedIsCurrent_of_sound : s.CachedIsCurrent := by
  intro o c hb hc
  obtain ⟨e, hd, hpack⟩ := h.1.coherent.backed o c hc
  have hview : s.store.view o = some e := by
    show (s.store.writeBuffer.entries.lookup o).getD (s.store.db.coin o) = some e
    rw [hb]
    exact hd
  rw [← hpack]
  exact hd.trans (congrArg some (coinPacking.unpack_pack e (h.2 o e hview)).symm)

end

/-- A batch that removes an outpoint leaves the store without it. -/
theorem view_step_removed {ρ : MapOrder} {b : UtxoBatch}
    (h : s.store.Sound) (hb : s.Admissible (.applyBatch ρ b))
    (ho : o ∈ b.removals) : (s.step (.applyBatch ρ b)).1.store.view o = none := by
  have hview : (s.step (.applyBatch ρ b)).1.store.view
      = PartialMap.eraseAll (PartialMap.putAll s.store.view b.inserts) b.removals :=
    (h.run (show (StoreCall.applyBatch ρ b).Admissible s.store from hb)).2
  rw [hview, PartialMap.eraseAll_apply, if_pos ho]

theorem removedStaysRemoved_of_runAdmissible (h : s.store.Sound ∧ s.store.Compact)
    (has : s.RunAdmissible as) : s.RemovedStaysRemoved as := by
  rintro pre ρ b mid ρ' post rfl o ho hins e
  rw [runAdmissible_append, runAdmissible_append] at has
  obtain ⟨⟨hpre, hb, hmid⟩, hpost⟩ := has
  have h₁ := sound_run h hpre
  have h₂ := sound_step h₁ hb
  have hview := view_run_none h₂ hmid
    (fun a ha => hins a (mem_append_left _ ha)) (view_step_removed h₁.1 hb ho)
  have hrun : (s.run (pre ++ (.applyBatch ρ b :: mid))).1
      = (((s.run pre).1.step (.applyBatch ρ b)).1.run mid).1 := by
    rw [run_append]
    rfl
  rw [hrun] at hpost ⊢
  refine answers_run_none (sound_run h₂ hmid) hpost ?_ hview e
  intro a ha
  rcases mem_cons.mp ha with rfl | ha
  · exact id
  · exact hins a (mem_append_right _ ha)

/-- **Readers see a current store** in every schedule of admissible steps:
in every state it reaches, a cached coin with nothing pending is the coin on
disk, and an outpoint that was removed and flushed is never answered with a
coin again. -/
theorem readers_current_of_runAdmissible {db : UtxoDb} (hdb : db.Storable)
    (cap budget : Nat) (as : List StoreAction)
    (has : (start db cap budget).RunAdmissible as) :
    ((start db cap budget).run as).1.CachedIsCurrent
      ∧ (start db cap budget).RemovedStaysRemoved as :=
  have h : (start db cap budget).store.Sound ∧ (start db cap budget).store.Compact :=
    ⟨sound_openDb hdb.wellFormed cap budget, compact_openDb hdb cap budget⟩
  ⟨cachedIsCurrent_of_sound (sound_run h has), removedStaysRemoved_of_runAdmissible h has⟩

section LateReader

/-- A disk that holds one coin. -/
def oneCoinDb : UtxoDb :=
  { UtxoDb.empty with
    utxo := fun o =>
      if o = UtxoSet.staleOutPoint then some UtxoSet.staleCoin.serialize else none }

theorem oneCoinDb_storable : oneCoinDb.Storable := by
  intro o data hd
  unfold oneCoinDb at hd
  simp only at hd
  split at hd
  · exact ⟨staleCoin, by decide, (Option.some.inj hd).symm⟩
  · cases hd

/-- A reader misses the buffer and the cache, the writer spends the coin, the
reader reads it from disk and caches it. -/
def lateRead : List StoreAction :=
  [.probeBuffer 0 UtxoSet.staleOutPoint, .probeCache 0,
    .applyBatch UtxoSet.listedOrder ⟨[], [UtxoSet.staleOutPoint], []⟩, .readDisk 0]

/-- **A late reader revives a spent coin**: after the flush the spent coin is
still cached, with nothing pending and nothing on disk, and the next lookup
returns it. -/
theorem readers_not_current :
    (¬ ∀ db : UtxoDb, db.Storable → ∀ (cap budget : Nat) (as : List StoreAction),
        ((start db cap budget).run as).1.CachedIsCurrent)
      ∧ ¬ ∀ db : UtxoDb, db.Storable → ∀ (cap budget : Nat) (as : List StoreAction),
        (start db cap budget).RemovedStaysRemoved as := by
  constructor
  · intro h
    have hc := h oneCoinDb oneCoinDb_storable 10 1000
      (lateRead ++ [.flushToDisk listedOrder]) staleOutPoint
      (CompactCoin.new staleCoin) (by decide) (by decide)
    exact absurd hc (by decide)
  · intro h
    have hr := h oneCoinDb oneCoinDb_storable 10 1000 _
      [.probeBuffer 0 staleOutPoint, .probeCache 0] listedOrder
      ⟨[], [staleOutPoint], []⟩ [.readDisk 0] listedOrder
      [.probeBuffer 1 staleOutPoint, .probeCache 1] rfl staleOutPoint
      (by decide) (by simp [StoreAction.Inserts]) staleCoin
    exact absurd (by decide) hr

/-- The theorem at a schedule in which the reader ends before the coin is
spent. -/
theorem readers_current_early :
    ((start oneCoinDb 10 1000).run
        [.probeBuffer 0 UtxoSet.staleOutPoint, .probeCache 0, .readDisk 0,
          .applyBatch UtxoSet.listedOrder ⟨[], [UtxoSet.staleOutPoint], []⟩,
          .flushToDisk UtxoSet.listedOrder]).1.CachedIsCurrent
      ∧ (start oneCoinDb 10 1000).RemovedStaysRemoved
        [.probeBuffer 0 UtxoSet.staleOutPoint, .probeCache 0, .readDisk 0,
          .applyBatch UtxoSet.listedOrder ⟨[], [UtxoSet.staleOutPoint], []⟩,
          .flushToDisk UtxoSet.listedOrder] :=
  readers_current_of_runAdmissible oneCoinDb_storable 10 1000 _
    ⟨trivial, trivial, fun o ho => (by cases ho; rfl),
      ⟨by decide, fun _ _ h => (by cases h; decide)⟩, trivial, trivial⟩

end LateReader

end SharedStore
