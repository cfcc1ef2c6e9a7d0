import BitcoinPR.Lib.PartialMap

/-!
# A ledger, one transfer at a time or in bulk

A **ledger** is a partial map of entries. A transfer consumes keys, each of
which must be bound, and then binds the entries it creates; a run does this
transfer after transfer.

A **bulk** processor never touches the map while it checks. It notes what has
been consumed and created so far (`Notes`), admits a transfer when it consumes
each key for the first time and every key is bound in the map *or* was created
before (`Admits`), and at the end binds everything created and unbinds
everything consumed (`Notes.settle`).

What the bulk processor admits, the ledger accepts (`exists_run_of_admitsAll`).
The two end in the same map exactly when nothing is created again after it has
been consumed (`settle_eq_iff`): the final unbinding would take the second
creation away with the first.
-/

open PartialMap

namespace Ledger

variable {K V : Type} [DecidableEq K]

/-- **A transfer**: the keys it consumes and the entries it creates. -/
structure Transfer (K V : Type) where
  spends : List K
  creates : List (K × V)

/-- Consume keys one by one; each must be bound. -/
def spendAll (m : K → Option V) : List K → Option (K → Option V)
  | [] => some m
  | k :: ks => if (m k).isSome then spendAll (Function.update m k none) ks else none

/-- One transfer: consume, then create. -/
def step (m : K → Option V) (t : Transfer K V) : Option (K → Option V) :=
  (spendAll m t.spends).map fun m => PartialMap.putAll m t.creates

/-- **Transfer after transfer.** -/
def run (m : K → Option V) : List (Transfer K V) → Option (K → Option V)
  | [] => some m
  | t :: ts => (step m t).bind fun m => run m ts

/-! ## Bulk processing -/

/-- What a bulk processor has noted so far. -/
structure Notes (K V : Type) where
  spent : List K
  puts : List (K × V)

namespace Notes

def empty : Notes K V := ⟨[], []⟩

def after (n : Notes K V) (t : Transfer K V) : Notes K V :=
  ⟨n.spent ++ t.spends, n.puts ++ t.creates⟩

/-- The map a bulk processor ends in: bind all, then unbind all. -/
def settle (base : K → Option V) (n : Notes K V) : K → Option V :=
  PartialMap.eraseAll (PartialMap.putAll base n.puts) n.spent

omit [DecidableEq K] in
/-- The notes after a list of transfers. -/
theorem foldl_after (n : Notes K V) (ts : List (Transfer K V)) :
    ts.foldl after n
      = ⟨n.spent ++ ts.flatMap Transfer.spends, n.puts ++ ts.flatMap Transfer.creates⟩ := by
  induction ts generalizing n with
  | nil => simp
  | cons t ts ih => simp [ih, after]

end Notes

/-- **A transfer is admitted** when it consumes no key twice, none that was
consumed before, and only keys that are bound or were created before. -/
structure Admits (base : K → Option V) (n : Notes K V) (t : Transfer K V) : Prop where
  nodup : t.spends.Nodup
  unspent : ∀ k ∈ t.spends, k ∉ n.spent
  known : ∀ k ∈ t.spends, (base k).isSome ∨ k ∈ n.puts.map Prod.fst

def AdmitsAll (base : K → Option V) : Notes K V → List (Transfer K V) → Prop
  | _, [] => True
  | n, t :: ts => Admits base n t ∧ AdmitsAll base (n.after t) ts

/-- Nothing is created at or after the transfer that consumes it. -/
def NoRecreation : List K → List (Transfer K V) → Prop
  | _, [] => True
  | spent, t :: ts =>
    (∀ k ∈ t.creates.map Prod.fst, k ∉ spent ++ t.spends) ∧ NoRecreation (spent ++ t.spends) ts

/-- The ledger and the notes agree on every key not consumed yet. -/
def Agrees (base : K → Option V) (n : Notes K V) (m : K → Option V) : Prop :=
  ∀ k, k ∉ n.spent → m k = PartialMap.putAll base n.puts k

/-! ## One transfer -/

variable {n : Notes K V} {base m : K → Option V}

/-- Distinct bound keys can all be consumed. -/
theorem spendAll_eq {m : K → Option V} {ks : List K} (hnodup : ks.Nodup)
    (hbound : ∀ k ∈ ks, (m k).isSome) : spendAll m ks = some (eraseAll m ks) := by
  induction ks generalizing m with
  | nil => rfl
  | cons k ks ih =>
    rw [List.nodup_cons] at hnodup
    rw [spendAll, if_pos (hbound k List.mem_cons_self)]
    refine ih hnodup.2 fun k' hk' => ?_
    rw [Function.update_of_ne (ne_of_mem_of_not_mem hk' hnodup.1)]
    exact hbound k' (List.mem_cons_of_mem k hk')

theorem step_of_admits {t : Transfer K V} (ha : Agrees base n m) (ht : Admits base n t) :
    step m t = some (putAll (eraseAll m t.spends) t.creates) := by
  rw [step, spendAll_eq ht.nodup fun k hk => ?_]
  · rfl
  · rw [ha k (ht.unspent k hk)]
    exact (isSome_putAll base).mpr (ht.known k hk).symm

theorem Agrees.after (ha : Agrees base n m) (t : Transfer K V) :
    Agrees base (n.after t)
      (putAll (eraseAll m t.spends) t.creates) := by
  intro k hk
  rw [Notes.after, List.mem_append, not_or] at hk
  rw [Notes.after, putAll_append]
  by_cases hc : k ∈ t.creates.map Prod.fst
  · exact putAll_eq_of_mem _ _ hc
  · rw [putAll_of_notMem _ hc, putAll_of_notMem _ hc, eraseAll_apply, if_neg hk.2, ha k hk.1]

/-! ## Whole runs -/

variable {ts : List (Transfer K V)}

/-- **What the bulk processor admits, the ledger accepts**, and the two agree
on every key that is not consumed. -/
theorem exists_run_of_admitsAll (ha : Agrees base n m) (hts : AdmitsAll base n ts) :
    ∃ m', run m ts = some m' ∧ Agrees base (ts.foldl Notes.after n) m' := by
  induction ts generalizing m n with
  | nil => exact ⟨m, rfl, ha⟩
  | cons t ts ih =>
    rw [run, step_of_admits ha hts.1]
    exact ih (ha.after t) hts.2

omit [DecidableEq K] in
/-- **What is consumed was there**: bound at the start, noted, or created by an
earlier transfer of the list. -/
theorem AdmitsAll.created_before {base : K → Option V}
    (h : AdmitsAll base n ts) {i : Nat} {t : Transfer K V}
    (ht : ts[i]? = some t) {k : K} (hk : k ∈ t.spends) :
    (base k).isSome ∨ k ∈ n.puts.map Prod.fst ∨
      ∃ j < i, ∃ t', ts[j]? = some t' ∧ k ∈ t'.creates.map Prod.fst := by
  induction ts generalizing n i with
  | nil => cases ht
  | cons u ts ih =>
    cases i with
    | zero =>
      obtain rfl := Option.some.inj ht
      exact (h.1.known k hk).imp_right Or.inl
    | succ i =>
      rcases ih h.2 ht with hb | hn | ⟨j, hj, t', ht', hc⟩
      · exact Or.inl hb
      · rw [Notes.after, List.map_append, List.mem_append] at hn
        exact Or.inr (hn.imp_right fun hc => ⟨0, Nat.succ_pos i, u, rfl, hc⟩)
      · exact Or.inr (Or.inr ⟨j + 1, Nat.succ_lt_succ hj, t', ht', hc⟩)

section

variable {base m m' : K → Option V} (ha : Agrees base n m) (hts : AdmitsAll base n ts)
  (hrun : run m ts = some m')
include ha hts hrun

/-- A key that is consumed and bound again stays bound: it is never consumed
a second time. -/
theorem run_isSome_of_mem_spent {k : K} (hk : k ∈ n.spent) (hm : (m k).isSome) :
    (m' k).isSome := by
  induction ts generalizing m n with
  | nil => exact Option.some.inj hrun ▸ hm
  | cons t ts ih =>
    rw [run, step_of_admits ha hts.1] at hrun
    refine ih (ha.after t) hts.2 hrun (List.mem_append_left _ hk) ?_
    rw [isSome_putAll, eraseAll_apply, if_neg fun hs => hts.1.unspent k hs hk]
    exact Or.inr hm

/-- What has been consumed is unbound at the end exactly when nothing of it is
created again. -/
theorem run_eq_none_iff (hspent : ∀ k ∈ n.spent, m k = none) :
    (∀ k ∈ (ts.foldl Notes.after n).spent, m' k = none) ↔ NoRecreation n.spent ts := by
  induction ts generalizing m n with
  | nil =>
    obtain rfl := Option.some.inj hrun
    exact iff_of_true hspent trivial
  | cons t ts ih =>
    rw [run, step_of_admits ha hts.1] at hrun
    rw [List.foldl_cons]
    by_cases hre : ∀ k ∈ t.creates.map Prod.fst, k ∉ n.spent ++ t.spends
    · have hstep : ∀ k ∈ (n.after t).spent, putAll (eraseAll m t.spends) t.creates k = none := by
        intro k hk
        rw [putAll_of_notMem _ fun hc => hre k hc hk, eraseAll_apply]
        rcases List.mem_append.mp hk with hold | hnew
        · rw [hspent k hold, ite_self]
        · rw [if_pos hnew]
      rw [ih (ha.after t) hts.2 hrun hstep]
      exact ⟨fun h => ⟨hre, h⟩, fun h => h.2⟩
    · refine iff_of_false (fun hnone => hre fun k hc hk => ?_) fun h => hre h.1
      -- the second creation of `k` survives to the end
      have hsome := run_isSome_of_mem_spent (ha.after t) hts.2 hrun hk
        ((isSome_putAll _).mpr (Or.inl hc))
      have hmem : k ∈ (ts.foldl Notes.after (n.after t)).spent := by
        rw [Notes.foldl_after]
        exact List.mem_append_left _ hk
      rw [hnone k hmem] at hsome
      cases hsome

end

/-- **Bulk processing is the ledger** – on transfers it admits – exactly when
nothing is created again after it has been consumed. -/
theorem settle_eq_iff (hts : AdmitsAll base Notes.empty ts) (hrun : run base ts = some m) :
    (ts.foldl Notes.after Notes.empty).settle base = m ↔ NoRecreation [] ts := by
  have ha : Agrees base (Notes.empty : Notes K V) base := fun _ _ => rfl
  obtain ⟨m', hrun', hagree⟩ := exists_run_of_admitsAll ha hts
  obtain rfl := Option.mem_unique hrun' hrun
  refine Iff.trans ?_ (run_eq_none_iff (n := Notes.empty) ha hts hrun fun k hk => (by cases hk))
  constructor
  · intro h k hk
    rw [← h, Notes.settle, eraseAll_apply, if_pos hk]
  · intro h
    funext k
    rw [Notes.settle, eraseAll_apply]
    by_cases hk : k ∈ (ts.foldl Notes.after Notes.empty).spent
    · rw [if_pos hk, h k hk]
    · rw [if_neg hk, hagree k hk]

end Ledger
