import DnsPro.Zone.Independence

/-!
# What a run of calls leaves, and what can be told of it

The store after a run of updates, told from the run itself: it has the records that were added and
not removed since. And told from outside: the answers of `lookup` are all there is to a store, for
whoever goes on to update it and to ask it.
-/

namespace DnsPro

open Packet Container ZoneStore

set_option autoImplicit false

variable {H : Type → Type → Type} [FiniteMap H]

/-! ### Records that outlive later calls -/

/-- The update deletes the record where it finds it. -/
def Removes : Update → ResourceRecord → Prop
  | .addRecord _, _ => False
  | .removeRecord name type, r => keyOf r = canonicalize name ∧ r.type = type
  | .clear, _ => True

instance (u : Update) (r : ResourceRecord) : Decidable (Removes u r) :=
  match u with
  | .addRecord _ => inferInstanceAs (Decidable False)
  | .removeRecord name type =>
    inferInstanceAs (Decidable (keyOf r = canonicalize name ∧ r.type = type))
  | .clear => inferInstanceAs (Decidable True)

def Outlives (r : ResourceRecord) (later : List Update) : Prop :=
  ∀ u ∈ later, ¬ Removes u r

instance (r : ResourceRecord) (later : List Update) : Decidable (Outlives r later) :=
  inferInstanceAs (Decidable (∀ u ∈ later, ¬ Removes u r))

/-- The records an update adds. -/
def added : Update → RecordLog
  | .addRecord r => [r]
  | .removeRecord _ _ => []
  | .clear => []

/-- The records added in the course of the updates and not removed by a later one. -/
def survivors : List Update → RecordLog
  | [] => []
  | u :: later => (added u).filter (fun r => Outlives r later) ++ survivors later

section Survival
variable {r : ResourceRecord} {u : Update} {log : RecordLog} {updates : List Update}

theorem outlives_nil (r : ResourceRecord) : Outlives r [] :=
  fun _ h => absurd h List.not_mem_nil

theorem outlives_cons_iff : Outlives r (u :: updates) ↔ ¬ Removes u r ∧ Outlives r updates :=
  List.forall_mem_cons

theorem filter_outlives_cons :
    log.filter (fun r => Outlives r (u :: updates)) =
      (log.filter fun r => ¬ Removes u r).filter fun r => Outlives r updates := by
  rw [List.filter_filter]
  apply List.filter_congr
  intro r _
  rw [← Bool.decide_and, decide_eq_decide, outlives_cons_iff, and_comm]

/-- One update deletes what it removes, and then adds what it adds. -/
theorem update_eq (u : Update) (log : RecordLog) :
    RecordLog.update u log = log.filter (fun r => ¬ Removes u r) ++ added u := by
  cases u with
  | addRecord r =>
    have hall : log.filter (fun r' => ¬ Removes (.addRecord r) r') = log := by
      apply List.filter_eq_self.mpr
      intro r' _
      exact decide_eq_true id
    rw [hall]
    rfl
  | removeRecord name type =>
    rw [added, List.append_nil]
    rfl
  | clear =>
    have hnone : log.filter (fun r => ¬ Removes .clear r) = [] := by
      apply List.filter_eq_nil_iff.mpr
      intro r _ hr
      exact of_decide_eq_true hr trivial
    rw [hnone]
    rfl

theorem updateAll_eq (updates : List Update) (log : RecordLog) :
    RecordLog.updateAll updates log =
      log.filter (fun r => Outlives r updates) ++ survivors updates := by
  induction updates generalizing log with
  | nil =>
    have hall : log.filter (fun r => Outlives r []) = log := by
      apply List.filter_eq_self.mpr
      intro r _
      exact decide_eq_true (outlives_nil r)
    rw [hall]
    exact (List.append_nil log).symm
  | cons u updates ih =>
    calc RecordLog.updateAll (u :: updates) log
        = RecordLog.updateAll updates (RecordLog.update u log) := rfl
      _ = (log.filter (fun r => ¬ Removes u r) ++ added u).filter (fun r => Outlives r updates) ++
            survivors updates := by rw [ih, update_eq]
      _ = log.filter (fun r => Outlives r (u :: updates)) ++ survivors (u :: updates) := by
        rw [List.filter_append, ← filter_outlives_cons, List.append_assoc, survivors]

theorem mem_added_iff : r ∈ added u ↔ u = .addRecord r := by
  cases u with
  | addRecord r' => simp [added, eq_comm]
  | removeRecord name type => simp [added]
  | clear => simp [added]

theorem mem_survivors_iff : r ∈ survivors updates ↔
    ∃ before later, updates = before ++ .addRecord r :: later ∧ Outlives r later := by
  induction updates with
  | nil => simp [survivors]
  | cons u updates ih =>
    rw [survivors, List.mem_append, List.mem_filter, mem_added_iff, decide_eq_true_iff, ih]
    constructor
    · intro h
      rcases h with ⟨hu, hr⟩ | ⟨before, later, hsplit, hr⟩
      · rw [hu]
        exact ⟨[], updates, rfl, hr⟩
      · rw [hsplit]
        exact ⟨u :: before, later, rfl, hr⟩
    · intro h
      obtain ⟨before, later, hsplit, hr⟩ := h
      cases before with
      | nil =>
        cases hsplit
        exact Or.inl ⟨rfl, hr⟩
      | cons u' before =>
        cases hsplit
        exact Or.inr ⟨before, later, rfl, hr⟩

end Survival

/-- After a run of updates from any reachable store, it behaves as the list of the records it had
before the run and of those added during the run, all without those removed since. -/
theorem run_leaves_survivors {zone : ZoneStore H} {log : RecordLog} (hzone : Reached zone log)
    (updates : List Update) :
    Behaves (updateAll updates zone)
        (log.filter (fun r => Outlives r updates) ++ survivors updates) ∧
      ∀ r, r ∈ survivors updates ↔
        ∃ before later, updates = before ++ .addRecord r :: later ∧ Outlives r later := by
  refine ⟨?_, fun r => mem_survivors_iff⟩
  rw [← updateAll_eq]
  exact (hzone.represents.updateAll updates).behaves

/-- A record of `a` is removed as one of `A`, before a second one of the name is added. -/
def replaceRecord : List Update :=
  [.addRecord ⟨⟨[[97]]⟩, 1, 1, 0, [1], 0⟩, .removeRecord ⟨[[65]]⟩ 1,
    .addRecord ⟨⟨[[65]]⟩, 1, 1, 0, [2], 0⟩, .removeRecord ⟨[[97]]⟩ 28]

theorem run_leaves_survivors_replaceRecord :
    Behaves (updateAll replaceRecord (construct : ZoneStore AssocMap))
      [⟨⟨[[65]]⟩, 1, 1, 0, [2], 0⟩] := by
  have hrun := (run_leaves_survivors (H := AssocMap) (reached_updateAll []) replaceRecord).1
  have hleft : survivors replaceRecord = [⟨⟨[[65]]⟩, 1, 1, 0, [2], 0⟩] := by decide +kernel
  rw [hleft] at hrun
  exact hrun

/-! ### Stores that lookups cannot tell apart -/

/-- The logs have the same records in every bucket, in the same order. -/
def SameBuckets (log log' : RecordLog) : Prop :=
  ∀ k t, filed keyOf ResourceRecord.type k t log = filed keyOf ResourceRecord.type k t log'

section Buckets
variable {log log' : RecordLog} {zone zone' : ZoneStore H}

theorem filed_eq_nil {k : Key} (h : ∀ r ∈ log, keyOf r ≠ k) (t : UInt16) :
    filed keyOf ResourceRecord.type k t log = [] := by
  apply List.filter_eq_nil_iff.mpr
  intro r hr hfiled
  exact h r hr (of_decide_eq_true hfiled).1

/-- A key that no record has gives empty buckets, and every other one is the key of a name. -/
theorem sameBuckets_of_recordsOf
    (h : ∀ name type, RecordLog.recordsOf name type log = RecordLog.recordsOf name type log') :
    SameBuckets log log' := by
  intro k t
  by_cases hkey : ∃ r, (r ∈ log ∨ r ∈ log') ∧ keyOf r = k
  · obtain ⟨r, _, hr⟩ := hkey
    rw [← hr]
    exact h r.name t
  · have hnone : ∀ r ∈ log, keyOf r ≠ k := fun r hr hk => hkey ⟨r, Or.inl hr, hk⟩
    have hnone' : ∀ r ∈ log', keyOf r ≠ k := fun r hr hk => hkey ⟨r, Or.inr hr, hk⟩
    rw [filed_eq_nil hnone, filed_eq_nil hnone']

theorem SameBuckets.update (h : SameBuckets log log') (u : Update) :
    SameBuckets (RecordLog.update u log) (RecordLog.update u log') := by
  intro k t
  cases u with
  | addRecord record =>
    show filed _ _ k t (log ++ [record]) = filed _ _ k t (log' ++ [record])
    unfold filed
    rw [List.filter_append, List.filter_append]
    exact congrArg (· ++ _) (h k t)
  | removeRecord name type =>
    show filed _ _ k t (unfiled _ _ _ _ log) = filed _ _ k t (unfiled _ _ _ _ log')
    rw [filed_unfiled, filed_unfiled, h k t]
  | clear => rfl

theorem SameBuckets.updateAll (h : SameBuckets log log') (updates : List Update) :
    SameBuckets (RecordLog.updateAll updates log) (RecordLog.updateAll updates log') := by
  induction updates generalizing log log' with
  | nil => exact h
  | cons u updates ih => exact ih (h.update u)

/-- Where all lookups agree, so do all observations, also after any further updates. -/
theorem sameView_of_lookup (hzone : Reached zone log) (hzone' : Reached zone' log')
    (h : ∀ name type, zone.lookup name type = zone'.lookup name type) (updates : List Update) :
    SameView (ZoneStore.updateAll updates zone) (ZoneStore.updateAll updates zone') ∧
      ∀ name type, ((ZoneStore.updateAll updates zone).removeRecord name type).1 =
        ((ZoneStore.updateAll updates zone').removeRecord name type).1 := by
  have hrep := hzone.represents
  have hrep' := hzone'.represents
  have hbuckets : SameBuckets log log' := by
    apply sameBuckets_of_recordsOf
    intro name type
    rw [← hrep.lookup, ← hrep'.lookup]
    exact h name type
  have hafter := hbuckets.updateAll updates
  refine ⟨(hrep.updateAll updates).sameView_of_filed (hrep'.updateAll updates) hafter, ?_⟩
  intro name type
  rw [Bool.eq_iff_iff, (hrep.updateAll updates).removeRecord_iff,
    (hrep'.updateAll updates).removeRecord_iff, RecordLog.recordsOf, RecordLog.recordsOf, hafter]

end Buckets

end DnsPro
