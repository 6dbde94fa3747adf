import DnsPro.Zone.RecordLog
import Mathlib.Algebra.GroupWithZero.Nat

/-!
# The zone store refines the log of its records

`Represents` relates a store to the log of the records it holds; every member keeps it. Programs
over any number of stores therefore run on the logs as well, and each observation on a store is a
question about its log.
-/

namespace DnsPro

open Packet Container Objects ZoneStore

set_option autoImplicit false

variable {H : Type → Type → Type} [FiniteMap H]

/-- The nested index is the index of the log, and the counter its length modulo `2 ^ 64`. -/
structure Represents (store : ZoneStore H) (log : RecordLog) : Prop where
  indexes : Indexes keyOf ResourceRecord.type store.records_ log
  count : store.recordCount_ = UInt64.ofNat log.length

/-! ### The members in terms of the index -/

section Members

variable (store : ZoneStore H) (name : Name) (type : UInt16)

theorem addRecord_records (record : ResourceRecord) :
    (store.addRecord record).records_ =
      push store.records_ (keyOf record) record.type record := rfl

theorem lookup_eq : store.lookup name type = bucket store.records_ (canonicalize name) type := by
  unfold lookup bucket bucket?
  cases find? store.records_ (canonicalize name) with
  | none => rfl
  | some typeMap => rfl

theorem contains_eq :
    store.contains name type = (bucket? store.records_ (canonicalize name) type).isSome := by
  unfold ZoneStore.contains bucket?
  cases find? store.records_ (canonicalize name) with
  | none => rfl
  | some typeMap => rfl

theorem removeRecord_cases :
    (bucket? store.records_ (canonicalize name) type = none ∧
      store.removeRecord name type = (false, store)) ∨
    ∃ typeMap, find? store.records_ (canonicalize name) = some typeMap ∧
      (bucket? store.records_ (canonicalize name) type).isSome = true ∧
      store.removeRecord name type =
        (true, ⟨drop store.records_ (canonicalize name) typeMap type,
          store.recordCount_ -
            UInt64.ofNat (bucket store.records_ (canonicalize name) type).length⟩) := by
  unfold removeRecord bucket bucket?
  cases hfind : find? store.records_ (canonicalize name) with
  | none => exact Or.inl ⟨rfl, by simp only [hfind]⟩
  | some typeMap =>
    cases htype : find? typeMap type with
    | none => exact Or.inl ⟨htype, by simp only [hfind, htype]⟩
    | some records =>
      refine Or.inr ⟨typeMap, rfl, by simp [htype], ?_⟩
      simp only [hfind, htype, Option.bind_some, Option.getD_some, drop]

end Members

/-! ### Every member keeps the relation -/

/-- The counter goes down by the length of the deleted bucket, which the log did hold. -/
theorem recordCount_remove {count : UInt64} {log : RecordLog}
    (hcount : count = UInt64.ofNat log.length) (name : Name) (type : UInt16) :
    count - UInt64.ofNat (RecordLog.recordsOf name type log).length =
      UInt64.ofNat (RecordLog.remove name type log).length := by
  have hsum := RecordLog.length_remove_add name type log
  have hlen : (RecordLog.remove name type log).length =
      log.length - (RecordLog.recordsOf name type log).length := by omega
  rw [hcount, hlen, UInt64.ofNat_sub (by omega)]

section Kept

variable {store : ZoneStore H} {log : RecordLog}

theorem represents_nil {records : H Key (H UInt16 (List ResourceRecord))}
    (h : ∀ k, find? records k = none) : Represents (⟨records, 0⟩ : ZoneStore H) [] :=
  ⟨indexes_nil h, rfl⟩

theorem Represents.addRecord (h : Represents store log) (record : ResourceRecord) :
    Represents (store.addRecord record) (RecordLog.add record log) := by
  refine ⟨?_, ?_⟩
  · rw [addRecord_records]
    exact h.indexes.push record
  · show store.recordCount_ + 1 = _
    rw [h.count, RecordLog.add, List.length_append, UInt64.ofNat_add]
    rfl

theorem Represents.removeRecord (h : Represents store log) (name : Name) (type : UInt16) :
    Represents (store.removeRecord name type).2 (RecordLog.remove name type log) := by
  rcases removeRecord_cases store name type with ⟨hnone, heq⟩ | ⟨typeMap, hfind, _, heq⟩
  · have habsent : RecordLog.recordsOf name type log = [] := by
      rw [RecordLog.recordsOf, ← h.indexes.bucket_eq, bucket, hnone]
      rfl
    rw [heq, RecordLog.remove, unfiled_eq_self habsent]
    exact h
  · rw [heq]
    refine ⟨h.indexes.drop hfind type, ?_⟩
    rw [h.indexes.bucket_eq]
    exact recordCount_remove h.count name type

theorem Represents.update (h : Represents store log) (u : Update) :
    Represents (ZoneStore.update u store) (RecordLog.update u log) := by
  cases u with
  | addRecord record => exact h.addRecord record
  | removeRecord name type => exact h.removeRecord name type
  | clear => exact represents_nil fun k => find?_clear _ k

theorem Represents.updateAll (h : Represents store log) (updates : List Update) :
    Represents (ZoneStore.updateAll updates store) (RecordLog.updateAll updates log) := by
  induction updates generalizing store log with
  | nil => exact h
  | cons u updates ih => exact ih (h.update u)

theorem Represents.moved (_ : Represents store log) :
    Represents (⟨moved store.records_, 0⟩ : ZoneStore H) [] :=
  represents_nil fun k => find?_moved _ k

theorem members_simulate :
    Simulates (ZoneStore.members (H := H)) RecordLog.members Represents where
  construct := represents_nil fun k => find?_empty k
  call h u := h.update u
  copyConstruct h := h
  copyAssign _ h' := h'
  copyAssignSelf h := h
  moveConstruct h := ⟨h, h.moved⟩
  moveAssign _ h' := ⟨h', h'.moved⟩
  moveAssignSelf h := h

end Kept

/-! ### Observations -/

section Observed

variable {store : ZoneStore H} {log : RecordLog}

theorem Represents.lookup (h : Represents store log) (name : Name) (type : UInt16) :
    store.lookup name type = RecordLog.recordsOf name type log := by
  rw [lookup_eq, h.indexes.bucket_eq]
  rfl

theorem Represents.contains_iff (h : Represents store log) (name : Name) (type : UInt16) :
    store.contains name type = true ↔ RecordLog.recordsOf name type log ≠ [] := by
  rw [contains_eq]
  exact h.indexes.bucket?_isSome_iff _ _

theorem Represents.hasName_iff (h : Represents store log) (name : Name) :
    store.hasName name = true ↔ RecordLog.Holds log name :=
  h.indexes.contains_iff _

theorem Represents.hasName_eq (h : Represents store log) (name : Name) :
    store.hasName name = decide (RecordLog.Holds log name) := by
  rw [Bool.eq_iff_iff, h.hasName_iff, decide_eq_true_iff]

theorem Represents.removeRecord_iff (h : Represents store log) (name : Name) (type : UInt16) :
    (store.removeRecord name type).1 = true ↔ RecordLog.recordsOf name type log ≠ [] := by
  rw [← h.contains_iff, contains_eq]
  rcases removeRecord_cases store name type with ⟨hnone, heq⟩ | ⟨typeMap, _, hsome, heq⟩
  · rw [heq, hnone]
    simp
  · rw [heq, hsome]

theorem Represents.recordCount (h : Represents store log) (hlen : log.length < 2 ^ 64) :
    store.recordCount.toNat = log.length := by
  show store.recordCount_.toNat = _
  rw [h.count]
  exact UInt64.toNat_ofNat_of_lt' hlen

end Observed

/-- Everything a client can see of a store, said of the log. The counter is exact while the log
is shorter than `2 ^ 64`, and what a removal subtracts from it never exceeds it. -/
structure Behaves (store : ZoneStore H) (log : RecordLog) : Prop where
  lookup : ∀ name type, store.lookup name type = RecordLog.recordsOf name type log
  contains : ∀ name type,
    store.contains name type = true ↔ RecordLog.recordsOf name type log ≠ []
  hasName : ∀ name, store.hasName name = true ↔ RecordLog.Holds log name
  removeRecord : ∀ name type, (store.removeRecord name type).1 = true ↔
    (RecordLog.remove name type log).length < log.length
  recordCount : log.length < 2 ^ 64 → store.recordCount.toNat = log.length
  noWrap : log.length < 2 ^ 64 → ∀ name type,
    (store.lookup name type).length ≤ store.recordCount.toNat ∧
      (store.removeRecord name type).2.recordCount.toNat =
        store.recordCount.toNat - (store.lookup name type).length

theorem Represents.behaves {store : ZoneStore H} {log : RecordLog} (h : Represents store log) :
    Behaves store log := by
  refine ⟨h.lookup, h.contains_iff, h.hasName_iff, fun name type => ?_, h.recordCount,
    fun hlen name type => ?_⟩
  · rw [h.removeRecord_iff, RecordLog.length_remove_lt_iff]
  · have hsum := RecordLog.length_remove_add name type log
    rw [h.recordCount hlen, (h.removeRecord name type).recordCount (by omega), h.lookup]
    omega

/-! ### Runs -/

/-- Some program ends with the zone among its stores and with the log as that store's records. -/
def Reached (zone : ZoneStore H) (log : RecordLog) : Prop :=
  ∃ (program : List (Instr Update)) (stores : List (ZoneStore H)) (logs : List RecordLog)
    (n : Nat), run members program [] = some stores ∧
    run RecordLog.members program [] = some logs ∧
    stores[n]? = some zone ∧ logs[n]? = some log

theorem Reached.represents {zone : ZoneStore H} {log : RecordLog} (h : Reached zone log) :
    Represents zone log := by
  obtain ⟨program, stores, logs, n, hstores, hlogs, hzone, hlog⟩ := h
  obtain ⟨logs', hlogs', hrel⟩ := members_simulate.run (.nil) hstores
  rw [hlogs] at hlogs'
  cases hlogs'
  obtain ⟨log', hlog', hrep⟩ := forall₂_getElem? hrel hzone
  rw [hlog] at hlog'
  cases hlog'
  exact hrep

/-- A fresh store reaches whatever a sequence of updates makes of it. -/
theorem reached_updateAll (updates : List Update) :
    Reached (updateAll updates (construct : ZoneStore H)) (RecordLog.updateAll updates []) :=
  ⟨.construct :: updates.map (.call 0), _, _, 0, run_calls members updates construct,
    run_calls RecordLog.members updates [], rfl, rfl⟩

/-- Every program over stores runs on their logs, ends with every store behaving as its log, and
each instruction leaves the stores it does not name as they were. -/
theorem stores_refine_logs {program : List (Instr Update)} {stores : List (ZoneStore H)}
    (h : run members program [] = some stores) :
    (∃ logs, run RecordLog.members program [] = some logs ∧
      List.Forall₂ Behaves stores logs) ∧
    ∀ instr stores', step members instr stores = some stores' →
      ∀ n < stores.length, n ∉ instr.touched → stores'[n]? = stores[n]? := by
  constructor
  · obtain ⟨logs, hlogs, hrel⟩ := members_simulate.run (.nil) h
    exact ⟨logs, hlogs, hrel.imp fun _ _ hrep => hrep.behaves⟩
  · intro instr stores' hstep n hn huntouched
    exact step_frame hstep hn huntouched

/-- Two stores: a copy gets a second record, the original loses its own, takes over the copy's
contents and is assigned and moved to itself. -/
def copyAndMove : List (Instr Update) :=
  [.construct, .call 0 (.addRecord ⟨⟨[[97]]⟩, 1, 1, 0, [], 0⟩), .copyConstruct 0,
    .call 1 (.addRecord ⟨⟨[[65]]⟩, 1, 1, 0, [], 0⟩), .call 0 (.removeRecord ⟨[[65]]⟩ 1),
    .moveAssign 0 1, .copyAssign 0 0, .moveAssign 0 0]

theorem stores_refine_logs_copyAndMove :
    ∃ stores : List (ZoneStore AssocMap), ∃ logs, run members copyAndMove [] = some stores ∧
      run RecordLog.members copyAndMove [] = some logs ∧ List.Forall₂ Behaves stores logs ∧
      logs.map List.length = [2, 0] := by
  have hruns : (run (members (H := AssocMap)) copyAndMove []).isSome = true := by decide +kernel
  obtain ⟨stores, hstores⟩ := Option.isSome_iff_exists.mp hruns
  obtain ⟨⟨logs, hlogs, hrel⟩, _⟩ := stores_refine_logs hstores
  refine ⟨stores, logs, hstores, hlogs, hrel, ?_⟩
  have hlengths : (run RecordLog.members copyAndMove []).map (List.map List.length) =
      some [2, 0] := by decide +kernel
  rw [hlogs] at hlengths
  exact Option.some.inj hlengths

end DnsPro
