import DnsPro.Lib.Leftovers
import DnsPro.Zone.Allocation

/-!
# What failed additions leave behind

After any run of calls under failing allocations the store holds the records of the calls that
completed, in order, and counts them right. A failure is never seen as a missing record; it may be
seen as a name or a type of that name that seems to be there.
-/

namespace DnsPro

open Packet Container ZoneStore

set_option autoImplicit false

variable {H : Type → Type → Type} [FiniteMap H]

namespace ZoneStore

/-- The abandoned additions after a call: one more when the call threw, none after `clear`. -/
def abandon (threw : Bool) : Update → List ResourceRecord → List ResourceRecord
  | .addRecord record, left => if threw then left ++ [record] else left
  | .removeRecord _ _, left => left
  | .clear, _ => []

/-- The records whose addition a run abandoned, from the last `clear` on. -/
def abandoned : List (Update × (AllocationPoint → Bool)) → ZoneStore H → List ResourceRecord →
    List ResourceRecord
  | [], _, left => left
  | (u, fails) :: calls, store, left =>
    abandoned calls (attempt fails u store).2 (abandon (attempt fails u store).1 u left)

end ZoneStore

/-- The store holds the records of the log, but what is empty in it was opened for a record in
`left`. -/
structure Keeps (store : ZoneStore H) (log : RecordLog) (left : List ResourceRecord) : Prop where
  littered : Littered keyOf ResourceRecord.type store.records_ log left
  count : store.recordCount_ = UInt64.ofNat log.length

/-- What a client sees of such a store: the records of the log and their number; every name and
type that has records; and besides at most the names and types of the records in `left`. -/
structure BehavesBut (store : ZoneStore H) (log : RecordLog) (left : List ResourceRecord) :
    Prop where
  lookup : ∀ name type, store.lookup name type = RecordLog.recordsOf name type log
  recordCount : store.recordCount = UInt64.ofNat log.length
  contains : ∀ name type, RecordLog.recordsOf name type log ≠ [] →
    store.contains name type = true
  of_contains : ∀ name type, store.contains name type = true →
    RecordLog.recordsOf name type log ≠ [] ∨
      ∃ r ∈ left, keyOf r = canonicalize name ∧ r.type = type
  removeRecord : ∀ name type, (store.removeRecord name type).1 = store.contains name type
  hasName : ∀ name, RecordLog.Holds log name → store.hasName name = true
  of_hasName : ∀ name, store.hasName name = true →
    RecordLog.Holds log name ∨ ∃ r ∈ left, keyOf r = canonicalize name

section Runs
variable {store : ZoneStore H} {log : RecordLog} {left : List ResourceRecord}

theorem Represents.keeps (h : Represents store log) : Keeps store log [] :=
  ⟨h.indexes.littered, h.count⟩

theorem removeRecord_eq_contains (store : ZoneStore H) (name : Name) (type : UInt16) :
    (store.removeRecord name type).1 = store.contains name type := by
  rw [contains_eq]
  rcases removeRecord_cases store name type with ⟨hnone, heq⟩ | ⟨typeMap, _, hsome, heq⟩
  · rw [heq, hnone]
    rfl
  · rw [heq, hsome]

theorem Keeps.behaves (h : Keeps store log left) : BehavesBut store log left where
  lookup name type := by
    rw [lookup_eq, h.littered.bucket_eq]
    rfl
  recordCount := h.count
  contains name type hrecords := by
    rw [contains_eq]
    exact (h.littered.bucket?_isSome _ _).1 hrecords
  of_contains name type hbucket := by
    rw [contains_eq] at hbucket
    exact (h.littered.bucket?_isSome _ _).2 hbucket
  removeRecord := removeRecord_eq_contains store
  hasName name hholds := by
    obtain ⟨record, hrecord, hkey⟩ := hholds
    show Container.contains store.records_ (canonicalize name) = true
    rw [← hkey]
    exact h.littered.contains_of_mem hrecord
  of_hasName name hname := h.littered.of_contains hname

theorem Keeps.removeRecord (h : Keeps store log left) (name : Name) (type : UInt16) :
    Keeps (store.removeRecord name type).2 (RecordLog.remove name type log) left := by
  rcases removeRecord_cases store name type with ⟨hnone, heq⟩ | ⟨typeMap, hfind, _, heq⟩
  · have habsent : RecordLog.recordsOf name type log = [] := by
      rw [RecordLog.recordsOf, ← h.littered.bucket_eq, bucket, hnone]
      rfl
    rw [heq, RecordLog.remove, unfiled_eq_self habsent]
    exact h
  · rw [heq]
    refine ⟨h.littered.drop hfind type, ?_⟩
    rw [h.littered.bucket_eq]
    exact recordCount_remove h.count name type

/-- Wherever the call ends, the records are those of the log, or of the log and the new one. -/
theorem Keeps.addRecordUnder (h : Keeps store log left) (fails : AllocationPoint → Bool)
    (record : ResourceRecord) :
    Keeps (addRecordUnder fails store record).2
      (if (addRecordUnder fails store record).1 then log else RecordLog.add record log)
      (if (addRecordUnder fails store record).1 then left ++ [record] else left) := by
  have hmore : Littered keyOf ResourceRecord.type store.records_ log (left ++ [record]) :=
    h.littered.mono (List.subset_append_left _ _)
  have hlast : record ∈ left ++ [record] := List.mem_append_right _ (List.mem_singleton_self _)
  have hends := addEnds fails store record
  generalize ZoneStore.addRecordUnder fails store record = outcome at hends
  cases hends with
  | nameEntry => exact ⟨hmore, h.count⟩
  | typeBucket => exact ⟨hmore.openKey hlast, h.count⟩
  | append =>
    refine ⟨(hmore.openKey hlast).openBucket hlast ?_, h.count⟩
    rw [contains_openKey]
    simp
  | completed store' hrecords hcount =>
    refine ⟨(h.littered.push record).congr (fun k t => ?_) (fun k => ?_), ?_⟩
    · rw [hrecords]
      exact bucket?_push_opened _ _ _ _ _ _
    · rw [hrecords]
      exact contains_push_opened _ _ _ _ _
    · show store'.recordCount_ = UInt64.ofNat (log ++ [record]).length
      rw [hcount, h.count, List.length_append, UInt64.ofNat_add]
      rfl

theorem Keeps.attempt (h : Keeps store log left) (fails : AllocationPoint → Bool) (u : Update) :
    Keeps (attempt fails u store).2
      (if (attempt fails u store).1 then log else RecordLog.update u log)
      (abandon (attempt fails u store).1 u left) := by
  cases u with
  | addRecord record => exact h.addRecordUnder fails record
  | removeRecord name type => exact h.removeRecord name type
  | clear =>
    have hclear : Represents store.clear [] := represents_nil fun k => find?_clear _ k
    exact hclear.keeps

theorem Keeps.attemptAll (h : Keeps store log left)
    (calls : List (Update × (AllocationPoint → Bool))) :
    Keeps (attemptAll calls store) (RecordLog.updateAll (completed calls store) log)
      (abandoned calls store left) := by
  induction calls generalizing store log left with
  | nil => exact h
  | cons call calls ih =>
    obtain ⟨u, fails⟩ := call
    have hnext := ih (h.attempt fails u)
    rw [ZoneStore.attemptAll, completed, abandoned]
    rcases hattempt : ZoneStore.attempt fails u store with ⟨threw, store'⟩
    rw [hattempt] at hnext
    cases threw with
    | true => exact hnext
    | false => exact hnext

end Runs

/-- Whatever fails in a run, the store has the records of the calls that completed and knows every
name and type they have; it may only seem to know names and types of abandoned additions too. -/
theorem failures_lose_nothing {zone : ZoneStore H} {log : RecordLog} (hzone : Reached zone log)
    (calls : List (Update × (AllocationPoint → Bool))) :
    BehavesBut (attemptAll calls zone) (RecordLog.updateAll (completed calls zone) log)
      (abandoned calls zone []) :=
  (hzone.represents.keeps.attemptAll calls).behaves

/-- A host is added, a mail record of another name fails at its copy, so does a second record of
the host, and the host is removed. -/
def failingRun : List (Update × (AllocationPoint → Bool)) :=
  [(.addRecord ⟨⟨[[98]]⟩, 1, 1, 0, [], 0⟩, fun _ => false),
    (.addRecord mailRecord, fun point => point = .append),
    (.addRecord ⟨⟨[[66]]⟩, 1, 1, 0, [], 0⟩, fun point => point = .append),
    (.removeRecord ⟨[[98]]⟩ 1, fun _ => false)]

theorem failures_lose_nothing_failingRun :
    BehavesBut (attemptAll failingRun (construct : ZoneStore AssocMap)) []
      [mailRecord, ⟨⟨[[66]]⟩, 1, 1, 0, [], 0⟩] := by
  have hzone : Reached (construct : ZoneStore AssocMap) [] := reached_updateAll []
  have hkept := failures_lose_nothing hzone failingRun
  have hlog :
      RecordLog.updateAll (completed failingRun (construct : ZoneStore AssocMap)) [] = [] := by
    decide +kernel
  have hleft : abandoned failingRun (construct : ZoneStore AssocMap) [] =
      [mailRecord, ⟨⟨[[66]]⟩, 1, 1, 0, [], 0⟩] := by
    decide +kernel
  rwa [hlog, hleft] at hkept

end DnsPro
