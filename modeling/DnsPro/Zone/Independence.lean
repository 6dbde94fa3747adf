import DnsPro.Lib.Schedule
import DnsPro.Zone.Refinement

/-!
# Independent clients of a zone store

Several clients add and remove records, each call being one step under the mutex. A call changes
one bucket of the index and reads no other, although the calls share the outer entry of a name and
the counter. So clients with different buckets do not disturb each other: the buckets at the end,
and with them everything the store can be asked, are the same after every interleaving.
-/

namespace DnsPro

open Packet Container ZoneStore Schedule

set_option autoImplicit false

variable {H : Type → Type → Type} [FiniteMap H]

/-- The calls of a client. -/
inductive Change where
  | addRecord (record : ResourceRecord)
  | removeRecord (name : Name) (type : UInt16)

namespace Change

def toUpdate : Change → Update
  | .addRecord record => .addRecord record
  | .removeRecord name type => .removeRecord name type

/-- The canonical name and the type of the bucket a call is about. -/
def bucketOf : Change → Key × UInt16
  | .addRecord record => (canonicalize record.name, record.type)
  | .removeRecord name type => (canonicalize name, type)

def step (c : Change) (store : ZoneStore H) : ZoneStore H :=
  update c.toUpdate store

/-- What the caller gets back; `addRecord` returns nothing. -/
def result : Change → ZoneStore H → Option Bool
  | .addRecord _, _ => none
  | .removeRecord name type, store => some (store.removeRecord name type).1

end Change

def bucketAt (store : ZoneStore H) (cell : Key × UInt16) : Option (List ResourceRecord) :=
  bucket? store.records_ cell.1 cell.2

/-- The stores cannot be told apart by `lookup`, `contains`, `hasName` and `recordCount`. -/
structure SameView (store store' : ZoneStore H) : Prop where
  lookup : ∀ name type, store.lookup name type = store'.lookup name type
  contains : ∀ name type, store.contains name type = store'.contains name type
  hasName : ∀ name, store.hasName name = store'.hasName name
  recordCount : store.recordCount = store'.recordCount

/-! ### One call, one bucket -/

section Calls
variable (store : ZoneStore H)

theorem bucketAt_addRecord (record : ResourceRecord) (cell : Key × UInt16) :
    bucketAt (store.addRecord record) cell =
      if cell = (canonicalize record.name, record.type) then
        some ((bucketAt store cell).getD [] ++ [record])
      else bucketAt store cell := by
  obtain ⟨k, t⟩ := cell
  unfold bucketAt
  rw [addRecord_records, bucket?_push]
  by_cases hhere : k = canonicalize record.name ∧ t = record.type
  · rw [if_pos hhere, if_pos (Prod.ext hhere.1 hhere.2), hhere.1, hhere.2]
    rfl
  · rw [if_neg hhere, if_neg fun h => hhere ⟨congrArg Prod.fst h, congrArg Prod.snd h⟩]

theorem bucketAt_removeRecord (name : Name) (type : UInt16) (cell : Key × UInt16) :
    bucketAt (store.removeRecord name type).2 cell =
      if cell = (canonicalize name, type) then none else bucketAt store cell := by
  obtain ⟨k, t⟩ := cell
  unfold bucketAt
  rcases removeRecord_cases store name type with ⟨hnone, heq⟩ | ⟨typeMap, hfind, _, heq⟩
  · rw [heq]
    by_cases hhere : (k, t) = (canonicalize name, type)
    · cases hhere
      rw [if_pos rfl]
      exact hnone
    · rw [if_neg hhere]
  · rw [heq]
    show bucket? (drop _ _ _ _) k t = _
    rw [bucket?_drop _ _ _ _ _ hfind]
    by_cases hhere : k = canonicalize name ∧ t = type
    · rw [if_pos hhere, if_pos (Prod.ext hhere.1 hhere.2)]
    · rw [if_neg hhere, if_neg fun h => hhere ⟨congrArg Prod.fst h, congrArg Prod.snd h⟩]

theorem removeRecord_fst (name : Name) (type : UInt16) :
    (store.removeRecord name type).1 = (bucketAt store (canonicalize name, type)).isSome := by
  unfold bucketAt
  rcases removeRecord_cases store name type with ⟨hnone, heq⟩ | ⟨typeMap, _, hsome, heq⟩
  · rw [heq, hnone]
    rfl
  · rw [heq, hsome]

theorem change_local :
    Local (Change.step (H := H)) Change.result Change.bucketOf bucketAt where
  frame c store cell hcell := by
    cases c with
    | addRecord record => exact (bucketAt_addRecord store record cell).trans (if_neg hcell)
    | removeRecord name type =>
      exact (bucketAt_removeRecord store name type cell).trans (if_neg hcell)
  step_congr c store store' hsame := by
    cases c with
    | addRecord record =>
      show bucketAt (store.addRecord record) _ = bucketAt (store'.addRecord record) _
      rw [bucketAt_addRecord, bucketAt_addRecord, hsame]
    | removeRecord name type =>
      show bucketAt (store.removeRecord name type).2 _ =
        bucketAt (store'.removeRecord name type).2 _
      rw [bucketAt_removeRecord, bucketAt_removeRecord]
      exact (if_pos rfl).trans (if_pos rfl).symm
  result_congr c store store' hsame := by
    cases c with
    | addRecord record => rfl
    | removeRecord name type =>
      show some (store.removeRecord name type).1 = some (store'.removeRecord name type).1
      rw [removeRecord_fst, removeRecord_fst]
      exact congrArg (some ∘ Option.isSome) hsame

end Calls

/-! ### Buckets are all there is to see -/

section Seen
variable {store store' : ZoneStore H} {log log' : RecordLog}

/-- Logs with the same buckets, in whatever order otherwise, look the same. -/
theorem Represents.sameView_of_filed (h : Represents store log) (h' : Represents store' log')
    (hfiled : ∀ k t, filed keyOf ResourceRecord.type k t log =
      filed keyOf ResourceRecord.type k t log') : SameView store store' := by
  have hperm := perm_of_filed_eq hfiled
  refine ⟨fun name type => ?_, fun name type => ?_, fun name => ?_, ?_⟩
  · rw [h.lookup, h'.lookup]
    exact hfiled _ _
  · rw [Bool.eq_iff_iff, h.contains_iff, h'.contains_iff, RecordLog.recordsOf, RecordLog.recordsOf,
      hfiled]
  · rw [Bool.eq_iff_iff, h.hasName_iff, h'.hasName_iff]
    exact exists_congr fun r => and_congr_left fun _ => hperm.mem_iff
  · show store.recordCount_ = store'.recordCount_
    rw [h.count, h'.count, hperm.length_eq]

theorem Represents.sameView (h : Represents store log) (h' : Represents store' log')
    (hbuckets : ∀ cell, bucketAt store cell = bucketAt store' cell) : SameView store store' := by
  apply h.sameView_of_filed h'
  intro k t
  rw [← h.indexes.bucket_eq, ← h'.indexes.bucket_eq]
  exact congrArg (Option.getD · []) (hbuckets (k, t))

theorem run_eq_updateAll (changes : List Change) (store : ZoneStore H) :
    run Change.step changes store = updateAll (changes.map Change.toUpdate) store := by
  rw [updateAll, List.foldl_map]
  rfl

end Seen

/-! ### Main result -/

/-- From any reachable store, independent clients get from every interleaving the results that
they get when they run one after another, and leave a store that looks the same. -/
theorem independent_clients {ι : Type} [DecidableEq ι] {zone : ZoneStore H} {log : RecordLog}
    (hzone : Reached zone log) {clients : ι → List Change}
    (hdisjoint : Disjoint Change.bucketOf clients) {schedule : List (ι × Change)}
    (hs : Interleaves schedule clients) {order : List ι} (hnodup : order.Nodup)
    (hall : ∀ i, clients i ≠ [] → i ∈ order) :
    SameView (runAll Change.step schedule zone)
        (runAll Change.step (oneAfterAnother order clients) zone) ∧
      ∀ i, resultsOf Change.step Change.result i schedule zone =
        resultsOf Change.step Change.result i (oneAfterAnother order clients) zone := by
  have hserial := interleaves_oneAfterAnother hnodup hall
  obtain ⟨hresults, hbuckets⟩ := change_local.interleavings_agree hdisjoint hs hserial zone
  refine ⟨?_, hresults⟩
  have hreps : ∀ changes, ∃ log', Represents (run Change.step changes zone) log' := by
    intro changes
    rw [run_eq_updateAll]
    exact ⟨_, hzone.represents.updateAll _⟩
  obtain ⟨log₁, hrep₁⟩ := hreps (schedule.map Prod.snd)
  obtain ⟨log₂, hrep₂⟩ := hreps ((oneAfterAnother order clients).map Prod.snd)
  exact hrep₁.sameView hrep₂ hbuckets

/-- One client adds and removes an address of `a`, the other adds a record of another type. -/
def sharedName : Bool → List Change
  | false => [.addRecord ⟨⟨[[97]]⟩, 1, 1, 0, [], 0⟩, .removeRecord ⟨[[65]]⟩ 1]
  | true => [.addRecord ⟨⟨[[65]]⟩, 28, 1, 0, [], 0⟩]

/-- The second client's record comes while the first client's is there. -/
def sharedSchedule : List (Bool × Change) :=
  [(false, .addRecord ⟨⟨[[97]]⟩, 1, 1, 0, [], 0⟩), (true, .addRecord ⟨⟨[[65]]⟩, 28, 1, 0, [], 0⟩),
    (false, .removeRecord ⟨[[65]]⟩ 1)]

/-- It outlives that, and the removal finds just the one record either way. -/
theorem independent_clients_sharedName :
    SameView (runAll Change.step sharedSchedule (construct : ZoneStore AssocMap))
      (runAll Change.step (oneAfterAnother [false, true] sharedName) construct) ∧
    resultsOf Change.step Change.result false sharedSchedule (construct : ZoneStore AssocMap) =
      resultsOf Change.step Change.result false (oneAfterAnother [false, true] sharedName)
        (construct : ZoneStore AssocMap) ∧
    resultsOf Change.step Change.result false sharedSchedule (construct : ZoneStore AssocMap) =
      [none, some true] := by
  have hzone : Reached (construct : ZoneStore AssocMap) [] := reached_updateAll []
  have htypes : ∀ i, ∀ a ∈ sharedName i, a.bucketOf.2 = if i then 28 else 1 := by
    intro i
    cases i with
    | false => simp [sharedName, Change.bucketOf]
    | true => simp [sharedName, Change.bucketOf]
  have hdisjoint : Disjoint Change.bucketOf sharedName := by
    intro i j hij a ha b hb heq
    have htype := congrArg Prod.snd heq
    rw [htypes i a ha, htypes j b hb] at htype
    cases i with
    | false =>
      cases j with
      | false => exact hij rfl
      | true => cases htype
    | true =>
      cases j with
      | false => cases htype
      | true => exact hij rfl
  have hall : ∀ i, sharedName i ≠ [] → i ∈ [false, true] := by simp
  have hs : Interleaves sharedSchedule sharedName := by
    intro i
    cases i with
    | false => rfl
    | true => rfl
  obtain ⟨hview, hresults⟩ := independent_clients hzone hdisjoint hs (by decide) hall
  exact ⟨hview, hresults false, by decide +kernel⟩

end DnsPro
