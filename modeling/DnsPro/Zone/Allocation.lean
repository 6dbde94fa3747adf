import DnsPro.Zone.Independence

/-!
# `addRecord` when memory runs out

`records_[key][record.type].push_back(record)` taken apart: the name entry is found or created,
then the type bucket in it, then the record is appended and the count goes up. Each of these may
throw where it has to allocate, and `addRecord` undoes nothing. A failed call goes unnoticed
exactly when it created no entry; after a run in which all failed calls are of this kind the store
is the one of the completed calls.
-/

namespace DnsPro

open Packet Container ZoneStore

set_option autoImplicit false

variable {H : Type → Type → Type} [FiniteMap H]

/-- Where `addRecord` may have to allocate. -/
inductive AllocationPoint where
  | nameEntry
  | typeBucket
  | append
  deriving DecidableEq

namespace ZoneStore

/-- `records_[key]`. -/
def nameEntry (store : ZoneStore H) (key : Key) : ZoneStore H :=
  { store with records_ := openKey store.records_ key }

/-- `[type]` on the entry of `key`. -/
def typeBucket (store : ZoneStore H) (key : Key) (type : UInt16) : ZoneStore H :=
  { store with records_ := openBucket store.records_ key type }

/-- `push_back` on the bucket of `key` and the record's type. -/
def append (store : ZoneStore H) (key : Key) (record : ResourceRecord) : ZoneStore H :=
  { store with records_ := push store.records_ key record.type record }

/-- `addRecord` where the allocations in `fails` throw: whether it threw, and the store it left.
Finding an entry allocates nothing; `push_back` copies the record. -/
def addRecordUnder (fails : AllocationPoint → Bool) (store : ZoneStore H)
    (record : ResourceRecord) : Bool × ZoneStore H :=
  let key := canonicalize record.name
  if Container.contains store.records_ key = false ∧ fails .nameEntry then (true, store) else
  let store := nameEntry store key
  let typeMap := slot store.records_ key empty
  if Container.contains typeMap record.type = false ∧ fails .typeBucket then (true, store) else
  let store := typeBucket store key record.type
  if fails .append then (true, store) else
  let store := append store key record
  (false, { store with recordCount_ := store.recordCount_ + 1 })

/-- An updating call under failing allocations; the other two calls create no entries. -/
def attempt (fails : AllocationPoint → Bool) : Update → ZoneStore H → Bool × ZoneStore H
  | .addRecord record, store => addRecordUnder fails store record
  | .removeRecord name type, store => (false, (store.removeRecord name type).2)
  | .clear, store => (false, store.clear)

/-- A run of calls, each with its failing allocations. -/
def attemptAll : List (Update × (AllocationPoint → Bool)) → ZoneStore H → ZoneStore H
  | [], store => store
  | (u, fails) :: calls, store => attemptAll calls (attempt fails u store).2

/-- The calls of a run that did not throw. -/
def completed : List (Update × (AllocationPoint → Bool)) → ZoneStore H → List Update
  | [], _ => []
  | (u, fails) :: calls, store =>
    let (threw, store') := attempt fails u store
    if threw then completed calls store' else u :: completed calls store'

end ZoneStore

/-- Both stores give the same answers, and the same result of a removal. -/
structure Unnoticed (store store' : ZoneStore H) : Prop extends SameView store store' where
  removeRecord : ∀ name type,
    (store.removeRecord name type).1 = (store'.removeRecord name type).1

/-- The call fails before it has created an entry: creating the name entry fails, or creating the
bucket of a name that is there, or appending to a bucket that is there. -/
def CreatesNothing (fails : AllocationPoint → Bool) (store : ZoneStore H)
    (record : ResourceRecord) : Prop :=
  (store.hasName record.name = false ∧ fails .nameEntry = true) ∨
  (store.hasName record.name = true ∧ store.contains record.name record.type = false ∧
    fails .typeBucket = true) ∨
  (store.contains record.name record.type = true ∧ fails .append = true)

instance (fails : AllocationPoint → Bool) (store : ZoneStore H) (record : ResourceRecord) :
    Decidable (CreatesNothing fails store record) :=
  inferInstanceAs (Decidable (_ ∨ _))

/-- Where the call fails, it creates nothing. -/
def CleanFailure (fails : AllocationPoint → Bool) : Update → ZoneStore H → Prop
  | .addRecord record, store =>
    (addRecordUnder fails store record).1 = true → CreatesNothing fails store record
  | _, _ => True

/-- Every call of a run that fails creates nothing. -/
def FailsCleanly : List (Update × (AllocationPoint → Bool)) → ZoneStore H → Prop
  | [], _ => True
  | (u, fails) :: calls, store =>
    CleanFailure fails u store ∧ FailsCleanly calls (attempt fails u store).2

/-! ### How a call can end -/

/-- How the call can end, by the first allocation that throws. -/
inductive AddEnds (fails : AllocationPoint → Bool) (store : ZoneStore H) (record : ResourceRecord) :
    Bool × ZoneStore H → Prop
  | nameEntry : store.hasName record.name = false → fails .nameEntry = true →
      AddEnds fails store record (true, store)
  | typeBucket : (store.hasName record.name = false → fails .nameEntry = false) →
      store.contains record.name record.type = false → fails .typeBucket = true →
      AddEnds fails store record (true, nameEntry store (canonicalize record.name))
  | append : (store.hasName record.name = false → fails .nameEntry = false) →
      (store.contains record.name record.type = false → fails .typeBucket = false) →
      fails .append = true →
      AddEnds fails store record (true, typeBucket (nameEntry store (canonicalize record.name))
        (canonicalize record.name) record.type)
  | completed (store' : ZoneStore H) :
      store'.records_ = push (openBucket (openKey store.records_ (canonicalize record.name))
        (canonicalize record.name) record.type) (canonicalize record.name) record.type record →
      store'.recordCount_ = store.recordCount_ + 1 →
      AddEnds fails store record (false, store')

section Call
variable {fails : AllocationPoint → Bool} {store : ZoneStore H} {record : ResourceRecord}

theorem hasName_of_contains {name : Name} {type : UInt16} (h : store.contains name type = true) :
    store.hasName name = true := by
  unfold ZoneStore.contains at h
  unfold ZoneStore.hasName Container.contains
  cases hfind : find? store.records_ (canonicalize name) with
  | none =>
    rw [hfind] at h
    cases h
  | some typeMap => rfl

theorem nameEntry_of_hasName {name : Name} (h : store.hasName name = true) :
    nameEntry store (canonicalize name) = store := by
  unfold nameEntry
  rw [openKey_of_contains _ _ h]

theorem typeBucket_of_contains {name : Name} {type : UInt16} (h : store.contains name type = true) :
    typeBucket store (canonicalize name) type = store := by
  rw [contains_eq] at h
  unfold typeBucket
  rw [openBucket_of_bucket? _ _ _ h]

theorem hasName_nameEntry (name : Name) :
    (nameEntry store (canonicalize name)).hasName name = true := by
  unfold ZoneStore.hasName nameEntry
  rw [contains_openKey]
  simp

theorem contains_nameEntry (key : Key) (name : Name) (type : UInt16) :
    (nameEntry store key).contains name type = store.contains name type := by
  rw [contains_eq, contains_eq, nameEntry, bucket?_openKey]

theorem contains_typeBucket (name : Name) (type : UInt16) :
    (typeBucket store (canonicalize name) type).contains name type = true := by
  rw [contains_eq, typeBucket, bucket?_openBucket, if_pos ⟨rfl, rfl⟩]
  rfl

theorem addEnds (fails : AllocationPoint → Bool) (store : ZoneStore H) (record : ResourceRecord) :
    AddEnds fails store record (addRecordUnder fails store record) := by
  have htype : Container.contains (slot (nameEntry store (canonicalize record.name)).records_
      (canonicalize record.name) empty) record.type = store.contains record.name record.type := by
    rw [contains_slot, ← contains_eq, contains_nameEntry]
  unfold addRecordUnder
  dsimp only
  rw [htype]
  split
  · rename_i hname
    exact .nameEntry hname.1 hname.2
  rename_i hname
  have hentered : store.hasName record.name = false → fails .nameEntry = false := by
    intro hnone
    exact Bool.eq_false_iff.mpr fun hfails => hname ⟨hnone, hfails⟩
  split
  · rename_i hbucket
    exact .typeBucket hentered hbucket.1 hbucket.2
  rename_i hbucket
  have hopened : store.contains record.name record.type = false → fails .typeBucket = false := by
    intro hnone
    exact Bool.eq_false_iff.mpr fun hfails => hbucket ⟨hnone, hfails⟩
  split
  · rename_i happend
    exact .append hentered hopened happend
  · exact .completed _ rfl rfl

end Call

/-! ### When a failure goes unnoticed -/

section Failure
variable {fails : AllocationPoint → Bool} {store : ZoneStore H} {record : ResourceRecord}

theorem Unnoticed.refl (store : ZoneStore H) : Unnoticed store store :=
  ⟨⟨fun _ _ => rfl, fun _ _ => rfl, fun _ => rfl, rfl⟩, fun _ _ => rfl⟩

/-- A failed call leaves the very same store behind when it creates nothing. -/
theorem CreatesNothing.unchanged (h : CreatesNothing fails store record)
    (hthrew : (addRecordUnder fails store record).1 = true) :
    (addRecordUnder fails store record).2 = store := by
  have hends := addEnds fails store record
  generalize addRecordUnder fails store record = outcome at hthrew hends
  cases hends with
  | nameEntry => rfl
  | typeBucket hentered hnone hfails =>
    rcases h with ⟨hname, hname'⟩ | ⟨hname, _, _⟩ | ⟨hbucket, _⟩
    · rw [hentered hname] at hname'
      cases hname'
    · exact nameEntry_of_hasName hname
    · rw [hbucket] at hnone
      cases hnone
  | append hentered hopened hfails =>
    rcases h with ⟨hname, hname'⟩ | ⟨_, hnone, hbucket'⟩ | ⟨hbucket, _⟩
    · rw [hentered hname] at hname'
      cases hname'
    · rw [hopened hnone] at hbucket'
      cases hbucket'
    · dsimp only
      rw [nameEntry_of_hasName (hasName_of_contains hbucket), typeBucket_of_contains hbucket]
  | completed => cases hthrew

theorem unnoticed_iff (hthrew : (addRecordUnder fails store record).1 = true) :
    Unnoticed store (addRecordUnder fails store record).2 ↔ CreatesNothing fails store record := by
  constructor
  · intro h
    have hends := addEnds fails store record
    generalize addRecordUnder fails store record = outcome at hthrew hends h
    cases hends with
    | nameEntry hnone hfails => exact Or.inl ⟨hnone, hfails⟩
    | typeBucket hentered hnone hfails =>
      -- an entry created for the name would show in `hasName`
      have hname := (h.hasName record.name).trans (hasName_nameEntry record.name)
      exact Or.inr (Or.inl ⟨hname, hnone, hfails⟩)
    | append hentered hopened hfails =>
      -- a bucket created for the type would show in `contains`
      have hbucket := (h.contains record.name record.type).trans
        (contains_typeBucket record.name record.type)
      exact Or.inr (Or.inr ⟨hbucket, hfails⟩)
    | completed => cases hthrew
  · intro h
    rw [h.unchanged hthrew]
    exact Unnoticed.refl store

end Failure

/-! ### Runs with failures -/

section Runs
variable {store : ZoneStore H} {log : RecordLog}

/-- A call that throws leaves the records as they were, and one that does not has its effect. -/
theorem Represents.attempt (h : Represents store log) {fails : AllocationPoint → Bool} {u : Update}
    (hclean : CleanFailure fails u store) :
    Represents (attempt fails u store).2
      (if (attempt fails u store).1 then log else RecordLog.update u log) := by
  cases u with
  | removeRecord name type => exact h.removeRecord name type
  | clear => exact h.update .clear
  | addRecord record =>
    show Represents (addRecordUnder fails store record).2
      (if (addRecordUnder fails store record).1 then log else RecordLog.add record log)
    by_cases hthrew : (addRecordUnder fails store record).1 = true
    · rw [if_pos hthrew, (hclean hthrew).unchanged hthrew]
      exact h
    · rw [if_neg hthrew]
      have hends := addEnds fails store record
      generalize addRecordUnder fails store record = outcome at hthrew hends
      cases hends with
      | nameEntry => exact absurd rfl hthrew
      | typeBucket => exact absurd rfl hthrew
      | append => exact absurd rfl hthrew
      | completed store' hrecords hcount =>
        have hadded := h.addRecord record
        refine ⟨hadded.indexes.congr (fun k t => ?_) (fun k => ?_), hcount.trans hadded.count⟩
        · rw [hrecords]
          exact bucket?_push_opened _ _ _ _ _ _
        · rw [hrecords]
          exact contains_push_opened _ _ _ _ _

/-- Where nothing fails, the steps together are `addRecord`. -/
theorem addRecordUnder_none (h : Represents store log) (record : ResourceRecord) :
    (addRecordUnder (fun _ => false) store record).1 = false ∧
      SameView (addRecordUnder (fun _ => false) store record).2 (store.addRecord record) := by
  have hcompletes : (addRecordUnder (fun _ => false) store record).1 = false := by
    have hends := addEnds (fun _ => false) store record
    generalize addRecordUnder (fun _ => false) store record = outcome at hends
    cases hends with
    | nameEntry _ hfails => cases hfails
    | typeBucket _ _ hfails => cases hfails
    | append _ _ hfails => cases hfails
    | completed => rfl
  have hclean : CleanFailure (fun _ => false) (.addRecord record) store := by
    intro hthrew
    rw [hcompletes] at hthrew
    cases hthrew
  have hadded := h.attempt hclean
  rw [if_neg (by rw [ZoneStore.attempt, hcompletes]; simp)] at hadded
  exact ⟨hcompletes, hadded.sameView_of_filed (h.addRecord record) fun _ _ => rfl⟩

theorem Represents.attemptAll (h : Represents store log)
    {calls : List (Update × (AllocationPoint → Bool))} (hclean : FailsCleanly calls store) :
    Represents (attemptAll calls store) (RecordLog.updateAll (completed calls store) log) := by
  induction calls generalizing store log with
  | nil => exact h
  | cons call calls ih =>
    obtain ⟨u, fails⟩ := call
    have hnext := ih (h.attempt hclean.1) hclean.2
    rw [ZoneStore.attemptAll, completed]
    rcases hattempt : ZoneStore.attempt fails u store with ⟨threw, store'⟩
    rw [hattempt] at hnext
    cases threw with
    | true => exact hnext
    | false => exact hnext

end Runs

/-! ### Main result -/

/-- In whatever state a run of calls leaves the store, a failing `addRecord` goes unnoticed exactly
when it creates nothing; and a run in which every failure is of that kind leaves the records of
the calls that completed. -/
theorem failedAdd_unnoticed_iff {zone : ZoneStore H} {log : RecordLog} (hzone : Reached zone log)
    (calls : List (Update × (AllocationPoint → Bool))) :
    (∀ fails record, (addRecordUnder fails (attemptAll calls zone) record).1 = true →
      (Unnoticed (attemptAll calls zone) (addRecordUnder fails (attemptAll calls zone) record).2 ↔
        CreatesNothing fails (attemptAll calls zone) record)) ∧
    (FailsCleanly calls zone →
      Behaves (attemptAll calls zone) (RecordLog.updateAll (completed calls zone) log)) := by
  constructor
  · intro fails record hthrew
    exact unnoticed_iff hthrew
  · intro hclean
    exact (hzone.represents.attemptAll hclean).behaves

def mailRecord : ResourceRecord :=
  ⟨⟨[[97]]⟩, 15, 1, 0, [0, 10, 0], 0⟩

/-- The bucket, then the copy of the record cannot be allocated on a store without the name: it
then has the name, then also records of the type, and a removal succeeds that removes nothing. -/
theorem failedAdd_leavesEntries :
    let store : ZoneStore AssocMap := construct
    let noBucket := addRecordUnder (fun point => point = .typeBucket) store mailRecord
    let noCopy := addRecordUnder (fun point => point = .append) store mailRecord
    Reached store [] ∧
      noBucket.1 = true ∧ store.hasName mailRecord.name = false ∧
      noBucket.2.hasName mailRecord.name = true ∧
      noCopy.1 = true ∧ store.contains mailRecord.name 15 = false ∧
      noCopy.2.contains mailRecord.name 15 = true ∧ noCopy.2.lookup mailRecord.name 15 = [] ∧
      (store.removeRecord mailRecord.name 15).1 = false ∧
      (noCopy.2.removeRecord mailRecord.name 15).1 = true :=
  ⟨reached_updateAll [], by decide +kernel⟩

/-- A run on a fresh store: a failure at the name entry, a success, a failure at the copy. -/
theorem failedAdd_unnoticed_mail :
    let calls : List (Update × (AllocationPoint → Bool)) :=
      [(.addRecord mailRecord, fun point => point = .nameEntry),
        (.addRecord mailRecord, fun _ => false),
        (.addRecord mailRecord, fun point => point = .append)]
    Behaves (attemptAll calls (construct : ZoneStore AssocMap)) [mailRecord] := by
  intro calls
  have hzone : Reached (construct : ZoneStore AssocMap) [] := reached_updateAll []
  have hmain := failedAdd_unnoticed_iff hzone calls
  have hclean : FailsCleanly calls (construct : ZoneStore AssocMap) := by
    refine ⟨fun _ => ?_, fun hthrew => absurd hthrew ?_, fun _ => ?_, trivial⟩
    · decide +kernel
    · decide +kernel
    · decide +kernel
  exact hmain.2 hclean

end DnsPro
