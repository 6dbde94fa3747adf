import DnsPro.Lib.Deadlock
import DnsPro.Zone.Allocation
import Mathlib.Data.Fintype.Basic

/-!
# Stores behind their mutexes

`mutex_` in full: each member takes the locks its guard names, then reads and writes `records_` and
`recordCount_` one access at a time, gives the locks back and returns. Threads interleave at every
access, and an assignment takes two locks. What the threads see is what they would see of one log of
records for each store, changed by one call after the other.
-/

namespace DnsPro.Locked

open Packet Container ZoneStore Locking

set_option autoImplicit false

variable {ι : Type} {H : Type → Type → Type} [FiniteMap H]

/-! ### The members, access by access -/

inductive Member (ι : Type) where
  | addRecord (x : ι) (record : ResourceRecord)
  | removeRecord (x : ι) (name : Name) (type : UInt16)
  | clear (x : ι)
  | lookup (x : ι) (name : Name) (type : UInt16)
  | contains (x : ι) (name : Name) (type : UInt16)
  | hasName (x : ι) (name : Name)
  | recordCount (x : ι)
  | copyConstruct (other : ι)
  | copyAssign (x other : ι)
  | moveConstruct (other : ι)
  | moveAssign (x other : ι)

/-- What a member returns; a constructor returns the new store. -/
inductive Answer (S : Type) where
  | done
  | found (b : Bool)
  | records (rs : List ResourceRecord)
  | count (n : UInt64)
  | store (s : S)

abbrev MemberBody (ι : Type) (H : Type → Type → Type) : Type :=
  Body ι (ZoneStore H) (Answer (ZoneStore H))

/-- `records_.at(key)`, for a key that is there. -/
def typesAt (store : ZoneStore H) (key : Key) : H UInt16 (List ResourceRecord) :=
  slot store.records_ key empty

/-- `records_.at(key).at(type)`, for a type that is there. -/
def recordsAt (store : ZoneStore H) (key : Key) (type : UInt16) : List ResourceRecord :=
  slot (typesAt store key) type []

def setRecords (records : H Key (H UInt16 (List ResourceRecord))) (store : ZoneStore H) :
    ZoneStore H :=
  { store with records_ := records }

def setCount (count : UInt64) (store : ZoneStore H) : ZoneStore H :=
  { store with recordCount_ := count }

def addRecordBody (x : ι) (record : ResourceRecord) : MemberBody ι H :=
  let key := canonicalize record.name
  .write x (fun store => nameEntry store key) <|
  .write x (fun store => typeBucket store key record.type) <|
  .write x (fun store => append store key record) <|
  .write x (fun store => setCount (store.recordCount_ + 1) store) <|
  .ret .done

def removeRecordBody (x : ι) (name : Name) (type : UInt16) : MemberBody ι H :=
  let key := canonicalize name
  .read x fun store =>
  if Container.contains store.records_ key = false then .ret (.found false) else
  .read x fun store =>
  if Container.contains (typesAt store key) type = false then .ret (.found false) else
  .write x (fun store => setCount
    (store.recordCount_ - UInt64.ofNat (recordsAt store key type).length) store) <|
  .write x (fun store => setRecords
    (insert store.records_ key (erase (typesAt store key) type)) store) <|
  .read x fun store =>
  if isEmpty (typesAt store key) then
    .write x (fun store => setRecords (erase store.records_ key) store) (.ret (.found true))
  else .ret (.found true)

def clearBody (x : ι) : MemberBody ι H :=
  .write x (fun store => setRecords (Container.clear store.records_) store) <|
  .write x (setCount 0) <|
  .ret .done

def lookupBody (x : ι) (name : Name) (type : UInt16) : MemberBody ι H :=
  let key := canonicalize name
  .read x fun store =>
  if Container.contains store.records_ key = false then .ret (.records []) else
  .read x fun store =>
  if Container.contains (typesAt store key) type = false then .ret (.records []) else
  .read x fun store =>
  .ret (.records (recordsAt store key type))

def containsBody (x : ι) (name : Name) (type : UInt16) : MemberBody ι H :=
  let key := canonicalize name
  .read x fun store =>
  if Container.contains store.records_ key = false then .ret (.found false) else
  .read x fun store =>
  .ret (.found (Container.contains (typesAt store key) type))

def hasNameBody (x : ι) (name : Name) : MemberBody ι H :=
  .read x fun store => .ret (.found (Container.contains store.records_ (canonicalize name)))

def recordCountBody (x : ι) : MemberBody ι H :=
  .read x fun store => .ret (.count store.recordCount_)

/-- The new store is nobody else's before the constructor returns. -/
def copyConstructBody (other : ι) : MemberBody ι H :=
  .read other fun source =>
  let store : ZoneStore H := setRecords source.records_ construct
  .read other fun source =>
  .ret (.store (setCount source.recordCount_ store))

def copyAssignBody (x other : ι) : MemberBody ι H :=
  .read other fun source =>
  .write x (setRecords source.records_) <|
  .read other fun source =>
  .write x (setCount source.recordCount_) <|
  .ret .done

def moveConstructBody (other : ι) : MemberBody ι H :=
  .read other fun source =>
  let store : ZoneStore H := setRecords source.records_ construct
  .write other (fun source => setRecords (moved source.records_) source) <|
  .read other fun source =>
  .write other (setCount 0) <|
  .ret (.store (setCount source.recordCount_ store))

def moveAssignBody (x other : ι) : MemberBody ι H :=
  .read other fun source =>
  .write x (setRecords source.records_) <|
  .write other (fun source => setRecords (moved source.records_) source) <|
  .read other fun source =>
  .write x (setCount source.recordCount_) <|
  .write other (setCount 0) <|
  .ret .done

section Guards
variable [DecidableEq ι]

/-- `if (this == &other) return *this` comes before the guard. -/
def body : Member ι → MemberBody ι H
  | .addRecord x record => addRecordBody x record
  | .removeRecord x name type => removeRecordBody x name type
  | .clear x => clearBody x
  | .lookup x name type => lookupBody x name type
  | .contains x name type => containsBody x name type
  | .hasName x name => hasNameBody x name
  | .recordCount x => recordCountBody x
  | .copyConstruct other => copyConstructBody other
  | .copyAssign x other => if x = other then .ret .done else copyAssignBody x other
  | .moveConstruct other => moveConstructBody other
  | .moveAssign x other => if x = other then .ret .done else moveAssignBody x other

/-- Each member has one guard at its top, if any, and no other one in its body. -/
def guards : Member ι → List (Guard ι)
  | .lookup x _ _ | .contains x _ _ | .hasName x _ | .recordCount x | .copyConstruct x =>
    [.sharedLock x]
  | .addRecord x _ | .removeRecord x _ _ | .clear x | .moveConstruct x => [.uniqueLock x]
  | .copyAssign x other | .moveAssign x other =>
    if x = other then [] else [.scopedLock [x, other]]

end Guards

/-! ### Every access is to a store whose mutex is held -/

section Within

theorem addRecordBody_within (x : ι) (record : ResourceRecord) :
    (addRecordBody (H := H) x record).Within [] [x] := by
  have hx : x ∈ [x] := List.mem_singleton_self x
  exact .write hx (.write hx (.write hx (.write hx (.ret _))))

theorem removeRecordBody_within (x : ι) (name : Name) (type : UInt16) :
    (removeRecordBody (H := H) x name type).Within [] [x] := by
  have hx : x ∈ [x] := List.mem_singleton_self x
  refine .read (Or.inr hx) fun store => ?_
  split
  · exact .ret _
  refine .read (Or.inr hx) fun store => ?_
  split
  · exact .ret _
  refine .write hx (.write hx (.read (Or.inr hx) fun store => ?_))
  split
  · exact .write hx (.ret _)
  · exact .ret _

theorem lookupBody_within (x : ι) (name : Name) (type : UInt16) :
    (lookupBody (H := H) x name type).Within [x] [] := by
  have hx : x ∈ [x] := List.mem_singleton_self x
  refine .read (Or.inl hx) fun store => ?_
  split
  · exact .ret _
  refine .read (Or.inl hx) fun store => ?_
  split
  · exact .ret _
  · exact .read (Or.inl hx) fun store => .ret _

theorem containsBody_within (x : ι) (name : Name) (type : UInt16) :
    (containsBody (H := H) x name type).Within [x] [] := by
  have hx : x ∈ [x] := List.mem_singleton_self x
  refine .read (Or.inl hx) fun store => ?_
  split
  · exact .ret _
  · exact .read (Or.inl hx) fun store => .ret _

omit [FiniteMap H] in
theorem copyAssignBody_within (x other : ι) :
    (copyAssignBody (H := H) x other).Within [] [x, other] := by
  have hx : x ∈ [x, other] := List.mem_cons_self
  have hother : other ∈ [x, other] := List.mem_cons_of_mem _ (List.mem_singleton_self other)
  exact .read (Or.inr hother) fun _ => .write hx (.read (Or.inr hother) fun _ => .write hx (.ret _))

theorem moveAssignBody_within (x other : ι) :
    (moveAssignBody (H := H) x other).Within [] [x, other] := by
  have hx : x ∈ [x, other] := List.mem_cons_self
  have hother : other ∈ [x, other] := List.mem_cons_of_mem _ (List.mem_singleton_self other)
  exact .read (Or.inr hother) fun _ => .write hx (.write hother (.read (Or.inr hother) fun _ =>
    .write hx (.write hother (.ret _))))

variable [DecidableEq ι]

theorem body_within (m : Member ι) :
    (body (H := H) m).Within (sharedBy (guards m)) (ownedBy (guards m)) := by
  cases m with
  | addRecord x record => exact addRecordBody_within x record
  | removeRecord x name type => exact removeRecordBody_within x name type
  | clear x =>
    have hx : x ∈ [x] := List.mem_singleton_self x
    exact .write hx (.write hx (.ret _))
  | lookup x name type => exact lookupBody_within x name type
  | contains x name type => exact containsBody_within x name type
  | hasName x name => exact .read (Or.inl (List.mem_singleton_self x)) fun _ => .ret _
  | recordCount x => exact .read (Or.inl (List.mem_singleton_self x)) fun _ => .ret _
  | copyConstruct other =>
    have hother : other ∈ [other] := List.mem_singleton_self other
    exact .read (Or.inl hother) fun _ => .read (Or.inl hother) fun _ => .ret _
  | moveConstruct other =>
    have hother : other ∈ [other] := List.mem_singleton_self other
    exact .read (Or.inr hother) fun _ => .write hother (.read (Or.inr hother) fun _ =>
      .write hother (.ret _))
  | copyAssign x other =>
    rw [body, guards]
    split
    · exact .ret _
    · exact copyAssignBody_within x other
  | moveAssign x other =>
    rw [body, guards]
    split
    · exact .ret _
    · exact moveAssignBody_within x other

theorem guards_distinct (m : Member ι) : (lockedBy (guards m)).Nodup := by
  cases m with
  | copyAssign x other | moveAssign x other =>
    rw [guards]
    split
    · exact List.nodup_nil
    · simpa [lockedBy, Guard.locks]
  | _ => exact List.nodup_singleton _

variable (H) in
def call (m : Member ι) : Call ι (ZoneStore H) (Answer (ZoneStore H)) :=
  ⟨guards m, body m, guards_distinct m, body_within m⟩

/-- The guards are a single lock each, but for the `scoped_lock` of an assignment. -/
theorem call_sole (m : Member ι) : (call H m).guards.length ≤ 1 := by
  show (guards m).length ≤ 1
  cases m with
  | copyAssign x other | moveAssign x other =>
    rw [guards]
    split
    · exact Nat.zero_le 1
    · exact Nat.le_refl 1
  | _ => exact Nat.le_refl 1

theorem assigns_of_scoped {m : Member ι} {xs : List ι} (h : guards m = [.scopedLock xs]) :
    ∃ x other, xs = [x, other] ∧ x ≠ other ∧
      (m = .copyAssign x other ∨ m = .moveAssign x other) := by
  cases m with
  | copyAssign x other =>
    rw [guards] at h
    split at h
    · cases h
    · rename_i hne
      cases h
      exact ⟨x, other, rfl, hne, Or.inl rfl⟩
  | moveAssign x other =>
    rw [guards] at h
    split at h
    · cases h
    · rename_i hne
      cases h
      exact ⟨x, other, rfl, hne, Or.inr rfl⟩
  | _ => cases h

end Within

/-! ### The members at once -/

section AtOnce
variable [DecidableEq ι] (stores : ι → ZoneStore H) (x other : ι)

theorem run_addRecord (record : ResourceRecord) :
    (addRecordBody x record).run stores =
      (.done, Function.update stores x (addRecordUnder (fun _ => false) (stores x) record).2) := by
  simp [addRecordBody, Body.run, addRecordUnder, setCount]

/-- The entry is changed in place and only then looked at again. -/
theorem run_removeRecord (name : Name) (type : UInt16) :
    (removeRecordBody x name type).run stores =
      (.found ((stores x).removeRecord name type).1,
        Function.update stores x ((stores x).removeRecord name type).2) := by
  unfold ZoneStore.removeRecord removeRecordBody
  cases hfind : find? (stores x).records_ (canonicalize name) with
  | none => simp [Body.run, Container.contains, hfind]
  | some typeMap =>
    cases htype : find? typeMap type with
    | none => simp [Body.run, Container.contains, typesAt, hfind, slot, htype]
    | some records =>
      by_cases hlast : isEmpty (erase typeMap type) = true
      · simp [Body.run, Container.contains, typesAt, recordsAt, slot, setCount, setRecords, hfind,
          htype, hlast]
      · simp [Body.run, Container.contains, typesAt, recordsAt, slot, setCount, setRecords, hfind,
          htype, hlast]

theorem run_lookup (name : Name) (type : UInt16) :
    (lookupBody x name type).run stores = (.records ((stores x).lookup name type), stores) := by
  unfold ZoneStore.lookup lookupBody
  cases hfind : find? (stores x).records_ (canonicalize name) with
  | none => simp [Body.run, Container.contains, hfind]
  | some typeMap =>
    cases htype : find? typeMap type with
    | none => simp [Body.run, Container.contains, typesAt, hfind, slot, htype]
    | some records => simp [Body.run, Container.contains, typesAt, recordsAt, hfind, slot, htype]

theorem run_contains (name : Name) (type : UInt16) :
    (containsBody x name type).run stores = (.found ((stores x).contains name type), stores) := by
  unfold ZoneStore.contains containsBody
  cases hfind : find? (stores x).records_ (canonicalize name) with
  | none => simp [Body.run, Container.contains, hfind]
  | some typeMap => simp [Body.run, Container.contains, typesAt, hfind, slot]

omit [FiniteMap H] in
theorem run_copyAssign (hne : x ≠ other) :
    (copyAssignBody x other).run stores = (.done, Function.update stores x (stores other)) := by
  simp [copyAssignBody, Body.run, setRecords, setCount, Function.update_of_ne (Ne.symm hne)]

theorem run_moveConstruct :
    (moveConstructBody other).run stores = (.store (stores other),
      Function.update stores other ⟨moved (stores other).records_, 0⟩) := by
  simp [moveConstructBody, Body.run, setRecords, setCount]

theorem run_moveAssign (hne : x ≠ other) :
    (moveAssignBody x other).run stores = (.done, Function.update (Function.update stores x
      (stores other)) other ⟨moved (stores other).records_, 0⟩) := by
  have hne' : other ≠ x := Ne.symm hne
  refine Prod.ext rfl (funext fun z => ?_)
  by_cases hz : z = other
  · simp [moveAssignBody, Body.run, setRecords, setCount, hz, hne, hne']
  · by_cases hzx : z = x
    · simp [moveAssignBody, Body.run, setRecords, setCount, hzx, hne, hne']
    · simp [moveAssignBody, Body.run, setRecords, setCount, hz, hzx]

end AtOnce

/-! ### One log for each store -/

section Logs
variable [DecidableEq ι] {stores : ι → ZoneStore H} {logs : ι → RecordLog}

/-- A call as one step on the logs. -/
def onLogs : Member ι → (ι → RecordLog) → Answer RecordLog × (ι → RecordLog)
  | .addRecord x record, logs => (.done, Function.update logs x (RecordLog.add record (logs x)))
  | .removeRecord x name type, logs =>
    (.found (decide (RecordLog.recordsOf name type (logs x) ≠ [])),
      Function.update logs x (RecordLog.remove name type (logs x)))
  | .clear x, logs => (.done, Function.update logs x [])
  | .lookup x name type, logs => (.records (RecordLog.recordsOf name type (logs x)), logs)
  | .contains x name type, logs =>
    (.found (decide (RecordLog.recordsOf name type (logs x) ≠ [])), logs)
  | .hasName x name, logs => (.found (decide (RecordLog.Holds (logs x) name)), logs)
  | .recordCount x, logs => (.count (UInt64.ofNat (logs x).length), logs)
  | .copyConstruct other, logs => (.store (logs other), logs)
  | .copyAssign x other, logs => (.done, Function.update logs x (logs other))
  | .moveConstruct other, logs => (.store (logs other), Function.update logs other [])
  | .moveAssign x other, logs =>
    (.done, if x = other then logs
      else Function.update (Function.update logs x (logs other)) other [])

/-- The same answer, where a new store is related to its log. -/
inductive Agrees {S S' : Type} (related : S → S' → Prop) : Answer S → Answer S' → Prop where
  | done : Agrees related .done .done
  | found (b : Bool) : Agrees related (.found b) (.found b)
  | records (rs : List ResourceRecord) : Agrees related (.records rs) (.records rs)
  | count (n : UInt64) : Agrees related (.count n) (.count n)
  | store {s : S} {s' : S'} : related s s' → Agrees related (.store s) (.store s')

theorem represents_update (h : ∀ x, Represents (stores x) (logs x)) {store : ZoneStore H}
    {log : RecordLog} (hnew : Represents store log) (x : ι) :
    ∀ y, Represents (Function.update stores x store y) (Function.update logs x log y) := by
  intro y
  by_cases hy : y = x
  · rw [hy, Function.update_self, Function.update_self]
    exact hnew
  · rw [Function.update_of_ne hy, Function.update_of_ne hy]
    exact h y

theorem represents_addRecordUnder {store : ZoneStore H} {log : RecordLog}
    (h : Represents store log) (record : ResourceRecord) :
    Represents (addRecordUnder (fun _ => false) store record).2 (RecordLog.add record log) := by
  have hreturns := (addRecordUnder_none h record).1
  have hclean : CleanFailure (fun _ => false) (.addRecord record) store := by
    intro hthrew
    rw [hreturns] at hthrew
    cases hthrew
  have hkept := h.attempt hclean
  rwa [attempt, hreturns, if_neg Bool.false_ne_true] at hkept

/-- Each member, run at once, answers as its log and leaves what its log holds then. -/
theorem call_refines (h : ∀ x, Represents (stores x) (logs x)) (m : Member ι) :
    Agrees Behaves ((body m).run stores).1 (onLogs m logs).1 ∧
      ∀ x, Represents (((body m).run stores).2 x) ((onLogs m logs).2 x) := by
  cases m with
  | addRecord x record =>
    rw [body, run_addRecord]
    exact ⟨.done, represents_update h (represents_addRecordUnder (h x) record) x⟩
  | removeRecord x name type =>
    have hanswer : ((stores x).removeRecord name type).1 =
        decide (RecordLog.recordsOf name type (logs x) ≠ []) := by
      rw [Bool.eq_iff_iff, (h x).removeRecord_iff, decide_eq_true_iff]
    rw [body, run_removeRecord, hanswer]
    exact ⟨.found _, represents_update h ((h x).removeRecord name type) x⟩
  | clear x =>
    have hcleared : ((body (.clear x)).run stores) =
        (.done, Function.update stores x (stores x).clear) := by
      simp [body, clearBody, Body.run, setRecords, setCount, ZoneStore.clear]
    rw [hcleared]
    exact ⟨.done, represents_update h ((h x).update .clear) x⟩
  | lookup x name type =>
    rw [body, run_lookup, (h x).lookup]
    exact ⟨.records _, h⟩
  | contains x name type =>
    have hanswer : (stores x).contains name type =
        decide (RecordLog.recordsOf name type (logs x) ≠ []) := by
      rw [Bool.eq_iff_iff, (h x).contains_iff, decide_eq_true_iff]
    rw [body, run_contains, hanswer]
    exact ⟨.found _, h⟩
  | hasName x name =>
    refine ⟨?_, h⟩
    show Agrees Behaves (.found ((stores x).hasName name)) _
    rw [(h x).hasName_eq]
    exact .found _
  | recordCount x =>
    refine ⟨?_, h⟩
    show Agrees Behaves (.count (stores x).recordCount_) _
    rw [(h x).count]
    exact .count _
  | copyConstruct other => exact ⟨.store (h other).behaves, h⟩
  | copyAssign x other =>
    rw [body]
    by_cases hsame : x = other
    · subst hsame
      rw [if_pos rfl]
      refine ⟨.done, fun y => ?_⟩
      show Represents (stores y) (Function.update logs x (logs x) y)
      rw [Function.update_eq_self]
      exact h y
    · rw [if_neg hsame, run_copyAssign stores x other hsame]
      exact ⟨.done, represents_update h (h other) x⟩
  | moveConstruct other =>
    rw [body, run_moveConstruct]
    exact ⟨.store (h other).behaves, represents_update h (h other).moved other⟩
  | moveAssign x other =>
    rw [body, onLogs]
    by_cases hsame : x = other
    · rw [if_pos hsame, if_pos hsame]
      exact ⟨.done, h⟩
    · rw [if_neg hsame, if_neg hsame, run_moveAssign stores x other hsame]
      exact ⟨.done, represents_update (represents_update h (h other) x) (h other).moved other⟩

end Logs

/-! ### Main results -/

section Results
variable {τ : Type} [DecidableEq τ] [DecidableEq ι]

/-- However the accesses of any number of threads interleave, the calls that have begun to give
back their locks gave the answers of one sequence of calls on the logs, in that order; and each
store that no call is changing just now behaves as its log. The order is one of moments between the
beginning and the end of each call: it only ever grows, and each thread has returned from all of its
calls in it but the one it may be leaving. -/
theorem runs_linearizable {spurious : Prop} {stores : ι → ZoneStore H} {logs : ι → RecordLog}
    (hstores : ∀ x, Reached (stores x) (logs x))
    {s : State τ (Member ι) ι (ZoneStore H) (Answer (ZoneStore H))}
    (h : Reaches (call H) spurious (start stores) s) :
    (∃ history now, Sequential onLogs logs history now ∧
      List.Forall₂ (SameReturn (Agrees Behaves)) s.released history ∧
      ∀ x, (∀ i m rest, s.threads i = .running m rest → x ∉ ownedBy (guards m)) →
        Behaves (s.shared x) (now x)) ∧
    (∀ s', Reaches (call H) spurious s s' → s.released <+: s'.released) ∧
    ∀ i, s.released.filter (·.1 = i) =
      s.returned.filter (·.1 = i) ++ (s.threads i).unreturned i := by
  obtain ⟨objects, hlegal⟩ := h.legal
  have hcall : ∀ (m : Member ι) (stores : ι → ZoneStore H) (logs : ι → RecordLog),
      (∀ x, Represents (stores x) (logs x)) → _ := fun m _ _ h => call_refines h m
  obtain ⟨history, now, hsequential, hnow, hsame⟩ :=
    hlegal.sequential.simulate hcall fun x => (hstores x).represents
  refine ⟨⟨history, now, hsequential, hsame, fun x hx => ?_⟩, fun s' hs' => ?_, h.inOrder⟩
  · rw [hlegal.settled x hx]
    exact (hnow x).behaves
  · exact hs'.released_prefix

/-- A thread adds a record to one store while another one counts those of a second store. -/
theorem addWhileCounting_reached :
    ∃ s s' : State Bool (Member Bool) Bool (ZoneStore AssocMap) (Answer (ZoneStore AssocMap)),
      Reaches (call AssocMap) False (start fun _ => construct) s ∧
      (∃ f next, s.threads false = .running (.addRecord false mailRecord) (.write false f next)) ∧
      s.threads true = .running (.recordCount true) (recordCountBody true) ∧
      Reaches (call AssocMap) False s s' ∧
      s'.threads false = .leaving (.addRecord false mailRecord) .done [] ∧
      s'.threads true = s.threads true ∧
      s'.released = [(false, .addRecord false mailRecord, .done)] ∧ s'.returned = [] := by
  refine ⟨_, _, .tail (.tail (.tail (.tail (.tail (.tail .refl
    (.invoke (i := false) (.addRecord false mailRecord) rfl))
    (.lock (i := false) (x := false) rfl (Call.at_first rfl []) List.mem_cons_self
      List.not_mem_nil ?_))
    (.enter (i := false) rfl ?_)) (.invoke (i := true) (.recordCount true) rfl))
    (.lock (i := true) (x := true) rfl (Call.at_first rfl []) List.mem_cons_self
      List.not_mem_nil ?_))
    (.enter (i := true) rfl ?_), ?_, rfl, .tail (.tail (.tail (.tail (.tail (.tail .refl
      (.write (i := false) rfl)) (.write (i := false) rfl)) (.write (i := false) rfl))
      (.write (i := false) rfl)) (.release (i := false) rfl))
      (.unlock (i := false) (x := false) rfl List.mem_cons_self), rfl, rfl, rfl, rfl⟩
  · intro j hj
    rw [Bool.eq_true_of_not_eq_false hj]
    exact ⟨id, fun _ => id⟩
  · intro y hy
    rcases hy with hy | hy
    · exact absurd hy List.not_mem_nil
    · exact hy
  · intro j hj
    rw [Bool.eq_false_of_not_eq_true hj]
    refine ⟨fun howns => ?_, fun howns => absurd howns List.not_mem_nil⟩
    exact Bool.noConfusion (List.mem_singleton.mp howns)
  · intro y hy
    rcases hy with hy | hy
    · exact hy
    · exact absurd hy List.not_mem_nil
  · exact ⟨_, _, rfl⟩

theorem runs_linearizable_addWhileCounting :
    ∃ s : State Bool (Member Bool) Bool (ZoneStore AssocMap) (Answer (ZoneStore AssocMap)),
      s.released = [(false, .addRecord false mailRecord, .done)] ∧ s.returned = [] ∧
      (∃ history now, Sequential onLogs (fun _ => []) history now ∧
        List.Forall₂ (SameReturn (Agrees Behaves)) s.released history ∧
        Behaves (s.shared false) (now false)) ∧
      s.released.filter (·.1 = false) =
        s.returned.filter (·.1 = false) ++ (s.threads false).unreturned false := by
  obtain ⟨s, s', hs, _, htrue, hs', hfalse, hkept, hreleased, hreturned⟩ :=
    addWhileCounting_reached
  have hempty : ∀ _ : Bool, Reached (construct : ZoneStore AssocMap) [] :=
    fun _ => reached_updateAll []
  obtain ⟨⟨history, now, hsequential, hsame, hbehaves⟩, _, hinOrder⟩ :=
    runs_linearizable hempty (hs.trans hs')
  refine ⟨s', hreleased, hreturned, ⟨history, now, hsequential, hsame, hbehaves false ?_⟩,
    hinOrder false⟩
  intro i m rest hi
  cases i with
  | false =>
    rw [hfalse] at hi
    cases hi
  | true =>
    rw [hkept, htrue] at hi
    cases hi
    exact List.not_mem_nil

/-- No access to a store happens while another thread is about to write it. -/
theorem accesses_never_race {spurious : Prop} {stores : ι → ZoneStore H}
    {s : State τ (Member ι) ι (ZoneStore H) (Answer (ZoneStore H))}
    (h : Reaches (call H) spurious (start stores) s) {i j : τ} (hij : i ≠ j) {m m' : Member ι}
    {x : ι} {f : ZoneStore H → ZoneStore H} {next rest : MemberBody ι H}
    (hi : s.threads i = .running m (.write x f next)) (hj : s.threads j = .running m' rest) :
    ¬ rest.Touches x := by
  obtain ⟨objects, hlegal⟩ := h.legal
  exact hlegal.no_race hi hij hj

theorem accesses_never_race_addWhileCounting :
    ¬ (recordCountBody (H := AssocMap) true).Touches false := by
  obtain ⟨s, s', hs, ⟨f, next, hfalse⟩, htrue, _⟩ := addWhileCounting_reached
  exact accesses_never_race hs Bool.false_ne_true hfalse htrue

/-- A call that has a mutex and waits for another one is an assignment, whose `scoped_lock` gives
the one back while it cannot have the other. So, whatever locks the threads have and wait for, all
their calls can still return, and no guard need ever give back a lock for no reason. -/
theorem calls_never_deadlock [Fintype τ] {spurious : Prop} {stores : ι → ZoneStore H}
    {s : State τ (Member ι) ι (ZoneStore H) (Answer (ZoneStore H))}
    (h : Reaches (call H) spurious (start stores) s) :
    (∀ i m held y, s.threads i = .locking m held → held ≠ [] → Needs (call H) m y → y ∉ held →
      ∃ x other, x ≠ other ∧ (m = .copyAssign x other ∨ m = .moveAssign x other)) ∧
    ∃ s', Reaches (call H) False s s' ∧ (∀ i, s'.threads i = .idle) ∧
      ∃ returned, s'.returned = s.returned ++ returned ∧
        ∀ i m, (s.threads i).Calls m → ∃ answer, (i, m, answer) ∈ returned := by
  have hfits := h.fits
  constructor
  · intro i m held y hi hheld hy hmissing
    have hi' := hfits i
    rw [hi] at hi'
    obtain ⟨xs, hguards⟩ := scoped_of_waiting (call_sole m) hi' hheld hy hmissing
    obtain ⟨x, other, _, hne, hm⟩ := assigns_of_scoped hguards
    exact ⟨x, other, hne, hm⟩
  · have hall : ∀ i : τ, i ∈ Finset.univ.toList :=
      fun i => Finset.mem_toList.mpr (Finset.mem_univ i)
    obtain ⟨s', hadvances, hidle⟩ := exists_quiescent False call_sole hall hfits
    obtain ⟨returned, hreturned, hcalls⟩ := hadvances.returned
    refine ⟨s', hadvances.reaches, hidle, returned, hreturned, fun i m hcall => ?_⟩
    rcases hcalls i m hcall with hstill | hreturned'
    · rw [hidle i] at hstill
      exact hstill.elim
    · exact hreturned'

/-- Two stores are assigned to each other, and each thread has got one of the two mutexes. -/
theorem crossedAssignments_reached :
    ∃ s : State Bool (Member Bool) Bool (ZoneStore AssocMap) (Answer (ZoneStore AssocMap)),
      Reaches (call AssocMap) False (start fun _ => construct) s ∧
      s.threads false = .locking (.copyAssign false true) [false] ∧
      s.threads true = .locking (.copyAssign true false) [true] ∧ s.returned = [] := by
  refine ⟨_, .tail (.tail (.tail (.tail .refl
    (.invoke (i := false) (.copyAssign false true) rfl))
    (.lock (i := false) (x := false) rfl (Call.at_first rfl []) List.mem_cons_self
      List.not_mem_nil ?_))
    (.invoke (i := true) (.copyAssign true false) rfl))
    (.lock (i := true) (x := true) rfl (Call.at_first rfl []) List.mem_cons_self
      List.not_mem_nil ?_),
    rfl, rfl, rfl⟩
  · intro j hj
    rw [Bool.eq_true_of_not_eq_false hj]
    exact ⟨id, fun _ => id⟩
  · intro j hj
    rw [Bool.eq_false_of_not_eq_true hj]
    have hfree : true ∉ [false] := by decide
    exact ⟨fun howns => hfree howns.1, fun _ => hfree⟩

theorem calls_never_deadlock_crossedAssignments :
    ∃ s s' : State Bool (Member Bool) Bool (ZoneStore AssocMap) (Answer (ZoneStore AssocMap)),
      s.threads false = .locking (.copyAssign false true) [false] ∧
      s.threads true = .locking (.copyAssign true false) [true] ∧
      Reaches (call AssocMap) False s s' ∧ (∀ i, s'.threads i = .idle) ∧
      (∃ answer, (false, .copyAssign false true, answer) ∈ s'.returned) ∧
      ∃ answer, (true, .copyAssign true false, answer) ∈ s'.returned := by
  obtain ⟨s, hs, hfalse, htrue, hnone⟩ := crossedAssignments_reached
  obtain ⟨_, s', hs', hidle, returned, hreturned, hcalls⟩ := calls_never_deadlock hs
  rw [hnone, List.nil_append] at hreturned
  refine ⟨s, s', hfalse, htrue, hs', hidle, ?_, ?_⟩
  · rw [hreturned]
    apply hcalls
    rw [hfalse]
    exact rfl
  · rw [hreturned]
    apply hcalls
    rw [htrue]
    exact rfl

omit [FiniteMap H] in
/-- This is what the `scoped_lock` is for: if assignments took the two mutexes one by one, two of
them in opposite directions could wait for each other for ever. -/
theorem unscoped_assignments_deadlock {spurious : Prop}
    {call' : Member ι → Call ι (ZoneStore H) (Answer (ZoneStore H))} {x other : ι}
    (hne : x ≠ other)
    (hguards : (call' (.copyAssign x other)).guards = [.uniqueLock x, .uniqueLock other])
    (hguards' : (call' (.copyAssign other x)).guards = [.uniqueLock other, .uniqueLock x])
    {i j : τ} (hij : i ≠ j) (stores : ι → ZoneStore H) :
    ∃ s, Reaches call' spurious (start stores) s ∧ ∀ s', Reaches call' spurious s s' →
      s'.threads i ≠ .idle ∧ s'.threads j ≠ .idle := by
  obtain ⟨s, hs, hstuck⟩ := crossed_guards_deadlock hguards hguards' hne hij stores
  refine ⟨s, hs, fun s' hs' => ?_⟩
  obtain ⟨hi, hj⟩ := hstuck s' hs'
  rw [hi, hj]
  exact ⟨nofun, nofun⟩

end Results

end DnsPro.Locked
