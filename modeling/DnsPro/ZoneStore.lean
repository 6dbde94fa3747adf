import DnsPro.Packet
import DnsPro.Lib.FiniteMap
import DnsPro.Lib.Objects

/-!
# ZoneStore: records indexed by name and type

`ZoneStore.cpp`, function by function, over any map container `H` with the interface of
`Lib.FiniteMap` in the place of `HashMapPro::HashMap`, whose code is not part of the repository.
A member that changes the store returns the new one. The mutex is not modelled: every public
member holds it for its whole body, so a call is one step. `recordCount_` is a 64-bit
`std::size_t`, since it is decremented.
-/

namespace DnsPro

open Packet Container

set_option autoImplicit false

/-- A key of the outer map, a `std::string` of arbitrary bytes. -/
abbrev Key := List UInt8

structure ZoneStore (H : Type → Type → Type) where
  records_ : H Key (H UInt16 (List ResourceRecord))
  recordCount_ : UInt64

namespace ZoneStore

variable {H : Type → Type → Type} [FiniteMap H]

/-! ### Canonical names -/

/-- `std::tolower` in the C locale. -/
def tolower (c : UInt8) : UInt8 :=
  if 65 ≤ c ∧ c ≤ 90 then c + 32 else c

/-- The loop over the labels: `i` is the index of the next one and `key` what was joined so far,
with a `'.'` in front of every label but the first. -/
def canonicalizeLoop : Nat → List Label → Key → Key
  | _, [], key => key
  | i, label :: labels, key =>
    let key := if i > 0 then key ++ [46] else key
    canonicalizeLoop (i + 1) labels (key ++ label.map tolower)

def canonicalize (name : Name) : Key :=
  canonicalizeLoop 0 name.labels []

/-! ### Special members -/

def construct : ZoneStore H :=
  ⟨empty, 0⟩

def copyConstruct (other : ZoneStore H) : ZoneStore H :=
  ⟨other.records_, other.recordCount_⟩

/-- `other` is another store; `assignSelf` is the case `this == &other`. -/
def copyAssign (_self other : ZoneStore H) : ZoneStore H :=
  ⟨other.records_, other.recordCount_⟩

/-- The new store, and `other` after its contents were moved out. -/
def moveConstruct (other : ZoneStore H) : ZoneStore H × ZoneStore H :=
  (⟨other.records_, other.recordCount_⟩, ⟨moved other.records_, 0⟩)

def moveAssign (_self other : ZoneStore H) : ZoneStore H × ZoneStore H :=
  (⟨other.records_, other.recordCount_⟩, ⟨moved other.records_, 0⟩)

/-- Either assignment where both sides are one store: `if (this == &other) return *this`. -/
def assignSelf (self : ZoneStore H) : ZoneStore H :=
  self

/-! ### Record management -/

/-- `records_[key][record.type].push_back(record)`; each `[]` creates a missing entry. -/
def addRecord (store : ZoneStore H) (record : ResourceRecord) : ZoneStore H :=
  let key := canonicalize record.name
  let typeMap := slot store.records_ key empty
  let records := slot typeMap record.type []
  { records_ := insert store.records_ key (insert typeMap record.type (records ++ [record]))
    recordCount_ := store.recordCount_ + 1 }

/-- The result, and the store after the call. `contains` followed by `at` is one `find?`. -/
def removeRecord (store : ZoneStore H) (name : Name) (type : UInt16) : Bool × ZoneStore H :=
  let key := canonicalize name
  match find? store.records_ key with
  | none => (false, store)
  | some typeMap =>
    match find? typeMap type with
    | none => (false, store)
    | some records =>
      let recordCount := store.recordCount_ - UInt64.ofNat records.length
      -- `typeMap` is a reference into `records_`
      let typeMap := erase typeMap type
      let records_ := insert store.records_ key typeMap
      (true, ⟨if isEmpty typeMap then erase records_ key else records_, recordCount⟩)

/-! ### Introspection -/

def lookup (store : ZoneStore H) (name : Name) (type : UInt16) : List ResourceRecord :=
  match find? store.records_ (canonicalize name) with
  | none => []
  | some typeMap => (find? typeMap type).getD []

def contains (store : ZoneStore H) (name : Name) (type : UInt16) : Bool :=
  match find? store.records_ (canonicalize name) with
  | none => false
  | some typeMap => Container.contains typeMap type

def hasName (store : ZoneStore H) (name : Name) : Bool :=
  Container.contains store.records_ (canonicalize name)

def clear (store : ZoneStore H) : ZoneStore H :=
  ⟨Container.clear store.records_, 0⟩

def recordCount (store : ZoneStore H) : UInt64 :=
  store.recordCount_

/-! ### The class as its clients use it -/

inductive Update where
  | addRecord (record : ResourceRecord)
  | removeRecord (name : Name) (type : UInt16)
  | clear

def update : Update → ZoneStore H → ZoneStore H
  | .addRecord record, store => store.addRecord record
  | .removeRecord name type, store => (store.removeRecord name type).2
  | .clear, store => store.clear

def updateAll (updates : List Update) (store : ZoneStore H) : ZoneStore H :=
  updates.foldl (fun store u => update u store) store

def members : Objects.ValueClass Update (ZoneStore H) where
  construct := construct
  call := update
  copyConstruct := copyConstruct
  copyAssign := copyAssign
  copyAssignSelf := assignSelf
  moveConstruct := moveConstruct
  moveAssign := moveAssign
  moveAssignSelf := assignSelf

end ZoneStore

end DnsPro
