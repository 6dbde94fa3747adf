import DnsPro.ZoneStore
import DnsPro.Lib.NestedIndex

/-!
# What a zone store is for

The abstract store: the list of the records it holds, in the order they were added. It has the
same members as the store of the source, so the same programs run on both.
-/

namespace DnsPro

open Packet Container Objects

set_option autoImplicit false

/-- The records held, oldest first. -/
abbrev RecordLog := List ResourceRecord

abbrev keyOf (record : ResourceRecord) : Key :=
  ZoneStore.canonicalize record.name

namespace RecordLog

open ZoneStore

/-- The records with a canonical name and a type, in order. -/
def recordsOf (name : Name) (type : UInt16) (log : RecordLog) : List ResourceRecord :=
  filed keyOf ResourceRecord.type (canonicalize name) type log

def Holds (log : RecordLog) (name : Name) : Prop :=
  ∃ record ∈ log, keyOf record = canonicalize name

instance (log : RecordLog) (name : Name) : Decidable (Holds log name) :=
  inferInstanceAs (Decidable (∃ record ∈ log, keyOf record = canonicalize name))

def add (record : ResourceRecord) (log : RecordLog) : RecordLog :=
  log ++ [record]

def remove (name : Name) (type : UInt16) (log : RecordLog) : RecordLog :=
  unfiled keyOf ResourceRecord.type (canonicalize name) type log

def update : Update → RecordLog → RecordLog
  | .addRecord record, log => add record log
  | .removeRecord name type, log => remove name type log
  | .clear, _ => []

def updateAll (updates : List Update) (log : RecordLog) : RecordLog :=
  updates.foldl (fun log u => update u log) log

/-- A copy duplicates, a move leaves nothing behind, self-assignment changes nothing. -/
def members : ValueClass Update RecordLog where
  construct := []
  call := update
  copyConstruct other := other
  copyAssign _ other := other
  copyAssignSelf log := log
  moveConstruct other := (other, [])
  moveAssign _ other := (other, [])
  moveAssignSelf log := log

theorem mem_recordsOf {name : Name} {type : UInt16} {log : RecordLog} {record : ResourceRecord} :
    record ∈ recordsOf name type log ↔
      record ∈ log ∧ keyOf record = canonicalize name ∧ record.type = type := by
  simp [recordsOf, filed]

theorem length_recordsOf_le (name : Name) (type : UInt16) (log : RecordLog) :
    (recordsOf name type log).length ≤ log.length :=
  List.length_filter_le _ _

theorem length_remove_add (name : Name) (type : UInt16) (log : RecordLog) :
    (recordsOf name type log).length + (remove name type log).length = log.length :=
  length_filed_add_length_unfiled _ _ log

theorem length_remove_lt_iff {name : Name} {type : UInt16} {log : RecordLog} :
    (remove name type log).length < log.length ↔ recordsOf name type log ≠ [] := by
  have hsum := length_remove_add name type log
  rw [← List.length_pos_iff]
  omega

theorem holds_of_recordsOf_ne_nil {name : Name} {type : UInt16} {log : RecordLog}
    (h : recordsOf name type log ≠ []) : Holds log name := by
  obtain ⟨record, hrecord⟩ := List.exists_mem_of_ne_nil _ h
  obtain ⟨hmem, hkey, _⟩ := mem_recordsOf.mp hrecord
  exact ⟨record, hmem, hkey⟩

theorem recordsOf_eq_nil {name : Name} {log : RecordLog} (h : ¬ Holds log name) (type : UInt16) :
    recordsOf name type log = [] := by
  by_contra hne
  exact h (holds_of_recordsOf_ne_nil hne)

end RecordLog

end DnsPro
