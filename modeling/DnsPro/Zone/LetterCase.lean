import DnsPro.Zone.Canonical
import DnsPro.Zone.Refinement

/-!
# Letter case in the zone store

Two runs of the same calls, in which names may be spelled in different letter cases, lead to
stores that answer alike. The logs of the two stores agree record by record, up to the spelling of
the owner names, and every observation on a store is a question about its log.
-/

namespace DnsPro

open Packet Container ZoneStore RecordLog

set_option autoImplicit false

variable {H : Type → Type → Type} [FiniteMap H]

/-- The same record up to the letter case of its owner name. -/
structure SameRecord (r r' : ResourceRecord) : Prop where
  name : SameUpToCase r.name r'.name
  rest : r' = { r with name := r'.name }

/-- The same call up to the letter case of the name passed to it. -/
inductive SameCall : Update → Update → Prop
  | addRecord {r r' : ResourceRecord} : SameRecord r r' → SameCall (.addRecord r) (.addRecord r')
  | removeRecord {n n' : Name} (type : UInt16) :
      SameUpToCase n n' → SameCall (.removeRecord n type) (.removeRecord n' type)
  | clear : SameCall .clear .clear

/-- Every question about a name gets the same answer from both stores, in whatever letter case it
is put to them; the records returned differ in the spelling of the owner name only. -/
structure SameAnswers (store store' : ZoneStore H) : Prop where
  contains : ∀ {n n' : Name}, SameUpToCase n n' →
    ∀ type, store.contains n type = store'.contains n' type
  hasName : ∀ {n n' : Name}, SameUpToCase n n' → store.hasName n = store'.hasName n'
  recordCount : store.recordCount = store'.recordCount
  removeRecord : ∀ {n n' : Name}, SameUpToCase n n' →
    ∀ type, (store.removeRecord n type).1 = (store'.removeRecord n' type).1
  lookup : ∀ {n n' : Name}, SameUpToCase n n' →
    ∀ type, List.Forall₂ SameRecord (store.lookup n type) (store'.lookup n' type)

/-! ### Logs -/

section Logs
variable {log log' : RecordLog} {n n' : Name} {r r' : ResourceRecord}

theorem SameRecord.keyOf_eq (h : SameRecord r r') : keyOf r = keyOf r' :=
  h.name.canonicalize_eq

/-- Both records are filed in the bucket of the name, or neither is. -/
theorem SameRecord.filed_iff (h : SameRecord r r') (hn : SameUpToCase n n') (type : UInt16) :
    (keyOf r = canonicalize n ∧ r.type = type) ↔
      (keyOf r' = canonicalize n' ∧ r'.type = type) := by
  have htype : r'.type = r.type := by rw [h.rest]
  rw [h.keyOf_eq, hn.canonicalize_eq, htype]

theorem recordsOf_same (hlog : List.Forall₂ SameRecord log log') (hn : SameUpToCase n n')
    (type : UInt16) :
    List.Forall₂ SameRecord (recordsOf n type log) (recordsOf n' type log') := by
  apply List.rel_filter _ hlog
  intro r r' hr
  dsimp only
  rw [decide_eq_true_iff, decide_eq_true_iff]
  exact hr.filed_iff hn type

theorem remove_same (hlog : List.Forall₂ SameRecord log log') (hn : SameUpToCase n n')
    (type : UInt16) : List.Forall₂ SameRecord (remove n type log) (remove n' type log') := by
  apply List.rel_filter _ hlog
  intro r r' hr
  dsimp only
  rw [decide_eq_true_iff, decide_eq_true_iff]
  exact not_congr (hr.filed_iff hn type)

theorem holds_same (hlog : List.Forall₂ SameRecord log log') (hn : SameUpToCase n n') :
    Holds log n ↔ Holds log' n' := by
  unfold Holds
  rw [hn.canonicalize_eq]
  induction hlog with
  | nil => rfl
  | cons hr _ ih => rw [List.exists_mem_cons_iff, List.exists_mem_cons_iff, ih, hr.keyOf_eq]

theorem update_same (hlog : List.Forall₂ SameRecord log log') {u u' : Update}
    (hu : SameCall u u') :
    List.Forall₂ SameRecord (RecordLog.update u log) (RecordLog.update u' log') := by
  cases hu with
  | addRecord hr => exact List.rel_append hlog (.cons hr .nil)
  | removeRecord type hn => exact remove_same hlog hn type
  | clear => exact .nil

theorem updateAll_same {updates updates' : List Update}
    (hcalls : List.Forall₂ SameCall updates updates') (hlog : List.Forall₂ SameRecord log log') :
    List.Forall₂ SameRecord (RecordLog.updateAll updates log)
      (RecordLog.updateAll updates' log') := by
  induction hcalls generalizing log log' with
  | nil => exact hlog
  | cons hu _ ih => exact ih (update_same hlog hu)

end Logs

/-! ### Stores -/

section Stores
variable {store store' : ZoneStore H} {log log' : RecordLog}

theorem Represents.sameAnswers (h : Represents store log) (h' : Represents store' log')
    (hlog : List.Forall₂ SameRecord log log') : SameAnswers store store' := by
  have hfound : ∀ {n n' : Name}, SameUpToCase n n' → ∀ type,
      recordsOf n type log ≠ [] ↔ recordsOf n' type log' ≠ [] := by
    intro n n' hn type
    have hlength := (recordsOf_same hlog hn type).length_eq
    rw [← List.length_pos_iff, ← List.length_pos_iff, hlength]
  refine ⟨fun hn type => ?_, fun hn => ?_, ?_, fun hn type => ?_, fun hn type => ?_⟩
  · rw [Bool.eq_iff_iff, h.contains_iff, h'.contains_iff]
    exact hfound hn type
  · rw [Bool.eq_iff_iff, h.hasName_iff, h'.hasName_iff]
    exact holds_same hlog hn
  · show store.recordCount_ = store'.recordCount_
    rw [h.count, h'.count, hlog.length_eq]
  · rw [Bool.eq_iff_iff, h.removeRecord_iff, h'.removeRecord_iff]
    exact hfound hn type
  · rw [h.lookup, h'.lookup]
    exact recordsOf_same hlog hn type

/-- After any number of calls, and so also at each removal among them. -/
theorem sameAnswers_updateAll {updates updates' : List Update}
    (hcalls : List.Forall₂ SameCall updates updates') (k : Nat) :
    SameAnswers (updateAll (updates.take k) construct : ZoneStore H)
      (updateAll (updates'.take k) construct) := by
  have hnil : Represents (construct : ZoneStore H) [] := represents_nil fun k => find?_empty k
  apply (hnil.updateAll (updates.take k)).sameAnswers (hnil.updateAll (updates'.take k))
  exact updateAll_same (List.forall₂_take k hcalls) .nil

end Stores

end DnsPro
