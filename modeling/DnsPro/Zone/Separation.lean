import DnsPro.Lib.Joining
import DnsPro.Zone.Canonical
import DnsPro.Zone.Refinement
import DnsPro.Wire.BuilderSpec
import DnsPro.Parser

/-!
# Which names a key tells apart

A label may contain the byte that joins labels in a key; the parser lets it through. Two names
then share a key although they differ: they read the same once every label is split at its dots,
with the dots spread differently over the labels. Such a pair `Collide`s. On all other names
without empty labels a key is the name up to the case of letters, and a zone without a colliding
record works as if it compared names that way.
-/

namespace DnsPro

open Packet Container ZoneStore Wire

set_option autoImplicit false

variable {H : Type → Type → Type} [FiniteMap H]

/-- The labels in lower case, split at the dots inside them. -/
def pieces (n : Name) : List Label :=
  (n.labels.map (List.map tolower)).flatMap (List.splitOn 46)

/-- How many dots each label contains. -/
def dotCounts (n : Name) : List Nat :=
  n.labels.map (List.count 46)

def Collide (n n' : Name) : Prop :=
  pieces n = pieces n' ∧ dotCounts n ≠ dotCounts n'

instance (n n' : Name) : Decidable (Collide n n') :=
  inferInstanceAs (Decidable (_ ∧ _))

/-! ### Keys and pieces -/

section Keys
variable {n n' : Name}

theorem tolower_beq_dot (c : UInt8) : (tolower c == 46) = (c == 46) := by
  exact Word.forall_byte (P := fun c => (tolower c == 46) = (c == 46)) (by decide +kernel) c

theorem count_map_tolower (l : Label) : (l.map tolower).count 46 = l.count 46 := by
  simp only [List.count, List.countP_map, Function.comp_def, tolower_beq_dot]

theorem dotCounts_eq (n : Name) :
    dotCounts n = (n.labels.map (List.map tolower)).map (List.count 46) := by
  rw [dotCounts, List.map_map]
  exact List.map_congr_left fun l _ => (count_map_tolower l).symm

theorem sameUpToCase_iff_pieces :
    SameUpToCase n n' ↔ pieces n = pieces n' ∧ dotCounts n = dotCounts n' := by
  rw [sameUpToCase_iff, Joining.eq_iff_pieces (x := 46), dotCounts_eq, dotCounts_eq]
  rfl

theorem canonicalize_eq_nil_iff_root (h : NonemptyLabels n) :
    canonicalize n = [] ↔ n.labels = [] := by
  rw [canonicalize_eq_nil_iff]
  apply or_iff_left
  intro hempty
  exact absurd (h [] (by simp [hempty])) (by decide)

theorem pieces_eq_nil_iff : pieces n = [] ↔ n.labels = [] := by
  unfold pieces
  cases n.labels with
  | nil => simp
  | cons l ls => simp

/-- The root aside, a key is a join of the pieces. -/
theorem canonicalize_eq_iff_pieces (h : n.labels ≠ []) (h' : n'.labels ≠ []) :
    canonicalize n = canonicalize n' ↔ pieces n = pieces n' := by
  rw [canonicalize_eq_intercalate, canonicalize_eq_intercalate]
  apply Joining.intercalate_eq_iff
  · simpa using h
  · simpa using h'

theorem canonicalize_eq_iff (h : NonemptyLabels n) (h' : NonemptyLabels n') :
    canonicalize n = canonicalize n' ↔ pieces n = pieces n' := by
  by_cases hroot : n.labels = []
  · rw [(canonicalize_eq_nil_iff_root h).mpr hroot, pieces_eq_nil_iff.mpr hroot,
      @eq_comm _ [] (canonicalize n'), @eq_comm _ [] (pieces n'), canonicalize_eq_nil_iff_root h',
      pieces_eq_nil_iff]
  · by_cases hroot' : n'.labels = []
    · rw [(canonicalize_eq_nil_iff_root h').mpr hroot', pieces_eq_nil_iff.mpr hroot',
        canonicalize_eq_nil_iff_root h, pieces_eq_nil_iff]
    · exact canonicalize_eq_iff_pieces hroot hroot'

theorem same_or_collide_of_pieces (h : pieces n = pieces n') :
    SameUpToCase n n' ∨ Collide n n' := by
  rw [sameUpToCase_iff_pieces, Collide, ← and_or_left]
  exact ⟨h, em _⟩

theorem canonicalize_eq_iff_or (h : NonemptyLabels n) (h' : NonemptyLabels n') :
    canonicalize n = canonicalize n' ↔ SameUpToCase n n' ∨ Collide n n' := by
  rw [canonicalize_eq_iff h h']
  constructor
  · exact same_or_collide_of_pieces
  · intro heq
    rcases heq with hsame | hcollide
    · exact (sameUpToCase_iff_pieces.mp hsame).1
    · exact hcollide.1

/-- Names with one key, empty labels included: the single empty label has the key of the root. -/
theorem same_or_collide (hkey : canonicalize n = canonicalize n') (hne : n'.labels ≠ [[]]) :
    SameUpToCase n n' ∨ Collide n n' ∨ n.labels = [[]] ∧ n'.labels = [] := by
  by_cases hroot' : n'.labels = []
  · rw [canonicalize_eq_nil_iff.mpr (Or.inl hroot'), canonicalize_eq_nil_iff] at hkey
    rcases hkey with hroot | hempty
    · exact Or.inl (sameUpToCase_iff.mpr (by rw [hroot, hroot']))
    · exact Or.inr (Or.inr ⟨hempty, hroot'⟩)
  · by_cases hroot : n.labels = []
    · rw [canonicalize_eq_nil_iff.mpr (Or.inl hroot), eq_comm, canonicalize_eq_nil_iff] at hkey
      rcases hkey with hnil | hempty
      · exact absurd hnil hroot'
      · exact absurd hempty hne
    · rcases same_or_collide_of_pieces ((canonicalize_eq_iff_pieces hroot hroot').mp hkey) with
        hsame | hcollide
      · exact Or.inl hsame
      · exact Or.inr (Or.inl hcollide)

theorem Collide.not_same (h : Collide n n') : ¬ SameUpToCase n n' := by
  intro hsame
  exact h.2 (sameUpToCase_iff_pieces.mp hsame).2

end Keys

/-! ### Stores -/

/-- The records of a log with a type and, up to case, a name. -/
def recordsNamed (name : Name) (type : UInt16) (log : RecordLog) : List ResourceRecord :=
  log.filter fun r => SameUpToCase r.name name ∧ r.type = type

/-- Under this name the store shows the records of this name, and removes no others. -/
structure Isolates (zone : ZoneStore H) (log : RecordLog) (name : Name) : Prop where
  lookup : ∀ type, zone.lookup name type = recordsNamed name type log
  contains : ∀ type, zone.contains name type = true ↔ recordsNamed name type log ≠ []
  hasName : zone.hasName name = true ↔ ∃ r ∈ log, SameUpToCase r.name name
  removeRecord : ∀ type, (zone.removeRecord name type).1 = true ↔ recordsNamed name type log ≠ []
  keeps : ∀ type, ∀ r ∈ log, ¬ (SameUpToCase r.name name ∧ r.type = type) →
    r ∈ (zone.removeRecord name type).2.lookup r.name r.type

section Stores
variable {zone : ZoneStore H} {log : RecordLog} {name : Name}

theorem isolates_of_keys (hrep : Represents zone log)
    (hkeys : ∀ r ∈ log, keyOf r = canonicalize name ↔ SameUpToCase r.name name) :
    Isolates zone log name := by
  have hrecords : ∀ type, RecordLog.recordsOf name type log = recordsNamed name type log := by
    intro type
    apply List.filter_congr
    intro r hr
    rw [decide_eq_decide, hkeys r hr]
  refine ⟨fun type => ?_, fun type => ?_, ?_, fun type => ?_, fun type r hr hother => ?_⟩
  · rw [hrep.lookup, hrecords]
  · rw [hrep.contains_iff, hrecords]
  · rw [hrep.hasName_iff]
    exact exists_congr fun r => and_congr_right fun hr => hkeys r hr
  · rw [hrep.removeRecord_iff, hrecords]
  · rw [(hrep.removeRecord name type).lookup, RecordLog.mem_recordsOf]
    refine ⟨?_, rfl, rfl⟩
    rw [RecordLog.remove, unfiled, List.mem_filter, decide_eq_true_iff, hkeys r hr]
    exact ⟨hr, hother⟩

/-- A stored record that collides with the name is returned for it. -/
theorem Isolates.not_collide (hrep : Represents zone log) (h : Isolates zone log name)
    (hname : NonemptyLabels name) {r : ResourceRecord} (hr : r ∈ log)
    (hlabels : NonemptyLabels r.name) : ¬ Collide r.name name := by
  intro hcollide
  have hkey := (canonicalize_eq_iff_or hlabels hname).mpr (Or.inr hcollide)
  have hseen : r ∈ zone.lookup name r.type := by
    rw [hrep.lookup, RecordLog.mem_recordsOf]
    exact ⟨hr, hkey, rfl⟩
  rw [h.lookup, recordsNamed, List.mem_filter, decide_eq_true_iff] at hseen
  exact hcollide.not_same hseen.2.1

end Stores

/-- A key tells two names apart as the domain name system does, unless they collide; and the
operations on a name keep to the records of that name exactly when no stored record collides
with it. -/
theorem separates_iff {n n' : Name} (hn : NonemptyLabels n) (hn' : NonemptyLabels n') :
    ((canonicalize n = canonicalize n' ↔ SameUpToCase n n') ↔ ¬ Collide n n') ∧
    ∀ (zone : ZoneStore H) (log : RecordLog), Reached zone log →
      (∀ r ∈ log, NonemptyLabels r.name) →
      (Isolates zone log n ↔ ∀ r ∈ log, ¬ Collide r.name n) := by
  constructor
  · rw [canonicalize_eq_iff_or hn hn']
    constructor
    · intro h hcollide
      exact hcollide.not_same (h.mp (Or.inr hcollide))
    · intro h
      exact or_iff_left h
  · intro zone log hzone hlog
    have hrep := hzone.represents
    constructor
    · intro h r hr
      exact h.not_collide hrep hn hr (hlog r hr)
    · intro h
      apply isolates_of_keys hrep
      intro r hr
      rw [keyOf, canonicalize_eq_iff_or (hlog r hr) hn]
      exact or_iff_left (h r hr)

/-- The one label `a.b`. -/
def dottedName : Name := ⟨[[97, 46, 98]]⟩

/-- An address of `a.b`, two labels. -/
def splitRecord : ResourceRecord := ⟨⟨[[97], [98]]⟩, 1, 1, 60, [10, 0, 0, 1], 0⟩

/-- The parser accepts the dotted name; a store answers for it with the record of the other name
and deletes that record on its behalf. -/
theorem dottedName_collides :
    Parser.parseName [3, 97, 46, 98, 0] 0 ⟨[]⟩ = (.OK, 5, dottedName) ∧
      NonemptyLabels dottedName ∧ NonemptyLabels splitRecord.name ∧
      canonicalize dottedName = canonicalize splitRecord.name ∧
      ¬ SameUpToCase dottedName splitRecord.name ∧
      let zone : ZoneStore AssocMap := construct.addRecord splitRecord
      zone.lookup dottedName 1 = [splitRecord] ∧ zone.contains dottedName 1 = true ∧
        zone.hasName dottedName = true ∧ (zone.removeRecord dottedName 1).1 = true ∧
        (zone.removeRecord dottedName 1).2.lookup splitRecord.name 1 = [] := by
  refine ⟨by decide +kernel, ?_, ?_, by decide +kernel, by decide +kernel, by decide +kernel⟩
  · simp [NonemptyLabels, dottedName]
  · simp [NonemptyLabels, splitRecord]

/-- Names that differ in the case of letters only do not collide. -/
theorem separates_upperCase :
    (canonicalize ⟨[[65], [98]]⟩ = canonicalize splitRecord.name ↔
      SameUpToCase ⟨[[65], [98]]⟩ splitRecord.name) ∧
    Isolates (construct.addRecord splitRecord : ZoneStore AssocMap) [splitRecord]
      ⟨[[65], [98]]⟩ := by
  have hn : NonemptyLabels ⟨[[65], [98]]⟩ := by simp [NonemptyLabels]
  have hn' : NonemptyLabels splitRecord.name := by simp [NonemptyLabels, splitRecord]
  have hseparates := separates_iff (H := AssocMap) hn hn'
  have hzone : Reached (construct.addRecord splitRecord : ZoneStore AssocMap) [splitRecord] :=
    reached_updateAll [.addRecord splitRecord]
  refine ⟨hseparates.1.mpr (by decide +kernel), ?_⟩
  apply (hseparates.2 _ _ hzone ?_).mpr
  · decide +kernel
  · simpa using hn'

end DnsPro
