import DnsPro.Wire.ParserSpec
import DnsPro.Wire.Placement

/-!
# Parsing and building back

The two directions through the grammar: what was parsed can be built and parsed again without
change, and what was built parses back unless an empty label went through.
-/

namespace DnsPro.Wire

open Packet DnsPro.Parser DnsPro.Builder Layout Word

set_option autoImplicit false

section Encoded
variable {b : Buffer} {m : Message} {e : Nat}

theorem Counted.sectionsFit (h : Counted m) : SectionsFit m := by
  have hq := m.header.qdcount.toNat_lt
  have ha := m.header.ancount.toNat_lt
  have hn := m.header.nscount.toNat_lt
  have hr := m.header.arcount.toNat_lt
  rw [h.questions] at hq
  rw [h.answers] at ha
  rw [h.authorities] at hn
  rw [h.additionals] at hr
  exact ⟨by omega, by omega, by omega, by omega⟩

theorem EncQuestion.goodLabels {o j : Nat} {q : Question} (h : EncQuestion b o q j) :
    GoodLabels q.qname := by
  obtain ⟨_, hname, _⟩ := h
  exact hname.labels_length

theorem EncRecord.fits {o j : Nat} {r : ResourceRecord} (h : EncRecord b o r j) :
    GoodLabels r.name ∧ r.rdata.length ≤ 65535 := by
  obtain ⟨_, hname, _, hlt, _⟩ := h
  exact ⟨hname.labels_length, by omega⟩

/-- The records of all three sections stand contiguously behind the questions. -/
theorem MessageAt.records {N : Nat → List Label → Nat → Prop} (h : MessageAt N b m e) :
    ∃ o, Chain (QuestionAt N b) 12 m.questions o ∧ Chain (RecordAt N b) o m.records e := by
  obtain ⟨_, _, o₁, o₂, o₃, hq, ha, hn, hr⟩ := h
  refine ⟨o₁, hq, ?_⟩
  rw [Message.records, chain_append_iff]
  exact ⟨o₃, chain_append_iff.mpr ⟨o₂, ha, hn⟩, hr⟩

/-- Whatever is encoded in a buffer is representable: the parser cannot produce more. -/
theorem MessageAt.representable (h : Encodes b m e) : Representable m := by
  obtain ⟨_, hq, hr⟩ := h.records
  have hrec : ∀ r ∈ m.records, GoodLabels r.name ∧ r.rdata.length ≤ 65535 :=
    hr.forall_mem fun _ _ _ h => EncRecord.fits h
  refine ⟨h.counted.sectionsFit, forall_names_iff.mpr ⟨?_, fun r hm => (hrec r hm).1⟩,
    fun r hm => (hrec r hm).2⟩
  exact hq.forall_mem fun _ _ _ h => EncQuestion.goodLabels h

end Encoded

theorem parse_messageBytes {m : Message} (h : Representable m) (out : Message) :
    parse (messageBytes m) out = (.OK, relocate m) :=
  parse_of_encodes (encodes_messageBytes h) out

theorem relocate_dropOffsets_of_counted {m : Message} (h : Counted m) :
    (relocate m).dropOffsets = m.dropOffsets := by
  rw [relocate_dropOffsets, countedHeader_of_counted h]

/-! ### The header of a packet -/

theorem header_unique {b : Buffer} {o : Nat} {h h' : Header} (hs : Sits b o (headerBytes h))
    (hs' : Sits b o (headerBytes h')) : h = h' := by
  have hread := parseHeader_eq_ok_iff.mpr ⟨hs, rfl⟩
  have hread' := parseHeader_eq_ok_iff.mpr ⟨hs', rfl⟩
  rw [hread] at hread'
  cases hread'
  rfl

theorem sits_header_messageBytes (m : Message) :
    Sits (messageBytes m) 0 (headerBytes (countedHeader m)) := by
  simp only [messageBytes, List.append_assoc]
  exact List.prefix_append _ _

theorem header_of_parse_messageBytes {m m' out : Message}
    (h : parse (messageBytes m) out = (.OK, m')) : m'.header = countedHeader m := by
  obtain ⟨e, henc⟩ := encodes_of_parse h
  exact header_unique henc.header (sits_header_messageBytes m)

theorem countedHeader_eq_of_messageBytes_eq {m m' : Message}
    (h : messageBytes m = messageBytes m') : countedHeader m = countedHeader m' := by
  have hs := sits_header_messageBytes m
  rw [h] at hs
  exact header_unique hs (sits_header_messageBytes m')

/-! ### One hop -/

/-- One hop of parse and build is a fixed point: the rebuilt packet parses to the same message up
to `rdataOffset`, and building that message again gives the same bytes. -/
theorem rebuild_fixed_point {b : Buffer} {out m : Message} (h : parse b out = (.OK, m)) :
    ∃ r, (∀ o, build m o = (.OK, r)) ∧
      ∃ m', (∀ o, parse r o = (.OK, m')) ∧ m'.dropOffsets = m.dropOffsets ∧
        ∀ o, build m' o = (.OK, r) := by
  obtain ⟨e, henc⟩ := encodes_of_parse h
  have hrep := henc.representable
  have hrel := (encodes_messageBytes hrep).representable
  refine ⟨messageBytes m, build_ok_of_withinLimits (representable_iff.mp hrep).1,
    relocate m, parse_messageBytes hrep, relocate_dropOffsets_of_counted henc.counted, ?_⟩
  intro o
  rw [← messageBytes_relocate]
  exact build_ok_of_withinLimits (representable_iff.mp hrel).1 o

/-- Two questions for `abc`, the second name a pointer to the first. -/
def compressedQuery : Buffer :=
  [0x12, 0x34, 0x81, 0xA3, 0, 2, 0, 0, 0, 0, 0, 0,
    3, 97, 98, 99, 0, 0, 1, 0, 1, 0xC0, 12, 0, 28, 0, 1]

theorem compressedQuery_accepted :
    parse compressedQuery Message.blank = (.OK, (parse compressedQuery Message.blank).2) :=
  Prod.ext (by decide +kernel) rfl

theorem rebuild_fixed_point_compressed :
    ∃ m r, parse compressedQuery Message.blank = (.OK, m) ∧ (∀ o, build m o = (.OK, r)) ∧
      ∃ m', (∀ o, parse r o = (.OK, m')) ∧ m'.dropOffsets = m.dropOffsets ∧
        ∀ o, build m' o = (.OK, r) := by
  obtain ⟨r, hr⟩ := rebuild_fixed_point compressedQuery_accepted
  exact ⟨_, r, compressedQuery_accepted, hr⟩

/-- The parser decides the grammar and decodes it, whatever the output held before; so encodings
of one message parse to one message, compressed or not, `rdataOffset` aside. -/
theorem parse_decides_grammar (b : Buffer) (m : Message) :
    (∀ out, parse b out = (.OK, m) ↔ ∃ e, Encodes b m e) ∧
      ∀ b' m', (∃ e, Encodes b m e) → (∃ e, Encodes b' m' e) →
        m.dropOffsets = m'.dropOffsets →
        ∀ out out', (parse b out).1 = .OK ∧ (parse b' out').1 = .OK ∧
          (parse b out).2.dropOffsets = (parse b' out').2.dropOffsets := by
  refine ⟨fun out => parse_eq_ok_iff, ?_⟩
  intro b' m' ⟨e, h⟩ ⟨e', h'⟩ hsame out out'
  rw [parse_of_encodes h, parse_of_encodes h']
  exact ⟨rfl, rfl, hsame⟩

/-- The same two questions with the name written out twice. -/
def plainQuery : Buffer :=
  [0x12, 0x34, 0x81, 0xA3, 0, 2, 0, 0, 0, 0, 0, 0,
    3, 97, 98, 99, 0, 0, 1, 0, 1, 3, 97, 98, 99, 0, 0, 28, 0, 1]

theorem parse_decides_grammar_compressed :
    (parse compressedQuery Message.blank).2.dropOffsets =
      (parse plainQuery Message.blank).2.dropOffsets := by
  have hp : (parse plainQuery Message.blank).1 = .OK := by decide +kernel
  have henc :=
    ((parse_decides_grammar compressedQuery _).1 Message.blank).mp compressedQuery_accepted
  have hplain := ((parse_decides_grammar plainQuery _).1 Message.blank).mp (Prod.ext hp rfl)
  exact ((parse_decides_grammar compressedQuery _).2 plainQuery _ henc hplain
    (by decide +kernel) Message.blank Message.blank).2.2

/-! ### What building promises -/

/-- `build` succeeds exactly on representable messages, and what it writes parses back to the
message with the counts of its sections. -/
def BuildContract (m : Message) (out : Buffer) : Prop :=
  ((build m out).1 = .OK ↔ Representable m) ∧
    ((build m out).1 = .OK → ∀ blank, ∃ m', parse (build m out).2 blank = (.OK, m') ∧
      m'.dropOffsets = { m with header := countedHeader m }.dropOffsets)

/-- The builder keeps its contract exactly on messages without empty labels and on those that one
of its own checks rejects. -/
theorem buildContract_iff (m : Message) (out : Buffer) :
    BuildContract m out ↔ (∀ n ∈ names m, NonemptyLabels n) ∨ ¬ WithinLimits m := by
  unfold BuildContract
  rw [build_status_ok_iff]
  constructor
  · intro ⟨hiff, _⟩
    by_cases hw : WithinLimits m
    · exact Or.inl (representable_iff.mp (hiff.mp hw)).2
    · exact Or.inr hw
  · rintro (hne | hw)
    · have hiff : WithinLimits m ↔ Representable m := by
        rw [representable_iff]
        exact ⟨fun h => ⟨h, hne⟩, fun h => h.1⟩
      refine ⟨hiff, fun h blank => ⟨relocate m, ?_, relocate_dropOffsets m⟩⟩
      rw [build_ok_of_withinLimits h]
      exact parse_messageBytes (hiff.mp h) blank
    · refine ⟨⟨fun h => absurd h hw, fun h => (representable_iff.mp h).1⟩, fun h => absurd h hw⟩

/-- One question for a name whose first label is empty. -/
def emptyLabelQuery : Message :=
  { Message.blank with questions := [⟨⟨[[], [97]]⟩, 1, 1⟩] }

/-- The empty label is written as the end of the name; the bytes parse, to another question. -/
theorem emptyLabelQuery_breaks_contract :
    ¬ BuildContract emptyLabelQuery [] ∧ (build emptyLabelQuery []).1 = .OK ∧
      (parse (build emptyLabelQuery []).2 Message.blank).1 = .OK ∧
      (parse (build emptyLabelQuery []).2 Message.blank).2.questions = [⟨⟨[]⟩, 0x0161, 0⟩] := by
  refine ⟨?_, by decide +kernel, by decide +kernel, by decide +kernel⟩
  intro ⟨hiff, _⟩
  have hrep := hiff.mp (by decide +kernel)
  have := hrep.labels ⟨[[], [97]]⟩ (by simp [names, emptyLabelQuery]) [] (by simp)
  simp at this

end DnsPro.Wire
