import DnsPro.Builder
import DnsPro.Wire.Grammar

/-!
# `Builder::build` against the uncompressed encoding

The encoding of a message without compression, as a function, and the exact condition under
which the builder produces it. Labels are checked for the upper limit only, so `WithinLimits`
and not `Representable` is what success means.
-/

namespace DnsPro.Wire

open Packet DnsPro.Builder Layout Word

set_option autoImplicit false

/-! ### The uncompressed encoding -/

def nameBytes : List Label → List UInt8
  | [] => [0]
  | l :: ls => UInt8.ofNat l.length :: l ++ nameBytes ls

def questionBytes (q : Question) : List UInt8 :=
  nameBytes q.qname.labels ++ questionFields q

def recordBytes (r : ResourceRecord) : List UInt8 :=
  nameBytes r.name.labels ++ recordFields r ++ r.rdata

def messageBytes (m : Message) : List UInt8 :=
  headerBytes (countedHeader m) ++ m.questions.flatMap questionBytes ++
    m.answers.flatMap recordBytes ++ m.authorities.flatMap recordBytes ++
    m.additionals.flatMap recordBytes

/-! ### Limits -/

def ShortLabels (n : Name) : Prop := ∀ l ∈ n.labels, l.length ≤ 63

def NonemptyLabels (n : Name) : Prop := ∀ l ∈ n.labels, 1 ≤ l.length

/-- The rdata fits its 16-bit length field and the owner name has short labels. -/
def RecordFits (r : ResourceRecord) : Prop :=
  ShortLabels r.name ∧ r.rdata.length ≤ 65535

def names (m : Message) : List Name :=
  m.questions.map Question.qname ++ m.records.map ResourceRecord.name

structure SectionsFit (m : Message) : Prop where
  questions : m.questions.length ≤ 65535
  answers : m.answers.length ≤ 65535
  authorities : m.authorities.length ≤ 65535
  additionals : m.additionals.length ≤ 65535

/-- What the builder checks. -/
structure WithinLimits (m : Message) : Prop where
  sections : SectionsFit m
  labels : ∀ n ∈ names m, ShortLabels n
  rdata : ∀ r ∈ m.records, r.rdata.length ≤ 65535

/-- What the wire format can express. -/
structure Representable (m : Message) : Prop where
  sections : SectionsFit m
  labels : ∀ n ∈ names m, ∀ l ∈ n.labels, 1 ≤ l.length ∧ l.length ≤ 63
  rdata : ∀ r ∈ m.records, r.rdata.length ≤ 65535

theorem representable_iff {m : Message} :
    Representable m ↔ WithinLimits m ∧ ∀ n ∈ names m, NonemptyLabels n := by
  constructor
  · intro h
    exact ⟨⟨h.sections, fun n hn l hl => (h.labels n hn l hl).2, h.rdata⟩,
      fun n hn l hl => (h.labels n hn l hl).1⟩
  · intro ⟨h, hne⟩
    exact ⟨h.sections, fun n hn l hl => ⟨hne n hn l hl, h.labels n hn l hl⟩, h.rdata⟩

theorem forall_names_iff {m : Message} {P : Name → Prop} :
    (∀ n ∈ names m, P n) ↔
      (∀ q ∈ m.questions, P q.qname) ∧ ∀ r ∈ m.records, P r.name := by
  simp only [names, List.mem_append, List.mem_map, or_imp, forall_and, forall_exists_index,
    and_imp, forall_apply_eq_imp_iff₂]

theorem forall_records_iff {m : Message} {P : ResourceRecord → Prop} :
    (∀ r ∈ m.records, P r) ↔ (∀ r ∈ m.answers, P r) ∧ (∀ r ∈ m.authorities, P r) ∧
      ∀ r ∈ m.additionals, P r := by
  simp only [Message.records, List.mem_append, or_imp, forall_and, and_assoc]

/-! ### The writers -/

theorem andThen_eq_ok_iff {written : Status × Buffer} {rest : Buffer → Status × Buffer}
    {out' : Buffer} :
    andThen written rest = (.OK, out') ↔ ∃ out, written = (.OK, out) ∧ rest out = (.OK, out') := by
  unfold andThen
  split
  · simp
  · rename_i hne
    constructor
    · intro h
      exact absurd h (hne _)
    · intro ⟨out, h, _⟩
      exact absurd h (hne _)

theorem writeU16_eq (v : UInt16) (out : Buffer) : writeU16 v out = out ++ bytes16 v := by
  rw [writeU16, shift_and_eq_bytes16]

theorem writeU32_eq (v : UInt32) (out : Buffer) : writeU32 v out = out ++ bytes32 v := by
  rw [writeU32, shift_and_eq_bytes32]

theorem packFlags1_eq (h : Header) : packFlags1 h = flagByte1 h := by
  have key : ∀ (qr : BitVec 1) (opcode : BitVec 4) (aa tc rd : BitVec 1),
      UInt8.ofBitVec (qr.setWidth 8 <<< 7 ||| opcode.setWidth 8 <<< 3 ||| aa.setWidth 8 <<< 2 |||
        tc.setWidth 8 <<< 1 ||| rd.setWidth 8) =
      .ofNat (qr.toNat * 128 + opcode.toNat * 8 + aa.toNat * 4 + tc.toNat * 2 + rd.toNat) := by
    decide +kernel
  exact key h.qr h.opcode h.aa h.tc h.rd

theorem packFlags2_eq (h : Header) : packFlags2 h = flagByte2 h := by
  have key : ∀ (ra : BitVec 1) (z : BitVec 3) (rcode : BitVec 4),
      UInt8.ofBitVec (ra.setWidth 8 <<< 7 ||| z.setWidth 8 <<< 4 ||| rcode.setWidth 8) =
      .ofNat (ra.toNat * 128 + z.toNat * 16 + rcode.toNat) := by
    decide +kernel
  exact key h.ra h.z h.rcode

theorem writeHeader_eq (h : Header) (out : Buffer) :
    writeHeader h out = out ++ headerBytes h := by
  simp only [writeHeader, writeU16_eq, packFlags1_eq, packFlags2_eq, headerBytes,
    List.append_assoc]

theorem writeLabels_eq_ok_iff {ls : List Label} {out out' : Buffer} :
    writeLabels ls out = (.OK, out') ↔
      (∀ l ∈ ls, l.length ≤ 63) ∧ out' = out ++ nameBytes ls := by
  induction ls generalizing out with
  | nil => simp [writeLabels, nameBytes, eq_comm]
  | cons l ls ih =>
    simp only [writeLabels, List.forall_mem_cons]
    split
    · rename_i hlong
      constructor
      · intro h
        cases h
      · intro ⟨⟨hshort, _⟩, _⟩
        omega
    · rename_i hshort
      rw [ih]
      simp only [nameBytes, List.append_assoc, List.cons_append, List.nil_append]
      exact ⟨fun ⟨hls, heq⟩ => ⟨⟨by omega, hls⟩, heq⟩, fun ⟨⟨_, hls⟩, heq⟩ => ⟨hls, heq⟩⟩

theorem writeName_eq_ok_iff {n : Name} {out out' : Buffer} :
    writeName n out = (.OK, out') ↔ ShortLabels n ∧ out' = out ++ nameBytes n.labels :=
  writeLabels_eq_ok_iff

theorem writeQuestion_eq_ok_iff {q : Question} {out out' : Buffer} :
    writeQuestion q out = (.OK, out') ↔
      ShortLabels q.qname ∧ out' = out ++ questionBytes q := by
  simp only [writeQuestion, andThen_eq_ok_iff, writeName_eq_ok_iff, writeU16_eq, questionBytes,
    questionFields, Prod.mk.injEq, true_and, List.append_assoc]
  constructor
  · rintro ⟨_, ⟨hshort, rfl⟩, rfl⟩
    exact ⟨hshort, by simp only [List.append_assoc]⟩
  · rintro ⟨hshort, rfl⟩
    exact ⟨_, ⟨hshort, rfl⟩, by simp only [List.append_assoc]⟩

theorem writeResourceRecord_eq_ok_iff {r : ResourceRecord} {out out' : Buffer} :
    writeResourceRecord r out = (.OK, out') ↔ RecordFits r ∧ out' = out ++ recordBytes r := by
  simp only [writeResourceRecord, andThen_eq_ok_iff, writeName_eq_ok_iff, writeU16_eq, writeU32_eq,
    recordBytes, recordFields, RecordFits]
  constructor
  · rintro ⟨_, ⟨hshort, rfl⟩, h⟩
    split at h
    · cases h
    · cases h
      exact ⟨⟨hshort, by omega⟩, by simp only [List.append_assoc]⟩
  · rintro ⟨⟨hshort, hfits⟩, rfl⟩
    refine ⟨_, ⟨hshort, rfl⟩, ?_⟩
    rw [if_neg (by omega)]
    simp only [List.append_assoc]

theorem writeSection_eq_ok_iff {α : Type} {writeEntry : α → Buffer → Status × Buffer}
    {P : α → Prop} {f : α → List UInt8}
    (hentry : ∀ a out out', writeEntry a out = (.OK, out') ↔ P a ∧ out' = out ++ f a)
    {as : List α} {out out' : Buffer} :
    writeSection writeEntry as out = (.OK, out') ↔
      (∀ a ∈ as, P a) ∧ out' = out ++ as.flatMap f := by
  induction as generalizing out with
  | nil => simp [writeSection, eq_comm]
  | cons a as ih =>
    simp only [writeSection, andThen_eq_ok_iff, hentry, ih, List.forall_mem_cons,
      List.flatMap_cons, ← List.append_assoc]
    constructor
    · rintro ⟨_, ⟨ha, rfl⟩, has, heq⟩
      exact ⟨⟨ha, has⟩, heq⟩
    · intro ⟨⟨ha, has⟩, heq⟩
      exact ⟨_, ⟨ha, rfl⟩, has, heq⟩

theorem writeQuestions_eq_ok_iff {qs : List Question} {out out' : Buffer} :
    writeSection writeQuestion qs out = (.OK, out') ↔
      (∀ q ∈ qs, ShortLabels q.qname) ∧ out' = out ++ qs.flatMap questionBytes :=
  writeSection_eq_ok_iff (P := fun q => ShortLabels q.qname) (f := questionBytes)
    fun _ _ _ => writeQuestion_eq_ok_iff

theorem writeRecords_eq_ok_iff {rs : List ResourceRecord} {out out' : Buffer} :
    writeSection writeResourceRecord rs out = (.OK, out') ↔
      (∀ r ∈ rs, RecordFits r) ∧ out' = out ++ rs.flatMap recordBytes :=
  writeSection_eq_ok_iff (P := RecordFits) (f := recordBytes)
    fun _ _ _ => writeResourceRecord_eq_ok_iff

/-! ### The whole message -/

theorem withinLimits_iff {m : Message} :
    WithinLimits m ↔ SectionsFit m ∧ (∀ q ∈ m.questions, ShortLabels q.qname) ∧
      ∀ r ∈ m.records, RecordFits r := by
  constructor
  · intro ⟨hs, hl, hr⟩
    obtain ⟨hq, hn⟩ := forall_names_iff.mp hl
    exact ⟨hs, hq, fun r h => ⟨hn r h, hr r h⟩⟩
  · intro ⟨hs, hq, hr⟩
    exact ⟨hs, forall_names_iff.mpr ⟨hq, fun r h => (hr r h).1⟩, fun r h => (hr r h).2⟩

/-- `build` succeeds exactly within its limits, and then writes the uncompressed encoding. -/
theorem build_eq_ok_iff {m : Message} {out out' : Buffer} :
    build m out = (.OK, out') ↔ WithinLimits m ∧ out' = messageBytes m := by
  rw [withinLimits_iff, forall_records_iff]
  unfold build
  split
  · rename_i hlarge
    constructor
    · intro h
      cases h
    · intro ⟨⟨hs, _⟩, _⟩
      have := hs.questions
      have := hs.answers
      have := hs.authorities
      have := hs.additionals
      omega
  · rename_i hsmall
    have hs : SectionsFit m := ⟨by omega, by omega, by omega, by omega⟩
    simp only [andThen_eq_ok_iff, writeQuestions_eq_ok_iff, writeRecords_eq_ok_iff,
      writeHeader_eq, List.nil_append, messageBytes]
    constructor
    · rintro ⟨_, ⟨hq, rfl⟩, _, ⟨ha, rfl⟩, _, ⟨hn, rfl⟩, hr, rfl⟩
      exact ⟨⟨hs, hq, ha, hn, hr⟩, rfl⟩
    · rintro ⟨⟨_, hq, ha, hn, hr⟩, rfl⟩
      exact ⟨_, ⟨hq, rfl⟩, _, ⟨ha, rfl⟩, _, ⟨hn, rfl⟩, hr, rfl⟩

theorem build_ok_of_withinLimits {m : Message} (h : WithinLimits m) (out : Buffer) :
    build m out = (.OK, messageBytes m) :=
  build_eq_ok_iff.mpr ⟨h, rfl⟩

theorem build_status_ok_iff {m : Message} {out : Buffer} :
    (build m out).1 = .OK ↔ WithinLimits m := by
  constructor
  · intro h
    exact (build_eq_ok_iff.mp (Prod.ext h rfl : build m out = (.OK, (build m out).2))).1
  · intro h
    rw [build_ok_of_withinLimits h]

end DnsPro.Wire
