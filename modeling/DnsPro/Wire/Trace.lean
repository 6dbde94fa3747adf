import DnsPro.Wire.Budget
import DnsPro.Wire.RdataNames

/-!
# Where a packet is read

`parseTrace` goes through the section loops of `parse` for the offsets alone: where the entries,
and with them their names, begin, and where the last entry ends. On an accepted packet these are
the offsets of the encoding, so that what is known of every name along the trace is known of the
message. Two consequences are the layout of the records in the packet, and that a packet without
pointers is rebuilt byte for byte.
-/

namespace DnsPro.Wire

open Packet DnsPro.Parser DnsPro.Builder Layout Word

set_option autoImplicit false

/-- The offsets at which a section loop parses its entries, and the offset it ends at. -/
def sectionTrace {α : Type} (parseEntry : Nat → Except Status (α × Nat)) :
    Nat → Nat → List Nat × Nat
  | 0, offset => ([], offset)
  | count + 1, offset =>
    match parseEntry offset with
    | .error _ => ([offset], offset)
    | .ok (_, next) =>
      (offset :: (sectionTrace parseEntry count next).1, (sectionTrace parseEntry count next).2)

def parseTrace (buffer : Buffer) : List Nat × Nat :=
  match parseHeader buffer 0 with
  | .error _ => ([], 0)
  | .ok (header, offset) =>
    let questions := sectionTrace (parseQuestion buffer) header.qdcount.toNat offset
    let answers := sectionTrace (parseResourceRecord buffer) header.ancount.toNat questions.2
    let authorities := sectionTrace (parseResourceRecord buffer) header.nscount.toNat answers.2
    let additionals :=
      sectionTrace (parseResourceRecord buffer) header.arcount.toNat authorities.2
    (questions.1 ++ answers.1 ++ authorities.1 ++ additionals.1, additionals.2)

/-- The offsets at which `parse` reads a name; every entry begins with one. -/
def nameOffsets (buffer : Buffer) : List Nat := (parseTrace buffer).1

/-- How many bytes of an accepted packet belong to the message. -/
def consumed (buffer : Buffer) : Nat := (parseTrace buffer).2

/-! ### The trace of an encoding -/

section Sections
variable {α : Type} {parseEntry : Nat → Except Status (α × Nat)} {E : Nat → α → Nat → Prop}
variable {P : Nat → Prop} {o e : Nat} {as : List α}

theorem sectionTrace_snd (hE : ∀ i a j, E i a j → parseEntry i = .ok (a, j))
    (h : Chain E o as e) : (sectionTrace parseEntry as.length o).2 = e := by
  induction h with
  | nil => rfl
  | cons ha _ ih =>
    rw [List.length_cons, sectionTrace, hE _ _ _ ha]
    exact ih

theorem forall_sectionTrace_iff (hE : ∀ i a j, E i a j → parseEntry i = .ok (a, j))
    (h : Chain E o as e) :
    (∀ s ∈ (sectionTrace parseEntry as.length o).1, P s) ↔
      Chain (fun i a j => E i a j ∧ P i) o as e := by
  induction h with
  | nil => simp [sectionTrace]
  | @cons o o' e a as ha hchain ih =>
    rw [List.length_cons, sectionTrace, hE _ _ _ ha]
    simp only [List.forall_mem_cons, ih, chain_cons_iff]
    constructor
    · intro ⟨ho, hrest⟩
      exact ⟨o', ⟨ha, ho⟩, hrest⟩
    · intro ⟨o₁, ⟨ha', ho⟩, hrest⟩
      have heq := hE _ _ _ ha'
      rw [hE _ _ _ ha] at heq
      cases heq
      exact ⟨ho, hrest⟩

end Sections

section Packets
variable {b : Buffer} {m : Message} {e : Nat} {P : Nat → Prop}

/-- On an encoding the trace is that of its four sections. -/
theorem parseTrace_eq {o₁ o₂ o₃ : Nat} (hheader : Sits b 0 (headerBytes m.header))
    (hcount : Counted m) (hq : Chain (EncQuestion b) 12 m.questions o₁)
    (ha : Chain (EncRecord b) o₁ m.answers o₂) (hn : Chain (EncRecord b) o₂ m.authorities o₃)
    (hr : Chain (EncRecord b) o₃ m.additionals e) :
    parseTrace b =
      ((sectionTrace (parseQuestion b) m.questions.length 12).1 ++
        (sectionTrace (parseResourceRecord b) m.answers.length o₁).1 ++
        (sectionTrace (parseResourceRecord b) m.authorities.length o₂).1 ++
        (sectionTrace (parseResourceRecord b) m.additionals.length o₃).1, e) := by
  have hread : parseHeader b 0 = .ok (m.header, 12) := parseHeader_eq_ok_iff.mpr ⟨hheader, rfl⟩
  have question : ∀ i q j, EncQuestion b i q j → parseQuestion b i = .ok (q, j) :=
    fun _ _ _ => parseQuestion_eq_ok_iff.mpr
  have record : ∀ i r j, EncRecord b i r j → parseResourceRecord b i = .ok (r, j) :=
    fun _ _ _ => parseResourceRecord_eq_ok_iff.mpr
  unfold parseTrace
  simp only [hread, hcount.questions, hcount.answers, hcount.authorities, hcount.additionals,
    sectionTrace_snd question hq, sectionTrace_snd record ha, sectionTrace_snd record hn,
    sectionTrace_snd record hr]

theorem consumed_of_encodes (h : Encodes b m e) : consumed b = e := by
  obtain ⟨hheader, hcount, o₁, o₂, o₃, hq, ha, hn, hr⟩ := h
  rw [consumed, parseTrace_eq hheader hcount hq ha hn hr]

theorem encodes_of_parse_consumed {out : Message} (h : parse b out = (.OK, m)) :
    Encodes b m (consumed b) := by
  obtain ⟨e, henc⟩ := encodes_of_parse h
  rwa [consumed_of_encodes henc]

theorem questionAt_and (N : Nat → List Label → Nat → Prop) :
    QuestionAt (fun i ls j => N i ls j ∧ P i) b = fun i q j => QuestionAt N b i q j ∧ P i := by
  funext i q j
  apply propext
  constructor
  · intro ⟨f, ⟨hname, hi⟩, hrest⟩
    exact ⟨⟨f, hname, hrest⟩, hi⟩
  · intro ⟨⟨f, hname, hrest⟩, hi⟩
    exact ⟨f, ⟨hname, hi⟩, hrest⟩

theorem recordAt_and (N : Nat → List Label → Nat → Prop) :
    RecordAt (fun i ls j => N i ls j ∧ P i) b = fun i r j => RecordAt N b i r j ∧ P i := by
  funext i r j
  apply propext
  constructor
  · intro ⟨f, ⟨hname, hi⟩, hrest⟩
    exact ⟨⟨f, hname, hrest⟩, hi⟩
  · intro ⟨⟨f, hname, hrest⟩, hi⟩
    exact ⟨f, ⟨hname, hi⟩, hrest⟩

/-- What holds of the offset of every name holds wherever the encoding has a name. -/
theorem forall_nameOffsets_iff (h : Encodes b m e) :
    (∀ s ∈ nameOffsets b, P s) ↔ MessageAt (fun i ls j => EncName b i ls j ∧ P i) b m e := by
  have question : ∀ i q j, EncQuestion b i q j → parseQuestion b i = .ok (q, j) :=
    fun _ _ _ => parseQuestion_eq_ok_iff.mpr
  have record : ∀ i r j, EncRecord b i r j → parseResourceRecord b i = .ok (r, j) :=
    fun _ _ _ => parseResourceRecord_eq_ok_iff.mpr
  constructor
  · intro hP
    obtain ⟨hheader, hcount, o₁, o₂, o₃, hq, ha, hn, hr⟩ := h
    rw [nameOffsets, parseTrace_eq hheader hcount hq ha hn hr] at hP
    simp only [List.forall_mem_append] at hP
    obtain ⟨⟨⟨hPq, hPa⟩, hPn⟩, hPr⟩ := hP
    refine ⟨hheader, hcount, o₁, o₂, o₃, ?_⟩
    rw [questionAt_and, recordAt_and]
    exact ⟨(forall_sectionTrace_iff question hq).mp hPq, (forall_sectionTrace_iff record ha).mp hPa,
      (forall_sectionTrace_iff record hn).mp hPn, (forall_sectionTrace_iff record hr).mp hPr⟩
  · intro ⟨hheader, hcount, o₁, o₂, o₃, hsections⟩
    rw [questionAt_and, recordAt_and] at hsections
    obtain ⟨hPq, hPa, hPn, hPr⟩ := hsections
    have hq := hPq.imp fun _ _ _ _ => And.left
    have ha := hPa.imp fun _ _ _ _ => And.left
    have hn := hPn.imp fun _ _ _ _ => And.left
    have hr := hPr.imp fun _ _ _ _ => And.left
    rw [nameOffsets, parseTrace_eq hheader hcount hq ha hn hr]
    simp only [List.forall_mem_append]
    exact ⟨⟨⟨(forall_sectionTrace_iff question hq).mpr hPq,
      (forall_sectionTrace_iff record ha).mpr hPa⟩, (forall_sectionTrace_iff record hn).mpr hPn⟩,
      (forall_sectionTrace_iff record hr).mpr hPr⟩

end Packets

/-! ### The layout of the records -/

section RecordLayout
variable {b : Buffer} {out m : Message} {e : Nat}

theorem Encodes.end_le (h : Encodes b m e) : e ≤ b.length := by
  have hheader := h.header.end_le (by simp [headerBytes, bytes16])
  rw [length_headerBytes] at hheader
  obtain ⟨o, hq, hr⟩ := h.records
  have ho : o ≤ b.length := hq.end_le (fun _ _ _ h => (EncQuestion.extent h).2) hheader
  exact hr.end_le (fun _ _ _ h => (EncRecord.extent h).2.2) ho

/-- The records lie in the packet in order and apart, and every entry that the header announces
has been paid for with the bytes of its name and its fixed fields. -/
theorem packet_layout (h : parse b out = (.OK, m)) :
    (∀ r ∈ m.records, r.rdataOffset + r.rdata.length ≤ b.length ∧
      (b.drop r.rdataOffset).take r.rdata.length = r.rdata) ∧
    m.records.Pairwise (fun r r' => r.rdataOffset + r.rdata.length + 11 ≤ r'.rdataOffset) ∧
    12 + 5 * m.header.qdcount.toNat + 11 * (m.header.ancount.toNat + m.header.nscount.toNat +
      m.header.arcount.toNat) + (m.records.map fun r => r.rdata.length).sum ≤ b.length := by
  have henc := encodes_of_parse_consumed h
  obtain ⟨o, hq, hr⟩ := henc.records
  have hinside : ∀ r ∈ m.records, r.rdataOffset + r.rdata.length ≤ b.length := by
    refine hr.forall_mem ?_
    intro _ r _ hrec
    obtain ⟨_, hend, hle⟩ := EncRecord.extent hrec
    omega
  refine ⟨fun r hmem => ⟨hinside r hmem, sits_iff_take.mp (henc.sits_rdata r hmem)⟩, ?_, ?_⟩
  · refine (hr.pairwise ResourceRecord.rdataOffset
      (fun r => r.rdataOffset + r.rdata.length) ?_).2
    intro _ r _ hrec
    obtain ⟨hfirst, hend, _⟩ := EncRecord.extent hrec
    omega
  · have hquestions := hq.cost_le 5 (fun _ => 0) (by
      intro _ _ _ hquestion
      exact (EncQuestion.extent hquestion).1)
    have hrecords := hr.cost_le 11 (fun r => r.rdata.length) (by
      intro _ r _ hrec
      obtain ⟨hfirst, hend, _⟩ := EncRecord.extent hrec
      omega)
    have hend := Encodes.end_le henc
    have hlength : m.records.length =
        m.header.ancount.toNat + m.header.nscount.toNat + m.header.arcount.toNat := by
      rw [henc.counted.answers, henc.counted.authorities, henc.counted.additionals]
      simp only [Message.records, List.length_append]
    rw [← henc.counted.questions] at hquestions
    rw [hlength] at hrecords
    omega

/-- An answer and an authority record: their rdata in the packet, and the gap between them. -/
theorem packet_layout_alias :
    (aliasAnswer.drop 33).take 4 = [1, 120, 0xC0, 12] ∧
      (aliasAnswer.drop 49).take 4 = [1, 110, 0xC0, 21] ∧ 33 + 4 + 11 ≤ 49 ∧
      12 + 5 + 11 * 2 + 8 ≤ aliasAnswer.length := by
  have hlayout := packet_layout
    (Prod.ext (by decide +kernel) rfl : parse aliasAnswer Message.blank = (.OK, aliasMessage))
  have hrecords : aliasMessage.records =
      [⟨⟨[[97, 98, 99]]⟩, 5, 1, 0, [1, 120, 0xC0, 12], 33⟩,
        ⟨⟨[[120], [97, 98, 99]]⟩, 2, 1, 0, [1, 110, 0xC0, 21], 49⟩] := by decide +kernel
  have hcounts : aliasMessage.header.qdcount = 1 ∧ aliasMessage.header.ancount = 1 ∧
      aliasMessage.header.nscount = 1 ∧ aliasMessage.header.arcount = 0 := by decide +kernel
  obtain ⟨hqd, han, hns, har⟩ := hcounts
  rw [hrecords, hqd, han, hns, har] at hlayout
  obtain ⟨hinside, hgaps, hsize⟩ := hlayout
  have hgap := (List.pairwise_cons.mp hgaps).1 _ (List.mem_singleton_self _)
  refine ⟨(hinside _ List.mem_cons_self).2, ?_, hgap, hsize⟩
  exact (hinside _ (List.mem_cons_of_mem _ (List.mem_singleton_self _))).2

end RecordLayout

/-! ### Packets without pointers -/

/-- The local `jumped` when `parseName` returns: whether the name was read through a pointer. -/
def jumps (buffer : Buffer) (offset : Nat) : Bool :=
  (parseNameLoop buffer (buffer.length + 1) (Walk.start offset)).2.jumped

def PointerFree (buffer : Buffer) : Prop :=
  ∀ offset ∈ nameOffsets buffer, jumps buffer offset = false

instance (buffer : Buffer) : Decidable (PointerFree buffer) :=
  inferInstanceAs (Decidable (∀ offset ∈ nameOffsets buffer, jumps buffer offset = false))

section Verbatim
variable {b : Buffer} {out m : Message} {e : Nat}

/-- `jumped` is never reset. -/
theorem Ends.jumped_of_jumped {w w' : Walk} {status : Status} (h : Ends b w status w')
    (hjumped : w.jumped = true) : w'.jumped = true := by
  induction h with
  | fail => exact hjumped
  | terminator => exact hjumped
  | pointer _ _ ih => exact ih rfl
  | label _ _ ih => exact ih hjumped

theorem EncName.ends {o : Nat} {ls : List Label} (h : EncName b o ls e) {w : Walk}
    (hw : w.cursor = o) : ∃ w', Ends b w .OK w' ∧ (w'.jumped = false → InlineName b o ls e) := by
  induction h generalizing w with
  | root hs =>
    subst hw
    exact ⟨w.finish, .terminator (readTurn_eq_terminator_iff.mpr hs), fun _ => .root hs⟩
  | label h1 h63 hs _ ih =>
    subst hw
    have hturn := readTurn_eq_label_iff.mpr ⟨h1, h63, hs⟩
    obtain ⟨w', hends, hinline⟩ := ih (w := w.push _) rfl
    exact ⟨w', .label hturn hends, fun hnot => .label h1 h63 hs (hinline hnot)⟩
  | pointer ht hback hs _ ih =>
    subst hw
    have hturn := readTurn_eq_pointer_iff.mpr ⟨ht, hback, hs⟩
    obtain ⟨w', hends, _⟩ := ih (w := w.jump _) rfl
    refine ⟨w', .pointer hturn hends, fun hnot => ?_⟩
    have hjumped := hends.jumped_of_jumped rfl
    rw [hnot] at hjumped
    cases hjumped

theorem EncName.inline {o : Nat} {ls : List Label} (h : EncName b o ls e)
    (hnot : jumps b o = false) : InlineName b o ls e := by
  obtain ⟨w', hends, hinline⟩ := h.ends (w := Walk.start o) rfl
  apply hinline
  rw [← hnot, jumps, hends.parseNameLoop_budget]

/-- Where all names are read inline, the message stands there as the builder writes it. -/
theorem take_of_inline (h : MessageAt (InlineName b) b m e) : b.take e = messageBytes m := by
  obtain ⟨o, hq, hr⟩ := h.records
  obtain ⟨_, hqs, rfl⟩ := inlineQuestions_iff.mp hq
  obtain ⟨_, _, hrs, rfl⟩ := inlineRecords_iff.mp hr
  have hbytes : Sits b 0 (messageBytes m) := by
    rw [messageBytes_of_counted h.counted, sits_append_iff, sits_append_iff]
    rw [length_headerBytes, Nat.zero_add]
    exact ⟨h.header, hqs, hrs⟩
  rw [← sits_zero_iff.mp hbytes, messageBytes_of_counted h.counted]
  simp only [List.length_append, length_headerBytes, Nat.add_assoc]

theorem messageBytes_dropOffsets (m : Message) : messageBytes m.dropOffsets = messageBytes m := by
  have record : ∀ rs : List ResourceRecord,
      (rs.map ResourceRecord.dropOffset).flatMap recordBytes = rs.flatMap recordBytes := by
    intro rs
    rw [List.flatMap_map]
    rfl
  simp only [messageBytes, countedHeader, Message.dropOffsets, List.length_map, record]

/-- An accepted packet without pointers is rebuilt byte for byte, up to what stands behind it; so
two such packets with the same message are the same there. -/
theorem rebuild_verbatim (h : parse b out = (.OK, m)) (hfree : PointerFree b) :
    (∀ o, build m o = (.OK, b.take (consumed b))) ∧
    ∀ b' out' m', parse b' out' = (.OK, m') → PointerFree b' → m'.dropOffsets = m.dropOffsets →
      b'.take (consumed b') = b.take (consumed b) := by
  have verbatim : ∀ {b out m}, parse b out = (.OK, m) → PointerFree b →
      b.take (consumed b) = messageBytes m := by
    intro b out m h hfree
    have henc := encodes_of_parse_consumed h
    apply take_of_inline
    exact ((forall_nameOffsets_iff henc).mp hfree).imp
      (fun _ _ _ ⟨hname, hnot⟩ => hname.inline hnot) fun _ _ => id
  constructor
  · intro o
    rw [verbatim h hfree]
    apply build_ok_of_withinLimits
    exact (representable_iff.mp (encodes_of_parse_consumed h).representable).1
  · intro b' out' m' h' hfree' hsame
    rw [verbatim h hfree, verbatim h' hfree', ← messageBytes_dropOffsets m', hsame,
      messageBytes_dropOffsets]

end Verbatim

theorem rebuild_verbatim_plain :
    build (parse (plainQuery ++ [7]) Message.blank).2 [] = (.OK, plainQuery) := by
  have hparse : parse (plainQuery ++ [7]) Message.blank =
      (.OK, (parse (plainQuery ++ [7]) Message.blank).2) := Prod.ext (by decide +kernel) rfl
  have hfree : PointerFree (plainQuery ++ [7]) := by decide +kernel
  rw [(rebuild_verbatim hparse hfree).1 []]
  decide +kernel

end DnsPro.Wire
