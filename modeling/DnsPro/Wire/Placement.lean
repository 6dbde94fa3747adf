import DnsPro.Wire.BuilderSpec

/-!
# The uncompressed encoding is in the grammar

Where the bytes of an entry stand, the entry is encoded, read without a pointer. `relocate m`
is the message a parser finds in `messageBytes m`: the counts of the sections and, for every
record, the offset its rdata has there.
-/

namespace DnsPro.Wire

open Packet DnsPro.Builder Layout Word

set_option autoImplicit false

/-- The records `rs` as they stand one after another from `o` on. -/
def place (o : Nat) : List ResourceRecord → List ResourceRecord
  | [] => []
  | r :: rs =>
    { r with rdataOffset := o + (nameBytes r.name.labels).length + 10 } ::
      place (o + (recordBytes r).length) rs

def questionsEnd (m : Message) : Nat := 12 + (m.questions.flatMap questionBytes).length

def answersEnd (m : Message) : Nat := questionsEnd m + (m.answers.flatMap recordBytes).length

def authoritiesEnd (m : Message) : Nat := answersEnd m + (m.authorities.flatMap recordBytes).length

def relocate (m : Message) : Message where
  header := countedHeader m
  questions := m.questions
  answers := place (questionsEnd m) m.answers
  authorities := place (answersEnd m) m.authorities
  additionals := place (authoritiesEnd m) m.additionals

/-! ### What relocation keeps -/

theorem recordBytes_setOffset (r : ResourceRecord) (n : Nat) :
    recordBytes { r with rdataOffset := n } = recordBytes r := rfl

theorem place_map_dropOffset (o : Nat) (rs : List ResourceRecord) :
    (place o rs).map ResourceRecord.dropOffset = rs.map ResourceRecord.dropOffset := by
  induction rs generalizing o with
  | nil => rfl
  | cons r rs ih => simp only [place, List.map_cons, ih, ResourceRecord.dropOffset]

@[simp] theorem length_place (o : Nat) (rs : List ResourceRecord) :
    (place o rs).length = rs.length := by
  simpa using congrArg List.length (place_map_dropOffset o rs)

theorem place_flatMap_recordBytes (o : Nat) (rs : List ResourceRecord) :
    (place o rs).flatMap recordBytes = rs.flatMap recordBytes := by
  induction rs generalizing o with
  | nil => rfl
  | cons r rs ih => simp only [place, List.flatMap_cons, ih, recordBytes_setOffset]

theorem place_append (o : Nat) (rs ss : List ResourceRecord) :
    place o (rs ++ ss) = place o rs ++ place (o + (rs.flatMap recordBytes).length) ss := by
  induction rs generalizing o with
  | nil => simp [place]
  | cons r rs ih =>
    simp only [List.cons_append, place, ih, List.flatMap_cons, List.length_append, Nat.add_assoc]

/-- The counts of a header say nothing new when the header counts already. -/
theorem countedHeader_of_counted {m : Message} (h : Counted m) : countedHeader m = m.header := by
  have hq : UInt16.ofNat m.questions.length = m.header.qdcount := by
    rw [← h.questions, UInt16.ofNat_toNat]
  have ha : UInt16.ofNat m.answers.length = m.header.ancount := by
    rw [← h.answers, UInt16.ofNat_toNat]
  have hn : UInt16.ofNat m.authorities.length = m.header.nscount := by
    rw [← h.authorities, UInt16.ofNat_toNat]
  have hr : UInt16.ofNat m.additionals.length = m.header.arcount := by
    rw [← h.additionals, UInt16.ofNat_toNat]
  rw [countedHeader, hq, ha, hn, hr]

theorem messageBytes_of_counted {m : Message} (h : Counted m) :
    messageBytes m = headerBytes m.header ++ (m.questions.flatMap questionBytes ++
      m.records.flatMap recordBytes) := by
  simp only [messageBytes, countedHeader_of_counted h, Message.records, List.flatMap_append,
    List.append_assoc]

theorem relocate_counted {m : Message} (h : SectionsFit m) : Counted (relocate m) := by
  have count {n : Nat} (hn : n ≤ 65535) : (UInt16.ofNat n).toNat = n := by
    rw [UInt16.toNat_ofNat']
    exact Nat.mod_eq_of_lt (by omega)
  constructor
  · exact count h.questions
  · exact (count h.answers).trans (length_place _ _).symm
  · exact (count h.authorities).trans (length_place _ _).symm
  · exact (count h.additionals).trans (length_place _ _).symm

theorem countedHeader_relocate (m : Message) : countedHeader (relocate m) = countedHeader m := by
  simp [countedHeader, relocate]

/-- The builder does not look at `rdataOffset`. -/
theorem messageBytes_relocate (m : Message) : messageBytes (relocate m) = messageBytes m := by
  simp only [messageBytes, countedHeader_relocate]
  simp only [relocate, place_flatMap_recordBytes]

theorem relocate_dropOffsets (m : Message) :
    (relocate m).dropOffsets = { m with header := countedHeader m }.dropOffsets := by
  simp only [Message.dropOffsets, relocate, place_map_dropOffset]

/-! ### Bytes in place are an encoding -/

section Encodings
variable {b : Buffer} {o e : Nat}

/-- Reading a name inline is finding its uncompressed bytes. -/
theorem inlineName_iff {ls : List Label} :
    InlineName b o ls e ↔ (∀ l ∈ ls, 1 ≤ l.length ∧ l.length ≤ 63) ∧ Sits b o (nameBytes ls) ∧
      e = o + (nameBytes ls).length := by
  constructor
  · intro h
    induction h with
    | root hs => exact ⟨by simp, hs, rfl⟩
    | @label o e l rest h1 h63 hs _ ih =>
      obtain ⟨hlabels, hrest, rfl⟩ := ih
      have hlen : (UInt8.ofNat l.length :: l).length = 1 + l.length := by
        rw [List.length_cons, Nat.add_comm]
      refine ⟨by simpa [h1, h63] using hlabels, ?_, ?_⟩
      · rw [nameBytes, sits_append_iff, hlen, ← Nat.add_assoc]
        exact ⟨hs, hrest⟩
      · rw [nameBytes, List.length_append, hlen]
        omega
  · rintro ⟨hlabels, hs, rfl⟩
    induction ls generalizing o with
    | nil => exact .root hs
    | cons l rest ih =>
      have hlen : (UInt8.ofNat l.length :: l).length = 1 + l.length := by
        rw [List.length_cons, Nat.add_comm]
      obtain ⟨⟨h1, h63⟩, hlabels⟩ := List.forall_mem_cons.mp hlabels
      rw [nameBytes, sits_append_iff, hlen, ← Nat.add_assoc] at hs
      rw [nameBytes, List.length_append, hlen, ← Nat.add_assoc, ← Nat.add_assoc]
      exact .label h1 h63 hs.1 (ih hlabels hs.2)

/-- Labels that a length byte can announce. -/
def GoodLabels (n : Name) : Prop := ∀ l ∈ n.labels, 1 ≤ l.length ∧ l.length ≤ 63

theorem inlineQuestion_iff {q : Question} :
    QuestionAt (InlineName b) b o q e ↔ GoodLabels q.qname ∧ Sits b o (questionBytes q) ∧
      e = o + (questionBytes q).length := by
  simp only [QuestionAt, inlineName_iff, questionBytes, sits_append_iff, List.length_append,
    length_questionFields, GoodLabels]
  constructor
  · rintro ⟨_, ⟨hlabels, hname, rfl⟩, hfields, rfl⟩
    exact ⟨hlabels, ⟨hname, hfields⟩, by omega⟩
  · rintro ⟨hlabels, ⟨hname, hfields⟩, rfl⟩
    exact ⟨_, ⟨hlabels, hname, rfl⟩, hfields, by omega⟩

theorem inlineRecord_iff {r : ResourceRecord} :
    RecordAt (InlineName b) b o r e ↔ GoodLabels r.name ∧ r.rdata.length ≤ 65535 ∧
      r.rdataOffset = o + (nameBytes r.name.labels).length + 10 ∧ Sits b o (recordBytes r) ∧
      e = o + (recordBytes r).length := by
  simp only [RecordAt, inlineName_iff, recordBytes, sits_append_iff, List.length_append,
    length_recordFields, GoodLabels]
  constructor
  · rintro ⟨_, ⟨hlabels, hname, rfl⟩, hfields, hlt, hoff, hrdata, rfl⟩
    refine ⟨hlabels, by omega, hoff, ⟨⟨hname, hfields⟩, ?_⟩, by omega⟩
    rwa [← Nat.add_assoc]
  · rintro ⟨hlabels, hle, hoff, ⟨⟨hname, hfields⟩, hrdata⟩, rfl⟩
    rw [← Nat.add_assoc] at hrdata
    exact ⟨_, ⟨hlabels, hname, rfl⟩, hfields, by omega, hoff, hrdata, by omega⟩

theorem inlineQuestions_iff {qs : List Question} :
    Chain (QuestionAt (InlineName b) b) o qs e ↔ (∀ q ∈ qs, GoodLabels q.qname) ∧
      Sits b o (qs.flatMap questionBytes) ∧ e = o + (qs.flatMap questionBytes).length := by
  induction qs generalizing o with
  | nil => simp
  | cons q qs ih =>
    simp only [chain_cons_iff, ih, inlineQuestion_iff, List.forall_mem_cons, List.flatMap_cons,
      sits_append_iff, List.length_append]
    constructor
    · rintro ⟨_, ⟨hq, hs, rfl⟩, hqs, hss, rfl⟩
      exact ⟨⟨hq, hqs⟩, ⟨hs, hss⟩, by omega⟩
    · rintro ⟨⟨hq, hqs⟩, ⟨hs, hss⟩, rfl⟩
      exact ⟨_, ⟨hq, hs, rfl⟩, hqs, hss, by omega⟩

theorem inlineRecords_iff {rs : List ResourceRecord} :
    Chain (RecordAt (InlineName b) b) o rs e ↔
      (∀ r ∈ rs, GoodLabels r.name ∧ r.rdata.length ≤ 65535) ∧ place o rs = rs ∧
      Sits b o (rs.flatMap recordBytes) ∧ e = o + (rs.flatMap recordBytes).length := by
  induction rs generalizing o with
  | nil => simp [place]
  | cons r rs ih =>
    simp only [chain_cons_iff, ih, inlineRecord_iff, List.forall_mem_cons, List.flatMap_cons,
      sits_append_iff, List.length_append, place, List.cons.injEq]
    constructor
    · rintro ⟨_, ⟨hr, hlen, hoff, hs, rfl⟩, hrs, hplace, hss, rfl⟩
      exact ⟨⟨⟨hr, hlen⟩, hrs⟩, ⟨by rw [← hoff], hplace⟩, ⟨hs, hss⟩, by omega⟩
    · rintro ⟨⟨⟨hr, hlen⟩, hrs⟩, ⟨hoff, hplace⟩, ⟨hs, hss⟩, rfl⟩
      have hoff := congrArg ResourceRecord.rdataOffset hoff
      exact ⟨_, ⟨hr, hlen, hoff.symm, hs, rfl⟩, hrs, hplace, hss, by omega⟩

theorem place_place (rs : List ResourceRecord) : place o (place o rs) = place o rs := by
  induction rs generalizing o with
  | nil => rfl
  | cons r rs ih => simp only [place, recordBytes_setOffset, ih]

theorem forall_mem_place {P : Name → List UInt8 → Prop} {rs : List ResourceRecord}
    (h : ∀ r ∈ rs, P r.name r.rdata) : ∀ r ∈ place o rs, P r.name r.rdata := by
  induction rs generalizing o with
  | nil => simp [place]
  | cons r rs ih =>
    obtain ⟨hr, hrs⟩ := List.forall_mem_cons.mp h
    exact List.forall_mem_cons.mpr ⟨hr, ih hrs⟩

theorem inlineRecords_place {rs : List ResourceRecord}
    (hrs : ∀ r ∈ rs, GoodLabels r.name ∧ r.rdata.length ≤ 65535)
    (hs : Sits b o (rs.flatMap recordBytes)) :
    Chain (RecordAt (InlineName b) b) o (place o rs) (o + (rs.flatMap recordBytes).length) := by
  rw [inlineRecords_iff, place_flatMap_recordBytes]
  exact ⟨forall_mem_place (P := fun n d => GoodLabels n ∧ d.length ≤ 65535) hrs,
    place_place rs, hs, rfl⟩

end Encodings

/-! ### The whole message -/

theorem inline_messageBytes {m : Message} (h : Representable m) :
    MessageAt (InlineName (messageBytes m)) (messageBytes m) (relocate m)
      (messageBytes m).length := by
  obtain ⟨hq, hr⟩ := forall_names_iff.mp h.labels
  have hrec : ∀ r ∈ m.records, GoodLabels r.name ∧ r.rdata.length ≤ 65535 :=
    fun r hm => ⟨hr r hm, h.rdata r hm⟩
  obtain ⟨ha, hn, hx⟩ := forall_records_iff.mp hrec
  have hs : Sits (messageBytes m) 0 (messageBytes m) := List.prefix_refl _
  rw [show Sits (messageBytes m) 0 (messageBytes m) = Sits (messageBytes m) 0
    (headerBytes (countedHeader m) ++ m.questions.flatMap questionBytes ++
      m.answers.flatMap recordBytes ++ m.authorities.flatMap recordBytes ++
      m.additionals.flatMap recordBytes) from rfl] at hs
  simp only [sits_append_iff, List.length_append, length_headerBytes, Nat.zero_add] at hs
  obtain ⟨⟨⟨⟨hheader, hqs⟩, has⟩, hns⟩, hxs⟩ := hs
  refine ⟨hheader, relocate_counted h.sections, questionsEnd m, answersEnd m, authoritiesEnd m,
    inlineQuestions_iff.mpr ⟨hq, hqs, rfl⟩, inlineRecords_place ha has,
    inlineRecords_place hn hns, ?_⟩
  have hend : (messageBytes m).length =
      authoritiesEnd m + (m.additionals.flatMap recordBytes).length := by
    simp only [messageBytes, List.length_append, length_headerBytes, authoritiesEnd, answersEnd,
      questionsEnd]
  rw [hend]
  exact inlineRecords_place hx hxs

section Weaken
variable {b b' : Buffer} {N N' : Nat → List Label → Nat → Prop}
variable (hN : ∀ i ls j, N i ls j → N' i ls j) (hb : ∀ i xs, Sits b i xs → Sits b' i xs)
include hN hb

theorem QuestionAt.imp {o e : Nat} {q : Question} (h : QuestionAt N b o q e) :
    QuestionAt N' b' o q e := by
  obtain ⟨f, hname, hfields, hend⟩ := h
  exact ⟨f, hN _ _ _ hname, hb _ _ hfields, hend⟩

theorem RecordAt.imp {o e : Nat} {r : ResourceRecord} (h : RecordAt N b o r e) :
    RecordAt N' b' o r e := by
  obtain ⟨f, hname, hfields, hlt, hoff, hrdata, hend⟩ := h
  exact ⟨f, hN _ _ _ hname, hb _ _ hfields, hlt, hoff, hb _ _ hrdata, hend⟩

/-- A message stays encoded under a wider notion of names and in a buffer that keeps its bytes. -/
theorem MessageAt.imp {e : Nat} {m : Message} (h : MessageAt N b m e) :
    MessageAt N' b' m e := by
  obtain ⟨hheader, hcount, o₁, o₂, o₃, hq, ha, hn, hr⟩ := h
  have record : ∀ i (r : ResourceRecord) j, RecordAt N b i r j → RecordAt N' b' i r j :=
    fun _ _ _ => RecordAt.imp hN hb
  exact ⟨hb _ _ hheader, hcount, o₁, o₂, o₃, hq.imp fun _ _ _ _ => QuestionAt.imp hN hb,
    ha.imp fun i r j _ => record i r j, hn.imp fun i r j _ => record i r j,
    hr.imp fun i r j _ => record i r j⟩

end Weaken

theorem encodes_messageBytes {m : Message} (h : Representable m) :
    Encodes (messageBytes m) (relocate m) (messageBytes m).length :=
  (inline_messageBytes h).imp (fun _ _ _ => InlineName.encName) fun _ _ => id

end DnsPro.Wire
