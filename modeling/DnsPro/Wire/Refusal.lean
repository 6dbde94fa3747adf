import DnsPro.Wire.Placement
import DnsPro.Wire.Rejection

/-!
# Messages that cannot be built

What `build` reports about a message outside its limits, and what it leaves in the output: the
first entry that exceeds them, and the bytes of everything in front of what exceeds them. Such an
output is never taken for a packet, since its header promises entries that are not there.
-/

namespace DnsPro.Wire

open Packet DnsPro.Parser DnsPro.Builder Layout Word Relation

set_option autoImplicit false

/-! ### What exceeds the limits -/

/-- Labels with their length bytes, the name being still open. -/
def labelBytes (ls : List Label) : List UInt8 :=
  ls.flatMap fun l => UInt8.ofNat l.length :: l

/-- The name has a label that is too long, and the bytes are those of the labels before it. -/
inductive NameRefused (labels : List Label) : List UInt8 → Prop where
  | label {before after : List Label} {l : Label} : labels = before ++ l :: after →
      (∀ l ∈ before, l.length ≤ 63) → 63 < l.length → NameRefused labels (labelBytes before)

inductive QuestionRefused (q : Question) : Status → List UInt8 → Prop where
  | name {bytes : List UInt8} : NameRefused q.qname.labels bytes →
      QuestionRefused q .LABEL_TOO_LONG bytes

/-- The length of the rdata is looked at behind the other fields. -/
inductive RecordRefused (r : ResourceRecord) : Status → List UInt8 → Prop where
  | name {bytes : List UInt8} : NameRefused r.name.labels bytes →
      RecordRefused r .LABEL_TOO_LONG bytes
  | rdata : ShortLabels r.name → 65535 < r.rdata.length →
      RecordRefused r .RDATA_LENGTH_MISMATCH
        (nameBytes r.name.labels ++ bytes16 r.type ++ bytes16 r.rclass ++ bytes32 r.ttl)

/-- Entries of a section up to the first that exceeds the limits, and the bytes written by then. -/
inductive SectionRefused {α : Type} (Fits : α → Prop) (entryBytes : α → List UInt8)
    (Refused : α → Status → List UInt8 → Prop) (entries : List α) : Status → List UInt8 → Prop where
  | entry {before after : List α} {a : α} {s : Status} {bytes : List UInt8} :
      entries = before ++ a :: after → (∀ x ∈ before, Fits x) → Refused a s bytes →
      SectionRefused Fits entryBytes Refused entries s (before.flatMap entryBytes ++ bytes)

abbrev QuestionsRefused : List Question → Status → List UInt8 → Prop :=
  SectionRefused (fun q => ShortLabels q.qname) questionBytes QuestionRefused

abbrev RecordsRefused : List ResourceRecord → Status → List UInt8 → Prop :=
  SectionRefused RecordFits recordBytes RecordRefused

/-- The status of a failed `build`, and the caller's output after it. -/
inductive Refuses (m : Message) (out : Buffer) : Status → Buffer → Prop where
  | sections : ¬ SectionsFit m → Refuses m out .SECTION_TOO_LARGE out
  | questions {s : Status} {bytes : List UInt8} : SectionsFit m →
      QuestionsRefused m.questions s bytes →
      Refuses m out s (headerBytes (countedHeader m) ++ bytes)
  | answers {s : Status} {bytes : List UInt8} : SectionsFit m →
      (∀ q ∈ m.questions, ShortLabels q.qname) → RecordsRefused m.answers s bytes →
      Refuses m out s (headerBytes (countedHeader m) ++ m.questions.flatMap questionBytes ++ bytes)
  | authorities {s : Status} {bytes : List UInt8} : SectionsFit m →
      (∀ q ∈ m.questions, ShortLabels q.qname) → (∀ r ∈ m.answers, RecordFits r) →
      RecordsRefused m.authorities s bytes →
      Refuses m out s (headerBytes (countedHeader m) ++ m.questions.flatMap questionBytes ++
        m.answers.flatMap recordBytes ++ bytes)
  | additionals {s : Status} {bytes : List UInt8} : SectionsFit m →
      (∀ q ∈ m.questions, ShortLabels q.qname) → (∀ r ∈ m.answers, RecordFits r) →
      (∀ r ∈ m.authorities, RecordFits r) → RecordsRefused m.additionals s bytes →
      Refuses m out s (headerBytes (countedHeader m) ++ m.questions.flatMap questionBytes ++
        m.answers.flatMap recordBytes ++ m.authorities.flatMap recordBytes ++ bytes)

/-! ### The writers -/

theorem andThen_eq_fail_iff {written : Status × Buffer} {rest : Buffer → Status × Buffer}
    {s : Status} {out' : Buffer} (hs : s ≠ .OK) :
    andThen written rest = (s, out') ↔
      written = (s, out') ∨ ∃ out, written = (.OK, out) ∧ rest out = (s, out') := by
  obtain ⟨status, out⟩ := written
  by_cases hok : status = .OK
  · subst hok
    constructor
    · intro h
      exact Or.inr ⟨out, rfl, h⟩
    · intro h
      rcases h with hsame | ⟨out, hsame, h⟩
      · cases hsame
        exact absurd rfl hs
      · cases hsame
        exact h
  · have hfailed : andThen (status, out) rest = (status, out) := by
      cases status with
      | OK => exact absurd rfl hok
      | _ => rfl
    rw [hfailed]
    constructor
    · exact Or.inl
    · intro h
      rcases h with h | ⟨out, hsame, _⟩
      · exact h
      · cases hsame
        exact absurd rfl hok

section Writers
variable {out out' : Buffer} {s : Status}

theorem not_nameRefused_nil {bytes : List UInt8} : ¬ NameRefused [] bytes := by
  intro h
  generalize hls : [] = ls at h
  cases h with
  | label hlabels =>
    rw [hlabels] at hls
    exact absurd hls.symm (List.append_ne_nil_of_right_ne_nil _ (List.cons_ne_nil _ _))

theorem nameRefused_cons_of_long {l : Label} {ls : List Label} {bytes : List UInt8}
    (hlong : 63 < l.length) : NameRefused (l :: ls) bytes ↔ bytes = [] := by
  constructor
  · intro h
    generalize hls : l :: ls = labels at h
    cases h with
    | @label before after l' hlabels hshort _ =>
      cases before with
      | nil => rfl
      | cons first before =>
        rw [hlabels] at hls
        cases hls
        have hle := hshort l List.mem_cons_self
        omega
  · rintro rfl
    have hfirst : l :: ls = [] ++ l :: ls := rfl
    exact .label hfirst (fun _ hl => absurd hl List.not_mem_nil) hlong

theorem nameRefused_cons_of_short {l : Label} {ls : List Label} {bytes : List UInt8}
    (hshort : l.length ≤ 63) : NameRefused (l :: ls) bytes ↔
      ∃ rest, NameRefused ls rest ∧ bytes = UInt8.ofNat l.length :: l ++ rest := by
  constructor
  · intro h
    generalize hls : l :: ls = labels at h
    cases h with
    | @label before after l' hlabels hbefore hlong =>
      rw [hlabels] at hls
      cases before with
      | nil =>
        cases hls
        exact absurd hlong (Nat.not_lt.mpr hshort)
      | cons first before =>
        cases hls
        exact ⟨labelBytes before, .label rfl (List.forall_mem_cons.mp hbefore).2 hlong,
          List.flatMap_cons⟩
  · rintro ⟨rest, hrest, rfl⟩
    cases hrest with
    | @label before after l' hlabels hbefore hlong =>
      have hfirst : l :: ls = (l :: before) ++ l' :: after := by rw [hlabels, List.cons_append]
      have hbytes : labelBytes (l :: before) = UInt8.ofNat l.length :: l ++ labelBytes before :=
        List.flatMap_cons
      rw [← hbytes]
      exact .label hfirst (List.forall_mem_cons.mpr ⟨hshort, hbefore⟩) hlong

theorem writeLabels_eq_fail_iff {ls : List Label} (hs : s ≠ .OK) :
    writeLabels ls out = (s, out') ↔
      s = .LABEL_TOO_LONG ∧ ∃ bytes, NameRefused ls bytes ∧ out' = out ++ bytes := by
  induction ls generalizing out with
  | nil =>
    constructor
    · intro h
      cases h
      exact absurd rfl hs
    · rintro ⟨_, bytes, hrefused, _⟩
      exact absurd hrefused not_nameRefused_nil
  | cons l ls ih =>
    unfold writeLabels
    split
    · rename_i hlong
      simp only [nameRefused_cons_of_long hlong, exists_eq_left, List.append_nil, Prod.mk.injEq,
        eq_comm]
    · rename_i hshort
      rw [ih]
      simp only [nameRefused_cons_of_short (Nat.not_lt.mp hshort)]
      constructor
      · rintro ⟨hlabel, rest, hrest, rfl⟩
        exact ⟨hlabel, _, ⟨rest, hrest, rfl⟩, by simp only [List.append_assoc, List.cons_append,
          List.nil_append]⟩
      · rintro ⟨hlabel, _, ⟨rest, hrest, rfl⟩, rfl⟩
        exact ⟨hlabel, rest, hrest, by simp only [List.append_assoc, List.cons_append,
          List.nil_append]⟩

theorem writeQuestion_eq_fail_iff {q : Question} (hs : s ≠ .OK) :
    writeQuestion q out = (s, out') ↔ ∃ bytes, QuestionRefused q s bytes ∧ out' = out ++ bytes := by
  rw [writeQuestion, andThen_eq_fail_iff hs, writeName, writeLabels_eq_fail_iff hs]
  constructor
  · intro h
    rcases h with ⟨hlabel, bytes, hname, hout⟩ | ⟨_, _, hdone⟩
    · rw [hlabel]
      exact ⟨bytes, .name hname, hout⟩
    · cases hdone
      exact absurd rfl hs
  · intro h
    obtain ⟨bytes, hrefused, hout⟩ := h
    cases hrefused with
    | name hname => exact Or.inl ⟨rfl, bytes, hname, hout⟩

theorem writeResourceRecord_eq_fail_iff {r : ResourceRecord} (hs : s ≠ .OK) :
    writeResourceRecord r out = (s, out') ↔
      ∃ bytes, RecordRefused r s bytes ∧ out' = out ++ bytes := by
  rw [writeResourceRecord, andThen_eq_fail_iff hs, writeName, writeLabels_eq_fail_iff hs]
  simp only [writeLabels_eq_ok_iff, writeU16_eq, writeU32_eq]
  constructor
  · intro h
    rcases h with ⟨hlabel, bytes, hname, hout⟩ | ⟨_, ⟨hshort, rfl⟩, h⟩
    · rw [hlabel]
      exact ⟨bytes, .name hname, hout⟩
    · split at h
      · rename_i hlong
        cases h
        exact ⟨_, .rdata hshort hlong, by simp only [List.append_assoc]⟩
      · cases h
        exact absurd rfl hs
  · intro h
    obtain ⟨bytes, hrefused, hout⟩ := h
    cases hrefused with
    | name hname => exact Or.inl ⟨rfl, bytes, hname, hout⟩
    | rdata hshort hlong =>
      refine Or.inr ⟨_, ⟨hshort, rfl⟩, ?_⟩
      rw [if_pos hlong, hout]
      simp only [List.append_assoc]

section Sections
variable {α : Type} {Fits : α → Prop} {entryBytes : α → List UInt8}
  {Refused : α → Status → List UInt8 → Prop}

theorem not_sectionRefused_nil {bytes : List UInt8} :
    ¬ SectionRefused Fits entryBytes Refused [] s bytes := by
  intro h
  generalize has : [] = as at h
  cases h with
  | entry hentries =>
    rw [hentries] at has
    exact absurd has.symm (List.append_ne_nil_of_right_ne_nil _ (List.cons_ne_nil _ _))

theorem sectionRefused_cons_iff {a : α} {as : List α} {bytes : List UInt8} :
    SectionRefused Fits entryBytes Refused (a :: as) s bytes ↔ Refused a s bytes ∨
      Fits a ∧ ∃ rest, SectionRefused Fits entryBytes Refused as s rest ∧
        bytes = entryBytes a ++ rest := by
  constructor
  · intro h
    generalize hall : a :: as = all at h
    cases h with
    | @entry before after a' _ bytes hentries hbefore ha' =>
      rw [hentries] at hall
      cases before with
      | nil =>
        cases hall
        exact Or.inl ha'
      | cons first before =>
        cases hall
        obtain ⟨ha, hbefore⟩ := List.forall_mem_cons.mp hbefore
        refine Or.inr ⟨ha, _, .entry rfl hbefore ha', ?_⟩
        rw [List.flatMap_cons, List.append_assoc]
  · rintro (ha | ⟨ha, rest, hrest, rfl⟩)
    · have hfirst : a :: as = [] ++ a :: as := rfl
      exact .entry hfirst (fun _ hx => absurd hx List.not_mem_nil) ha
    · cases hrest with
      | @entry before after a' _ bytes hentries hbefore ha' =>
        have hfirst : a :: as = (a :: before) ++ a' :: after := by rw [hentries, List.cons_append]
        rw [← List.append_assoc, ← List.flatMap_cons]
        exact .entry hfirst (List.forall_mem_cons.mpr ⟨ha, hbefore⟩) ha'

/-- A section loop fails at the first entry that does not fit, behind the bytes of the others. -/
theorem writeSection_eq_fail_iff {writeEntry : α → Buffer → Status × Buffer}
    (hfits : ∀ a out out', writeEntry a out = (.OK, out') ↔ Fits a ∧ out' = out ++ entryBytes a)
    (hrefused : ∀ a out out', writeEntry a out = (s, out') ↔
      ∃ bytes, Refused a s bytes ∧ out' = out ++ bytes)
    (hs : s ≠ .OK) {as : List α} :
    writeSection writeEntry as out = (s, out') ↔
      ∃ bytes, SectionRefused Fits entryBytes Refused as s bytes ∧ out' = out ++ bytes := by
  induction as generalizing out with
  | nil =>
    constructor
    · intro h
      cases h
      exact absurd rfl hs
    · rintro ⟨bytes, hrefused, _⟩
      exact absurd hrefused not_sectionRefused_nil
  | cons a as ih =>
    rw [writeSection, andThen_eq_fail_iff hs, hrefused]
    simp only [hfits, ih, sectionRefused_cons_iff]
    constructor
    · rintro (⟨bytes, ha, hout⟩ | ⟨_, ⟨ha, rfl⟩, rest, hrest, hout⟩)
      · exact ⟨bytes, Or.inl ha, hout⟩
      · refine ⟨_, Or.inr ⟨ha, rest, hrest, rfl⟩, ?_⟩
        rw [hout, List.append_assoc]
    · rintro ⟨bytes, ha | ⟨ha, rest, hrest, rfl⟩, hout⟩
      · exact Or.inl ⟨bytes, ha, hout⟩
      · refine Or.inr ⟨_, ⟨ha, rfl⟩, rest, hrest, ?_⟩
        rw [hout, List.append_assoc]

end Sections

theorem writeQuestions_eq_fail_iff {qs : List Question} (hs : s ≠ .OK) :
    writeSection writeQuestion qs out = (s, out') ↔
      ∃ bytes, QuestionsRefused qs s bytes ∧ out' = out ++ bytes := by
  apply writeSection_eq_fail_iff _ _ hs
  · intro q out out'
    exact writeQuestion_eq_ok_iff
  · intro q out out'
    exact writeQuestion_eq_fail_iff hs

theorem writeRecords_eq_fail_iff {rs : List ResourceRecord} (hs : s ≠ .OK) :
    writeSection writeResourceRecord rs out = (s, out') ↔
      ∃ bytes, RecordsRefused rs s bytes ∧ out' = out ++ bytes := by
  apply writeSection_eq_fail_iff _ _ hs
  · intro r out out'
    exact writeResourceRecord_eq_ok_iff
  · intro r out out'
    exact writeResourceRecord_eq_fail_iff hs

end Writers

/-! ### The whole message -/

section Build
variable {m : Message} {out out' : Buffer} {s : Status}

theorem not_sectionsFit_iff : ¬ SectionsFit m ↔
    (m.questions.length > 0xFFFF ∨ m.answers.length > 0xFFFF ∨ m.authorities.length > 0xFFFF ∨
      m.additionals.length > 0xFFFF) := by
  constructor
  · intro h
    by_contra hnone
    exact h ⟨by omega, by omega, by omega, by omega⟩
  · intro hlarge h
    have := h.questions
    have := h.answers
    have := h.authorities
    have := h.additionals
    omega

theorem build_eq_fail_iff (hs : s ≠ .OK) : build m out = (s, out') ↔ Refuses m out s out' := by
  unfold build
  split
  · rename_i hlarge
    have hlarge := not_sectionsFit_iff.mpr hlarge
    constructor
    · intro h
      cases h
      exact .sections hlarge
    · intro h
      cases h with
      | sections => rfl
      | questions hfit => exact absurd hfit hlarge
      | answers hfit => exact absurd hfit hlarge
      | authorities hfit => exact absurd hfit hlarge
      | additionals hfit => exact absurd hfit hlarge
  · rename_i hsmall
    have hfit : SectionsFit m := not_not.mp fun h => hsmall (not_sectionsFit_iff.mp h)
    simp only [andThen_eq_fail_iff hs, writeQuestions_eq_fail_iff hs, writeRecords_eq_fail_iff hs,
      writeQuestions_eq_ok_iff, writeRecords_eq_ok_iff, writeHeader_eq, List.nil_append]
    constructor
    · intro h
      rcases h with ⟨bytes, hq, rfl⟩ | ⟨_, ⟨hq, rfl⟩, h⟩
      · exact .questions hfit hq
      rcases h with ⟨bytes, ha, rfl⟩ | ⟨_, ⟨ha, rfl⟩, h⟩
      · exact .answers hfit hq ha
      rcases h with ⟨bytes, hn, rfl⟩ | ⟨_, ⟨hn, rfl⟩, bytes, hr, rfl⟩
      · exact .authorities hfit hq ha hn
      · exact .additionals hfit hq ha hn hr
    · intro h
      cases h with
      | sections hlarge => exact absurd hfit hlarge
      | questions _ hq => exact Or.inl ⟨_, hq, rfl⟩
      | answers _ hq ha => exact Or.inr ⟨_, ⟨hq, rfl⟩, Or.inl ⟨_, ha, rfl⟩⟩
      | authorities _ hq ha hn =>
        exact Or.inr ⟨_, ⟨hq, rfl⟩, Or.inr ⟨_, ⟨ha, rfl⟩, Or.inl ⟨_, hn, rfl⟩⟩⟩
      | additionals _ hq ha hn hr =>
        exact Or.inr ⟨_, ⟨hq, rfl⟩, Or.inr ⟨_, ⟨ha, rfl⟩, Or.inr ⟨_, ⟨hn, rfl⟩, _, hr, rfl⟩⟩⟩

theorem SectionRefused.status {α : Type} {Fits : α → Prop} {entryBytes : α → List UInt8}
    {Refused : α → Status → List UInt8 → Prop} {P : Status → Prop}
    (hrefused : ∀ a s bytes, Refused a s bytes → P s) {entries : List α} {bytes : List UInt8}
    (h : SectionRefused Fits entryBytes Refused entries s bytes) : P s := by
  cases h with
  | entry _ _ ha => exact hrefused _ _ _ ha

end Build

/-! ### What is left of a refused message -/

section Incomplete
variable {b : Buffer} {o : Nat} {s : Status} {bytes : List UInt8}

theorem leads_labelBytes {ls : List Label} (hlabels : ∀ l ∈ ls, 1 ≤ l.length ∧ l.length ≤ 63)
    (hs : Sits b o (labelBytes ls)) :
    ReflTransGen (Leads b) o (o + (labelBytes ls).length) := by
  induction ls generalizing o with
  | nil => exact .refl
  | cons l ls ih =>
    obtain ⟨⟨h1, h63⟩, hlabels⟩ := List.forall_mem_cons.mp hlabels
    have hsplit : labelBytes (l :: ls) = (UInt8.ofNat l.length :: l) ++ labelBytes ls :=
      List.flatMap_cons
    have hlength : (labelBytes (l :: ls)).length = 1 + l.length + (labelBytes ls).length := by
      rw [hsplit, List.length_append, List.length_cons]
      omega
    rw [hsplit, sits_append_iff, List.length_cons, Nat.add_comm l.length, ← Nat.add_assoc] at hs
    have hrest := ih hlabels hs.2
    rw [hlength, ← Nat.add_assoc, ← Nat.add_assoc]
    exact .head (.label h1 h63 hs.1) hrest

/-- A name that stops before a label is one that ends too early. -/
theorem NameRefused.fails {labels : List Label} (h : NameRefused labels bytes)
    (hnonempty : ∀ l ∈ labels, 1 ≤ l.length) (hs : Sits b o bytes)
    (hend : b.length = o + bytes.length) : NameFails b o .BUFFER_TOO_SMALL := by
  cases h with
  | @label before after l hlabels hshort hlong =>
    have hgood : ∀ l ∈ before, 1 ≤ l.length ∧ l.length ≤ 63 := by
      intro l hl
      refine ⟨hnonempty l ?_, hshort l hl⟩
      rw [hlabels]
      exact List.mem_append_left _ hl
    exact .fault (leads_labelBytes hgood hs) (.noByte (Nat.le_of_eq hend))

theorem QuestionRefused.fails {q : Question} (h : QuestionRefused q s bytes)
    (hnonempty : NonemptyLabels q.qname) (hs : Sits b o bytes)
    (hend : b.length = o + bytes.length) : QuestionFails b o .BUFFER_TOO_SMALL := by
  cases h with
  | name hname => exact .name (hname.fails hnonempty hs hend)

theorem RecordRefused.fails {r : ResourceRecord} (h : RecordRefused r s bytes)
    (hnonempty : NonemptyLabels r.name) (hs : Sits b o bytes)
    (hend : b.length = o + bytes.length) : RecordFails b o .BUFFER_TOO_SMALL := by
  cases h with
  | name hname => exact .name (hname.fails hnonempty hs hend)
  | rdata hshort hlong =>
    have hlabels : ∀ l ∈ r.name.labels, 1 ≤ l.length ∧ l.length ≤ 63 :=
      fun l hl => ⟨hnonempty l hl, hshort l hl⟩
    rw [List.append_assoc, List.append_assoc, sits_append_iff] at hs
    have hname : InlineName b o r.name.labels _ := inlineName_iff.mpr ⟨hlabels, hs.1, rfl⟩
    simp only [List.length_append, length_bytes16, length_bytes32] at hend
    exact .fields hname.encName (by omega)

theorem encQuestions_of_sits {qs : List Question} (hqs : ∀ q ∈ qs, GoodLabels q.qname)
    (hs : Sits b o (qs.flatMap questionBytes)) :
    Chain (EncQuestion b) o qs (o + (qs.flatMap questionBytes).length) :=
  (inlineQuestions_iff.mpr ⟨hqs, hs, rfl⟩).imp fun _ _ _ _ h =>
    h.imp (fun _ _ _ => InlineName.encName) fun _ _ => id

theorem encRecords_of_sits {rs : List ResourceRecord}
    (hrs : ∀ r ∈ rs, GoodLabels r.name ∧ r.rdata.length ≤ 65535)
    (hs : Sits b o (rs.flatMap recordBytes)) :
    Chain (EncRecord b) o (place o rs) (o + (rs.flatMap recordBytes).length) :=
  (inlineRecords_place hrs hs).imp fun _ _ _ _ h =>
    h.imp (fun _ _ _ => InlineName.encName) fun _ _ => id

/-- A section that stops at an entry has fewer of them than it should, and then a fault. -/
theorem questionsRefused_fails {qs : List Question} (h : QuestionsRefused qs s bytes)
    (hnonempty : ∀ q ∈ qs, NonemptyLabels q.qname) (hs : Sits b o bytes)
    (hend : b.length = o + bytes.length) :
    ∃ read e, Chain (EncQuestion b) o read e ∧ read.length < qs.length ∧
      QuestionFails b e .BUFFER_TOO_SMALL := by
  cases h with
  | @entry before after q _ bytes hqs hbefore hq =>
    subst hqs
    rw [sits_append_iff] at hs
    rw [List.length_append, ← Nat.add_assoc] at hend
    have hgood : ∀ q ∈ before, GoodLabels q.qname := by
      intro q hq l hl
      exact ⟨hnonempty q (List.mem_append_left _ hq) l hl, hbefore q hq l hl⟩
    refine ⟨before, _, encQuestions_of_sits hgood hs.1, ?_, hq.fails ?_ hs.2 hend⟩
    · rw [List.length_append, List.length_cons]
      omega
    · exact hnonempty q (List.mem_append_right _ List.mem_cons_self)

theorem recordsRefused_fails {rs : List ResourceRecord} (h : RecordsRefused rs s bytes)
    (hnonempty : ∀ r ∈ rs, NonemptyLabels r.name) (hs : Sits b o bytes)
    (hend : b.length = o + bytes.length) :
    ∃ read e, Chain (EncRecord b) o read e ∧ read.length < rs.length ∧
      RecordFails b e .BUFFER_TOO_SMALL := by
  cases h with
  | @entry before after r _ bytes hrs hbefore hr =>
    subst hrs
    rw [sits_append_iff] at hs
    rw [List.length_append, ← Nat.add_assoc] at hend
    have hgood : ∀ r ∈ before, GoodLabels r.name ∧ r.rdata.length ≤ 65535 := by
      intro r hr
      refine ⟨fun l hl => ⟨?_, (hbefore r hr).1 l hl⟩, (hbefore r hr).2⟩
      exact hnonempty r (List.mem_append_left _ hr) l hl
    refine ⟨place o before, _, encRecords_of_sits hgood hs.1, ?_, hr.fails ?_ hs.2 hend⟩
    · rw [length_place, List.length_append, List.length_cons]
      omega
    · exact hnonempty r (List.mem_append_right _ List.mem_cons_self)

end Incomplete

section Refused
variable {m : Message} {out : Buffer} {s : Status} {bytes : Buffer}

theorem goodRecords {rs : List ResourceRecord} (hnonempty : ∀ r ∈ rs, NonemptyLabels r.name)
    (hfits : ∀ r ∈ rs, RecordFits r) : ∀ r ∈ rs, GoodLabels r.name ∧ r.rdata.length ≤ 65535 := by
  intro r hr
  exact ⟨fun l hl => ⟨hnonempty r hr l hl, (hfits r hr).1 l hl⟩, (hfits r hr).2⟩

theorem Refuses.rejects (h : Refuses m out s bytes) (hlarge : s ≠ .SECTION_TOO_LARGE)
    (hnames : ∀ n ∈ names m, NonemptyLabels n) (left : Message) :
    ∃ m', Rejects bytes left .BUFFER_TOO_SMALL m' := by
  obtain ⟨hquestions, hrecords⟩ := forall_names_iff.mp hnames
  obtain ⟨hanswers, hauthorities, hadditionals⟩ := forall_records_iff.mp hrecords
  have goodQuestions (hshort : ∀ q ∈ m.questions, ShortLabels q.qname) :
      ∀ q ∈ m.questions, GoodLabels q.qname := fun q hq l hl =>
    ⟨hquestions q hq l hl, hshort q hq l hl⟩
  have count {n : Nat} (h : n ≤ 65535) : (UInt16.ofNat n).toNat = n := toNat_ofNat_of_le h
  have whole : Sits bytes 0 bytes := List.prefix_refl _
  cases h with
  | sections => exact absurd rfl hlarge
  | @questions _ bytes hfit hq =>
    simp only [sits_append_iff, length_headerBytes, Nat.zero_add] at whole
    obtain ⟨hheader, hrest⟩ := whole
    obtain ⟨read, e, hchain, hlength, hfails⟩ := questionsRefused_fails hq hquestions hrest
      (by rw [List.length_append, length_headerBytes])
    exact ⟨_, .questions hheader hchain (hlength.trans_eq (count hfit.questions).symm) hfails⟩
  | @answers _ bytes hfit hshort ha =>
    simp only [sits_append_iff, List.length_append, length_headerBytes, Nat.zero_add] at whole
    obtain ⟨⟨hheader, hqs⟩, hrest⟩ := whole
    obtain ⟨read, e, hchain, hlength, hfails⟩ := recordsRefused_fails ha hanswers hrest
      (by simp only [List.length_append, length_headerBytes])
    exact ⟨_, .answers hheader (encQuestions_of_sits (goodQuestions hshort) hqs)
      (count hfit.questions).symm hchain (hlength.trans_eq (count hfit.answers).symm) hfails⟩
  | @authorities _ bytes hfit hshort ha hn =>
    simp only [sits_append_iff, List.length_append, length_headerBytes, Nat.zero_add] at whole
    obtain ⟨⟨⟨hheader, hqs⟩, has⟩, hrest⟩ := whole
    obtain ⟨read, e, hchain, hlength, hfails⟩ := recordsRefused_fails hn hauthorities hrest
      (by simp only [List.length_append, length_headerBytes])
    exact ⟨_, .authorities hheader (encQuestions_of_sits (goodQuestions hshort) hqs)
      (count hfit.questions).symm (encRecords_of_sits (goodRecords hanswers ha) has)
      ((length_place _ _).trans (count hfit.answers).symm) hchain
      (hlength.trans_eq (count hfit.authorities).symm) hfails⟩
  | @additionals _ bytes hfit hshort ha hn hr =>
    simp only [sits_append_iff, List.length_append, length_headerBytes, Nat.zero_add] at whole
    obtain ⟨⟨⟨⟨hheader, hqs⟩, has⟩, hns⟩, hrest⟩ := whole
    obtain ⟨read, e, hchain, hlength, hfails⟩ := recordsRefused_fails hr hadditionals hrest
      (by simp only [List.length_append, length_headerBytes])
    exact ⟨_, .additionals hheader (encQuestions_of_sits (goodQuestions hshort) hqs)
      (count hfit.questions).symm (encRecords_of_sits (goodRecords hanswers ha) has)
      ((length_place _ _).trans (count hfit.answers).symm)
      (encRecords_of_sits (goodRecords hauthorities hn) hns)
      ((length_place _ _).trans (count hfit.authorities).symm) hchain
      (hlength.trans_eq (count hfit.additionals).symm) hfails⟩

/-! ### Main results -/

theorem QuestionsRefused.status {qs : List Question} (h : QuestionsRefused qs s bytes) :
    s = .LABEL_TOO_LONG := by
  cases h with
  | entry _ _ hq =>
    cases hq with
    | name => rfl

theorem RecordsRefused.status {rs : List ResourceRecord} (h : RecordsRefused rs s bytes) :
    s = .LABEL_TOO_LONG ∨ s = .RDATA_LENGTH_MISMATCH := by
  cases h with
  | entry _ _ hr =>
    cases hr with
    | name => exact Or.inl rfl
    | rdata => exact Or.inr rfl

theorem Refuses.status (h : Refuses m out s bytes) :
    s = .SECTION_TOO_LARGE ∨ s = .LABEL_TOO_LONG ∨ s = .RDATA_LENGTH_MISMATCH := by
  cases h with
  | sections => exact Or.inl rfl
  | questions _ hq => exact Or.inr (Or.inl hq.status)
  | answers _ _ ha => exact Or.inr ha.status
  | authorities _ _ _ hn => exact Or.inr hn.status
  | additionals _ _ _ _ hr => exact Or.inr hr.status

/-- What `build` reports when it fails, and all it leaves in the caller's output; no other status
than three of the eight is ever reported. -/
theorem build_refuses_iff (m : Message) (out bytes : Buffer) (s : Status) :
    (build m out = (s, bytes) ∧ s ≠ .OK ↔ Refuses m out s bytes) ∧
      (Refuses m out s bytes →
        s = .SECTION_TOO_LARGE ∨ s = .LABEL_TOO_LONG ∨ s = .RDATA_LENGTH_MISMATCH) := by
  refine ⟨⟨fun h => (build_eq_fail_iff h.2).mp h.1, fun h => ?_⟩, Refuses.status⟩
  have hs : s ≠ .OK := by
    intro hok
    have hstatus := h.status
    rw [hok] at hstatus
    simp at hstatus
  exact ⟨(build_eq_fail_iff hs).mpr h, hs⟩

/-- The output of a `build` that failed on a label or on rdata is never accepted: for `parse` it
is a packet with bytes missing. -/
theorem refused_message_incomplete (hbuild : build m out = (s, bytes)) (hs : s ≠ .OK)
    (hlarge : s ≠ .SECTION_TOO_LARGE) (hnames : ∀ n ∈ names m, NonemptyLabels n) (left : Message) :
    (parse bytes left).1 = .BUFFER_TOO_SMALL := by
  obtain ⟨m', hrejects⟩ := ((build_eq_fail_iff hs).mp hbuild).rejects hlarge hnames left
  rw [parse_of_rejects hrejects]

/-- A question, a record and a second record with a label of sixty-four bytes. -/
def overlongOwner : Message :=
  { Message.blank with
    questions := [⟨⟨[[119]]⟩, 1, 1⟩]
    answers := [⟨⟨[[119]]⟩, 1, 1, 0, [1, 2, 3, 4], 0⟩,
      ⟨⟨[[120], List.replicate 64 97]⟩, 1, 1, 0, [], 0⟩] }

theorem refused_overlongOwner : (build overlongOwner []).1 = .LABEL_TOO_LONG ∧
    (parse (build overlongOwner []).2 Message.blank).1 = .BUFFER_TOO_SMALL := by
  have hstatus : (build overlongOwner []).1 = .LABEL_TOO_LONG := by decide +kernel
  have hbuild : build overlongOwner [] = (.LABEL_TOO_LONG, (build overlongOwner []).2) :=
    Prod.ext hstatus rfl
  refine ⟨hstatus, refused_message_incomplete hbuild (by decide) (by decide) ?_ Message.blank⟩
  simp [names, Message.records, overlongOwner, Message.blank, NonemptyLabels]

end Refused

end DnsPro.Wire
