import DnsPro.Wire.RoundTrip

/-!
# Names inside rdata across a rebuild

The parser and the builder treat rdata as opaque bytes, so a rebuild copies it verbatim while the
owner names before it may change their length. A name inside rdata keeps its meaning when
everything it reaches through a pointer lies in the part of the packet that a rebuild leaves in
place, the header and the entries in front of the first compressed owner name, or when it comes
from there to one of that name's own labels.
-/

namespace DnsPro.Wire

open Packet DnsPro.Parser DnsPro.Builder Layout Word

set_option autoImplicit false

/-- The name at an offset has the labels `ls` in front of offset `o`, and no pointer before it. -/
inductive LabelsTo (b : Buffer) : Nat → List Label → Nat → Prop where
  | here {o : Nat} : LabelsTo b o [] o
  | label {i o : Nat} {label : Label} {ls : List Label} :
      1 ≤ label.length → label.length ≤ 63 →
      Sits b i (UInt8.ofNat label.length :: label) →
      LabelsTo b (i + 1 + label.length) ls o → LabelsTo b i (label :: ls) o

/-- A name of `b` that is read inside the first `p` bytes, except that it may come to the name
`next` of the entry behind them: to one of its labels, or to its pointer. -/
inductive FrontName (b : Buffer) (p : Nat) (next : Option Name) : Nat → List Label → Prop where
  | root {o : Nat} : Sits (b.take p) o [0] → FrontName b p next o []
  | label {o : Nat} {label : Label} {rest : List Label} :
      1 ≤ label.length → label.length ≤ 63 →
      Sits (b.take p) o (UInt8.ofNat label.length :: label) →
      FrontName b p next (o + 1 + label.length) rest → FrontName b p next o (label :: rest)
  | pointer {o t : Nat} {labels : List Label} :
      t < 2 ^ 14 → t < o → Sits (b.take p) o [UInt8.ofNat (192 + t / 2 ^ 8), UInt8.ofNat t] →
      FrontName b p next t labels → FrontName b p next o labels
  | entry {o e : Nat} {n : Name} {ls labels : List Label} :
      next = some n → LabelsTo b p ls o → EncName b o labels e → FrontName b p next o labels

/-- A name of `b` that is read inline up to its first pointer and from there on in front. -/
inductive NameInto (b : Buffer) (p : Nat) (next : Option Name) : Nat → List Label → Nat → Prop where
  | root {o : Nat} : Sits b o [0] → NameInto b p next o [] (o + 1)
  | label {o e : Nat} {label : Label} {rest : List Label} :
      1 ≤ label.length → label.length ≤ 63 →
      Sits b o (UInt8.ofNat label.length :: label) →
      NameInto b p next (o + 1 + label.length) rest e → NameInto b p next o (label :: rest) e
  | pointer {o t : Nat} {labels : List Label} :
      t < 2 ^ 14 → t < o → Sits b o [UInt8.ofNat (192 + t / 2 ^ 8), UInt8.ofNat t] →
      FrontName b p next t labels → NameInto b p next o labels (o + 2)

/-- The first `p` bytes of the packet are the header and whole entries, owner names all inline;
`next` is the name of the entry behind them, if there is one. -/
def InlineUpTo (b : Buffer) (m : Message) (p : Nat) (next : Option Name) : Prop :=
  (∃ qs qs', m.questions = qs ++ qs' ∧ Chain (QuestionAt (InlineName b) b) 12 qs p ∧
    next = (qs'.map (·.qname) ++ m.records.map (·.name)).head?) ∨
  ∃ o rs rs', Chain (QuestionAt (InlineName b) b) 12 m.questions o ∧
    m.records = rs ++ rs' ∧ Chain (RecordAt (InlineName b) b) o rs p ∧
    next = (rs'.map (·.name)).head?

section Moving
variable {b r : Buffer} {p o e i : Nat} {ls ls' : List Label} {next : Option Name}

theorem EncName.of_take (h : EncName (b.take p) o ls e) : EncName b o ls e :=
  h.mono fun _ _ => Sits.of_take

theorem nameBytes_ne_nil (ls : List Label) : nameBytes ls ≠ [] := by
  cases ls with
  | nil => exact List.cons_ne_nil _ _
  | cons l ls => exact List.append_ne_nil_of_left_ne_nil (List.cons_ne_nil _ _) _

theorem LabelsTo.encName (h : LabelsTo b i ls o) (hrest : EncName b o ls' e) :
    EncName b i (ls ++ ls') e := by
  induction h with
  | here => exact hrest
  | label h1 h63 hs _ ih => exact .label h1 h63 hs (ih hrest)

theorem LabelsTo.length_eq (h : LabelsTo b i ls o) (ls' : List Label) :
    i + (nameBytes (ls ++ ls')).length = o + (nameBytes ls').length := by
  induction h with
  | here => rfl
  | @label i o l rest _ _ _ _ ih =>
    rw [List.cons_append, nameBytes, List.length_append, List.length_cons]
    omega

theorem LabelsTo.sits_rest (h : LabelsTo b i ls o) (hs : Sits r i (nameBytes (ls ++ ls'))) :
    Sits r o (nameBytes ls') := by
  induction h with
  | here => exact hs
  | @label i o l rest _ _ _ _ ih =>
    apply ih
    rw [List.cons_append, nameBytes, sits_append_iff, List.length_cons] at hs
    rw [Nat.add_assoc, Nat.add_comm 1]
    exact hs.2

theorem FrontName.encName (h : FrontName b p next o ls) : ∃ e, EncName b o ls e := by
  induction h with
  | root hs => exact ⟨_, .root hs.of_take⟩
  | label h1 h63 hs _ ih =>
    obtain ⟨e, henc⟩ := ih
    exact ⟨e, .label h1 h63 hs.of_take henc⟩
  | pointer ht hback hs _ ih =>
    obtain ⟨e, henc⟩ := ih
    exact ⟨_, .pointer ht hback hs.of_take henc⟩
  | entry _ _ henc => exact ⟨_, henc⟩

theorem NameInto.encName (h : NameInto b p next o ls e) : EncName b o ls e := by
  induction h with
  | root hs => exact .root hs
  | label h1 h63 hs _ ih => exact .label h1 h63 hs ih
  | pointer ht hback hs hfront =>
    obtain ⟨e, henc⟩ := hfront.encName
    exact .pointer ht hback hs henc

/-- Behind the first `p` bytes the packet `b` has the name `next`, compressed or not, and the packet
`r` has it written out. -/
def NextName (b r : Buffer) (p : Nat) (next : Option Name) : Prop :=
  ∀ n, next = some n → (∃ e, EncName b p n.labels e) ∧ Sits r p (nameBytes n.labels)

/-- Where the name `next` ends once it is written out. -/
def frontEnd (p : Nat) : Option Name → Nat
  | none => p
  | some n => p + (nameBytes n.labels).length

theorem le_frontEnd (p : Nat) (next : Option Name) : p ≤ frontEnd p next := by
  cases next with
  | none => exact Nat.le_refl p
  | some n => exact Nat.le_add_right p _

theorem NextName.split (h : NextName b r p next) {n : Name} (hn : next = some n)
    (hto : LabelsTo b p ls o) (henc : EncName b o ls' e) : n.labels = ls ++ ls' := by
  obtain ⟨⟨e', hname⟩, _⟩ := h n hn
  exact (hname.unique (hto.encName henc)).1

theorem FrontName.start_lt (h : FrontName b p next o ls) (hnext : NextName b r p next) :
    o < frontEnd p next := by
  have hle := le_frontEnd p next
  have inside {xs : List UInt8} (hs : Sits (b.take p) o xs) (hne : xs ≠ []) : o < p := by
    have hend := hs.end_le hne
    have hpos := List.length_pos_of_ne_nil hne
    rw [List.length_take] at hend
    omega
  cases h with
  | root hs => exact Nat.lt_of_lt_of_le (inside hs (by simp)) hle
  | label _ _ hs _ => exact Nat.lt_of_lt_of_le (inside hs (by simp)) hle
  | pointer _ _ hs _ => exact Nat.lt_of_lt_of_le (inside hs (by simp)) hle
  | @entry _ _ n front _ hn hto henc =>
    have hsplit := hnext.split hn hto henc
    have hlength := hto.length_eq ls
    have hpos := List.length_pos_of_ne_nil (nameBytes_ne_nil ls)
    rw [hn, frontEnd, hsplit]
    omega

/-- What is read in front is read there of every packet with this front, and with the next name
written out. -/
theorem FrontName.move (h : FrontName b p next o ls) (hfront : r.take p = b.take p)
    (hnext : NextName b r p next) : ∃ e, EncName r o ls e := by
  induction h with
  | root hs =>
    rw [← hfront] at hs
    exact ⟨_, .root hs.of_take⟩
  | label h1 h63 hs _ ih =>
    obtain ⟨e, henc⟩ := ih
    rw [← hfront] at hs
    exact ⟨e, .label h1 h63 hs.of_take henc⟩
  | pointer ht hback hs _ ih =>
    obtain ⟨e, henc⟩ := ih
    rw [← hfront] at hs
    exact ⟨_, .pointer ht hback hs.of_take henc⟩
  | @entry o e n front labels hn hto henc =>
    have hwritten := (hnext n hn).2
    rw [hnext.split hn hto henc] at hwritten
    have hrest := hto.sits_rest hwritten
    exact ⟨_, (inlineName_iff.mpr ⟨henc.labels_length, hrest, rfl⟩).encName⟩

/-- Copy the inline part of a name anywhere behind the next name and keep the front: it still reads
as the same name. -/
theorem NameInto.move (h : NameInto b p next o ls e) (hfront : r.take p = b.take p)
    (hnext : NextName b r p next) {i : Nat} (hcopy : ∀ j, o + j < e → r[i + j]? = b[o + j]?)
    (hplace : i = o ∨ frontEnd p next ≤ i) : EncName r i ls (i + (e - o)) := by
  induction h generalizing i with
  | @root o hs =>
    have hmoved : Sits r i [0] := hs.move fun j hj => hcopy j (by simpa using hj)
    rw [Nat.add_sub_cancel_left]
    exact .root hmoved
  | @label o e l rest h1 h63 hs hrest ih =>
    have hlt := hrest.encName.lt
    have hmoved : Sits r i (UInt8.ofNat l.length :: l) := by
      refine hs.move fun j hj => hcopy j ?_
      rw [List.length_cons] at hj
      omega
    have htail := ih (i := i + 1 + l.length) (fun j hj => by
      have := hcopy (1 + l.length + j) (by omega)
      rw [← Nat.add_assoc, ← Nat.add_assoc, ← Nat.add_assoc, ← Nat.add_assoc] at this
      exact this) (by omega)
    have hend : i + 1 + l.length + (e - (o + 1 + l.length)) = i + (e - o) := by omega
    rw [hend] at htail
    exact .label h1 h63 hmoved htail
  | @pointer o t labels ht hback hs hname =>
    have hmoved : Sits r i [UInt8.ofNat (192 + t / 2 ^ 8), UInt8.ofNat t] :=
      hs.move fun j hj => hcopy j (by simp only [List.length_cons, List.length_nil] at hj; omega)
    have hstart := hname.start_lt hnext
    obtain ⟨e, henc⟩ := hname.move hfront hnext
    rw [Nat.add_sub_cancel_left]
    exact .pointer ht (by omega) hmoved henc

end Moving

/-! ### What a rebuild leaves in place -/

theorem rdataOffset_ge_of_mem_place {o : Nat} {s : ResourceRecord} {rs : List ResourceRecord}
    {r : ResourceRecord} (h : r ∈ place o (s :: rs)) :
    o + (nameBytes s.name.labels).length ≤ r.rdataOffset := by
  induction rs generalizing o s with
  | nil =>
    rw [place, place, List.mem_singleton] at h
    rw [h]
    exact Nat.le_add_right _ 10
  | cons s' rs ih =>
    rw [place] at h
    rcases List.mem_cons.mp h with rfl | hm
    · exact Nat.le_add_right _ 10
    · have hle := ih hm
      rw [recordBytes, List.length_append, List.length_append] at hle
      omega

theorem records_relocate (m : Message) :
    (relocate m).records = place (questionsEnd m) m.records := by
  simp only [Message.records, place_append, List.append_assoc]
  simp only [relocate, answersEnd, authoritiesEnd]

section Unmoved
variable {b : Buffer} {m : Message} {p e : Nat} {next : Option Name}

theorem EncQuestion.end_unique {o : Nat} {q : Question} {j j' : Nat} (h : EncQuestion b o q j)
    (h' : EncQuestion b o q j') : j = j' := by
  obtain ⟨f, hname, _, rfl⟩ := h
  obtain ⟨f', hname', _, rfl⟩ := h'
  rw [(hname.unique hname').2]

theorem EncRecord.end_unique {o : Nat} {r : ResourceRecord} {j j' : Nat} (h : EncRecord b o r j)
    (h' : EncRecord b o r j') : j = j' := by
  obtain ⟨f, hname, _, _, _, _, rfl⟩ := h
  obtain ⟨f', hname', _, _, _, _, rfl⟩ := h'
  rw [(hname.unique hname').2]

/-- The rebuilt packet begins with the same `p` bytes, and the next name is written out there. -/
theorem front_messageBytes (henc : Encodes b m e) (h : InlineUpTo b m p next) :
    ∃ front back, messageBytes m = front ++ back ∧ front.length = p ∧ Sits b 0 front ∧
      ∀ n, next = some n → nameBytes n.labels <+: back := by
  have hbytes := messageBytes_of_counted henc.counted
  have hrecords : ∀ (rs : List ResourceRecord) n, (rs.map (·.name)).head? = some n →
      nameBytes n.labels <+: rs.flatMap recordBytes := by
    intro rs n hn
    cases rs with
    | nil => cases hn
    | cons r rs =>
      cases hn
      rw [List.flatMap_cons, recordBytes, List.append_assoc, List.append_assoc]
      exact List.prefix_append _ _
  rcases h with ⟨qs, qs', hqs, hchain, hnext⟩ | ⟨o, rs, rs', hchain, hrs, hrchain, hnext⟩
  · obtain ⟨_, hs, rfl⟩ := inlineQuestions_iff.mp hchain
    rw [hqs, List.flatMap_append, List.append_assoc, ← List.append_assoc] at hbytes
    refine ⟨_, _, hbytes, ?_, sits_append_iff.mpr ⟨henc.header, hs⟩, fun n hn => ?_⟩
    · rw [List.length_append, length_headerBytes]
    · rw [hn] at hnext
      cases qs' with
      | nil => exact hrecords m.records n hnext.symm
      | cons q qs' =>
        cases hnext
        rw [List.flatMap_cons, questionBytes, List.append_assoc, List.append_assoc]
        exact List.prefix_append _ _
  · obtain ⟨_, hs, rfl⟩ := inlineQuestions_iff.mp hchain
    obtain ⟨_, _, hrs', rfl⟩ := inlineRecords_iff.mp hrchain
    rw [hrs, List.flatMap_append, ← List.append_assoc, ← List.append_assoc] at hbytes
    refine ⟨_, _, hbytes, ?_, sits_append_iff.mpr ⟨sits_append_iff.mpr ⟨henc.header, hs⟩, ?_⟩,
      fun n hn => hrecords rs' n (hnext.symm.trans hn)⟩
    · rw [List.length_append, List.length_append, length_headerBytes]
    · rwa [List.length_append, length_headerBytes, Nat.zero_add]

theorem take_messageBytes (henc : Encodes b m e) (h : InlineUpTo b m p next) :
    (messageBytes m).take p = b.take p := by
  obtain ⟨front, back, hm, hp, hs, _⟩ := front_messageBytes henc h
  rw [hm, ← hp, List.take_left, sits_zero_iff.mp hs]

theorem head_of_records {o : Nat} {rs : List ResourceRecord} {n : Name}
    (h : Chain (EncRecord b) o rs e) (hn : (rs.map (·.name)).head? = some n) :
    ∃ e', EncName b o n.labels e' := by
  cases h with
  | nil => cases hn
  | cons hr _ =>
    cases hn
    obtain ⟨f, hname, _⟩ := hr
    exact ⟨f, hname⟩

theorem inlineQuestions_encode {o : Nat} {qs : List Question}
    (h : Chain (QuestionAt (InlineName b) b) o qs p) : Chain (EncQuestion b) o qs p := by
  apply h.imp
  rintro i q j _ ⟨f, hname, hfields⟩
  exact ⟨f, hname.encName, hfields⟩

theorem inlineRecords_encode {o : Nat} {rs : List ResourceRecord}
    (h : Chain (RecordAt (InlineName b) b) o rs p) : Chain (EncRecord b) o rs p := by
  apply h.imp
  rintro i r j _ ⟨f, hname, hfields⟩
  exact ⟨f, hname.encName, hfields⟩

theorem nextName_of_inlineUpTo (henc : Encodes b m e) (h : InlineUpTo b m p next) :
    NextName b (messageBytes m) p next := by
  intro n hn
  constructor
  · obtain ⟨o₁, hq, hr⟩ := henc.records
    have hquestion : ∀ i q j j', EncQuestion b i q j → EncQuestion b i q j' → j = j' :=
      fun _ _ _ _ h h' => EncQuestion.end_unique h h'
    have hrecord : ∀ i r j j', EncRecord b i r j → EncRecord b i r j' → j = j' :=
      fun _ _ _ _ h h' => EncRecord.end_unique h h'
    rcases h with ⟨qs, qs', hqs, hchain, hnext⟩ | ⟨o, rs, rs', hchain, hrs, hrchain, hnext⟩
    · rw [hqs, chain_append_iff] at hq
      obtain ⟨p', hqs, hqs'⟩ := hq
      rw [← (inlineQuestions_encode hchain).unique hquestion hqs] at hqs'
      rw [hn] at hnext
      cases hqs' with
      | nil => exact head_of_records hr hnext.symm
      | cons hq _ =>
        cases hnext
        obtain ⟨f, hname, _⟩ := hq
        exact ⟨f, hname⟩
    · rw [← (inlineQuestions_encode hchain).unique hquestion hq, hrs, chain_append_iff] at hr
      obtain ⟨p', hrs, hrs'⟩ := hr
      rw [← (inlineRecords_encode hrchain).unique hrecord hrs] at hrs'
      exact head_of_records hrs' (hnext.symm.trans hn)
  · obtain ⟨front, back, hm, hp, _, hback⟩ := front_messageBytes henc h
    unfold Sits
    rw [hm, ← hp, List.drop_left]
    exact hback n hn

theorem rdataOffset_of_relocate (h : InlineUpTo b m p next) {i : Nat} {r r' : ResourceRecord}
    (hr : m.records[i]? = some r) (hr' : (relocate m).records[i]? = some r') :
    r'.rdataOffset = r.rdataOffset ∨ frontEnd p next ≤ r'.rdataOffset := by
  have behind : ∀ {o : Nat} {rs : List ResourceRecord}, r' ∈ place o rs →
      frontEnd o (rs.map (·.name)).head? ≤ r'.rdataOffset := by
    intro o rs hmem
    cases rs with
    | nil => cases hmem
    | cons s rs => exact rdataOffset_ge_of_mem_place hmem
  rw [records_relocate] at hr'
  rcases h with ⟨qs, qs', hqs, hchain, hnext⟩ | ⟨o, rs, rs', hchain, hrs, hrchain, hnext⟩
  · obtain ⟨_, _, rfl⟩ := inlineQuestions_iff.mp hchain
    have hle := behind (List.mem_of_getElem? hr')
    rw [questionsEnd, hqs, List.flatMap_append, List.length_append] at hle
    right
    cases qs' with
    | nil =>
      rw [List.flatMap_nil, List.length_nil, Nat.add_zero] at hle
      rw [hnext]
      exact hle
    | cons q qs' =>
      have hname : frontEnd (12 + (qs.flatMap questionBytes).length) next =
          12 + (qs.flatMap questionBytes).length + (nameBytes q.qname.labels).length := by
        rw [hnext]
        rfl
      have hquestions := Nat.le_trans (le_frontEnd _ _) hle
      rw [List.flatMap_cons, questionBytes, List.length_append, List.length_append] at hquestions
      omega
  · obtain ⟨_, _, rfl⟩ := inlineQuestions_iff.mp hchain
    obtain ⟨_, hplace, _, rfl⟩ := inlineRecords_iff.mp hrchain
    rw [questionsEnd, hrs, place_append, hplace] at hr'
    rw [hrs] at hr
    by_cases hi : i < rs.length
    · rw [List.getElem?_append_left hi] at hr hr'
      rw [hr] at hr'
      cases hr'
      exact Or.inl rfl
    · rw [List.getElem?_append_right (by omega)] at hr'
      rw [hnext]
      exact Or.inr (behind (List.mem_of_getElem? hr'))

end Unmoved

theorem Encodes.sits_rdata {b : Buffer} {m : Message} {e : Nat} (h : Encodes b m e) :
    ∀ r ∈ m.records, Sits b r.rdataOffset r.rdata := by
  obtain ⟨_, _, hrecords⟩ := h.records
  refine hrecords.forall_mem ?_
  intro _ r _ ⟨f, _, _, _, hoff, hrdata, _⟩
  rwa [hoff]

theorem dropOffset_of_relocate {m : Message} {i : Nat} {r r' : ResourceRecord}
    (hr : m.records[i]? = some r) (hr' : (relocate m).records[i]? = some r') :
    r'.dropOffset = r.dropOffset := by
  have hmap := congrArg (fun rs : List ResourceRecord => rs[i]?)
    (place_map_dropOffset (questionsEnd m) m.records)
  rw [← records_relocate] at hmap
  simpa [hr, hr'] using hmap

/-! ### The rebuilt packet -/

/-- Every name that `parseName` finds inside an rdata of `b` is found, at the same place of the
same rdata, in the packet rebuilt from `b`. -/
def KeepsRdataNames (b : Buffer) : Prop :=
  ∀ (blank m m' : Message) (r : Buffer), parse b blank = (.OK, m) → build m [] = (.OK, r) →
    parse r blank = (.OK, m') →
    ∀ (i : Nat) (rr rr' : ResourceRecord), m.records[i]? = some rr → m'.records[i]? = some rr' →
      ∀ k < rr.rdata.length, ∀ (e : Nat) (name out : Name),
        parseName b (rr.rdataOffset + k) out = (.OK, e, name) →
        e ≤ rr.rdataOffset + rr.rdata.length →
        ∃ e', parseName r (rr'.rdataOffset + k) out = (.OK, e', name)

/-- Two answers; the second owner name is a pointer and its rdata `1 b 0 C0 37` ends in a pointer
to its own first byte. -/
def movedRdata : Buffer :=
  [0, 0, 0, 0, 0, 0, 0, 2, 0, 0, 0, 0,
    1, 97, 0, 0, 1, 0, 1, 0, 0, 0, 0, 0, 0,
    0xC0, 12, 0, 5, 0, 1, 0, 0, 0, 0, 0, 5, 1, 98, 0, 0xC0, 37]

def movedRdataMessage : Message := (parse movedRdata Message.blank).2

/-- The rebuilt owner name is one byte longer, so the copied pointer leads into the length field
in front of the rdata. -/
theorem movedRdata_loses_name : ¬ KeepsRdataNames movedRdata := by
  intro h
  obtain ⟨e, he⟩ := h Message.blank movedRdataMessage
    (parse (build movedRdataMessage []).2 Message.blank).2 (build movedRdataMessage []).2
    (Prod.ext (by decide +kernel) rfl) (Prod.ext (by decide +kernel) rfl)
    (Prod.ext (by decide +kernel) rfl) 1
    ⟨⟨[[97]]⟩, 5, 1, 0, [1, 98, 0, 0xC0, 37], 37⟩ ⟨⟨[[97]]⟩, 5, 1, 0, [1, 98, 0, 0xC0, 37], 38⟩
    (by decide +kernel) (by decide +kernel) 3 (by decide) 42 ⟨[[98]]⟩ ⟨[]⟩ (by decide +kernel)
    (by decide)
  have hlost : (parseName (build movedRdataMessage []).2 (38 + 3) ⟨[]⟩).1 = .BUFFER_TOO_SMALL := by
    decide +kernel
  rw [he] at hlost
  cases hlost

/-- A name inside rdata survives a rebuild when whatever it reaches behind its first pointer lies
in the part of the packet before the first compressed owner name, or is that owner name from one of
its own labels on. -/
theorem rdata_name_rebuilt {b r written : Buffer} {blank m m' : Message} {p i k e : Nat}
    {next : Option Name} {rr rr' : ResourceRecord} {name out : Name}
    (h : parse b blank = (.OK, m)) (hbuild : build m written = (.OK, r))
    (hparse : parse r blank = (.OK, m'))
    (hrr : m.records[i]? = some rr) (hrr' : m'.records[i]? = some rr')
    (hname : parseName b (rr.rdataOffset + k) out = (.OK, e, name))
    (hinside : e ≤ rr.rdataOffset + rr.rdata.length)
    (hfront : InlineUpTo b m p next)
    (hinto : ∃ labels e', NameInto b p next (rr.rdataOffset + k) labels e') :
    ∃ e', parseName r (rr'.rdataOffset + k) out = (.OK, e', name) := by
  obtain ⟨_, henc⟩ := encodes_of_parse h
  obtain ⟨_, rfl⟩ := build_eq_ok_iff.mp hbuild
  have hm' : m' = relocate m := by
    rw [parse_messageBytes henc.representable] at hparse
    exact (Prod.mk.inj hparse).2.symm
  subst hm'
  have hmoved := encodes_messageBytes henc.representable
  have hsits := henc.sits_rdata rr (List.mem_of_getElem? hrr)
  have hsits' := hmoved.sits_rdata rr' (List.mem_of_getElem? hrr')
  have hrdata : rr'.rdata = rr.rdata := by
    change rr'.dropOffset.rdata = rr.dropOffset.rdata
    rw [dropOffset_of_relocate hrr hrr']
  rw [hrdata] at hsits'
  obtain ⟨labels, e', hinto⟩ := hinto
  obtain ⟨rfl, rfl⟩ := (parseName_eq_ok_iff.mp hname).unique hinto.encName
  have hlt := hinto.encName.lt
  have hcopy : ∀ j, rr.rdataOffset + k + j < e →
      (messageBytes m)[rr'.rdataOffset + k + j]? = b[rr.rdataOffset + k + j]? := by
    intro j hj
    have hkj : k + j < rr.rdata.length := by omega
    rw [Nat.add_assoc, Nat.add_assoc, sits_iff_getElem?.mp hsits (k + j) hkj,
      sits_iff_getElem?.mp hsits' (k + j) hkj]
  have hplace := rdataOffset_of_relocate hfront hrr hrr'
  have hread := hinto.move (take_messageBytes henc hfront) (nextName_of_inlineUpTo henc hfront)
    hcopy (by omega)
  exact ⟨_, parseName_eq_ok_iff.mpr hread⟩

/-- A question for `abc`, an alias for it and a name server of the alias. The first owner name and
the end of the rdata `1 x C0 12` are pointers to the question name; the second owner name is a
pointer to that rdata, and its own rdata `1 n C0 21` ends in one to the first owner name. -/
def aliasAnswer : Buffer :=
  [0, 0, 0, 0, 0, 1, 0, 1, 0, 1, 0, 0, 3, 97, 98, 99, 0, 0, 5, 0, 1,
    0xC0, 12, 0, 5, 0, 1, 0, 0, 0, 0, 0, 4, 1, 120, 0xC0, 12,
    0xC0, 33, 0, 2, 0, 1, 0, 0, 0, 0, 0, 4, 1, 110, 0xC0, 21]

def aliasMessage : Message := (parse aliasAnswer Message.blank).2

theorem rdata_name_rebuilt_alias :
    (∃ e', parseName (build aliasMessage []).2 36 ⟨[]⟩ = (.OK, e', ⟨[[120], [97, 98, 99]]⟩)) ∧
      ∃ e', parseName (build aliasMessage []).2 57 ⟨[]⟩ = (.OK, e', ⟨[[110], [97, 98, 99]]⟩) := by
  have hquestion : InlineName aliasAnswer 12 [[97, 98, 99]] 17 :=
    .label (by decide) (by decide) (by unfold Sits; decide) (.root (by unfold Sits; decide))
  have hfront : InlineUpTo aliasAnswer aliasMessage 21 (some ⟨[[97, 98, 99]]⟩) :=
    Or.inl ⟨[⟨⟨[[97, 98, 99]]⟩, 5, 1⟩], [], by decide +kernel,
      .cons ⟨17, hquestion, by unfold Sits; decide, rfl⟩ (.nil 21), by decide +kernel⟩
  have hpointed : FrontName aliasAnswer 21 (some ⟨[[97, 98, 99]]⟩) 12 [[97, 98, 99]] :=
    .label (by decide) (by decide) (by unfold Sits; decide) (.root (by unfold Sits; decide))
  have hinto : NameInto aliasAnswer 21 (some ⟨[[97, 98, 99]]⟩) (33 + 0) [[120], [97, 98, 99]] 37 :=
    .label (by decide) (by decide) (by unfold Sits; decide)
      (.pointer (by decide) (by decide) (by unfold Sits; decide) hpointed)
  have howner : FrontName aliasAnswer 21 (some ⟨[[97, 98, 99]]⟩) 21 [[97, 98, 99]] :=
    .entry rfl .here (.pointer (by decide) (by decide) (by unfold Sits; decide) hquestion.encName)
  have hinto' : NameInto aliasAnswer 21 (some ⟨[[97, 98, 99]]⟩) (49 + 0) [[110], [97, 98, 99]] 53 :=
    .label (by decide) (by decide) (by unfold Sits; decide)
      (.pointer (by decide) (by decide) (by unfold Sits; decide) howner)
  have hparse : parse aliasAnswer Message.blank = (.OK, aliasMessage) :=
    Prod.ext (by decide +kernel) rfl
  have hbuild : build aliasMessage [] = (.OK, (build aliasMessage []).2) :=
    Prod.ext (by decide +kernel) rfl
  have hrebuilt : parse (build aliasMessage []).2 Message.blank =
      (.OK, (parse (build aliasMessage []).2 Message.blank).2) := Prod.ext (by decide +kernel) rfl
  constructor
  · exact rdata_name_rebuilt (k := 0) (i := 0) (e := 37) hparse hbuild hrebuilt
      (by decide +kernel :
        aliasMessage.records[0]? = some ⟨⟨[[97, 98, 99]]⟩, 5, 1, 0, [1, 120, 0xC0, 12], 33⟩)
      (by decide +kernel : (parse (build aliasMessage []).2 Message.blank).2.records[0]? =
        some ⟨⟨[[97, 98, 99]]⟩, 5, 1, 0, [1, 120, 0xC0, 12], 36⟩)
      (by decide +kernel) (by decide) hfront ⟨_, _, hinto⟩
  · exact rdata_name_rebuilt (k := 0) (i := 1) (e := 53) hparse hbuild hrebuilt
      (by decide +kernel : aliasMessage.records[1]? =
        some ⟨⟨[[120], [97, 98, 99]]⟩, 2, 1, 0, [1, 110, 0xC0, 21], 49⟩)
      (by decide +kernel : (parse (build aliasMessage []).2 Message.blank).2.records[1]? =
        some ⟨⟨[[120], [97, 98, 99]]⟩, 2, 1, 0, [1, 110, 0xC0, 21], 57⟩)
      (by decide +kernel) (by decide) hfront ⟨_, _, hinto'⟩

end DnsPro.Wire
