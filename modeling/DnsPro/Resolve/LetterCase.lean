import DnsPro.Resolve.ResponseSpec
import DnsPro.Zone.LetterCase

/-!
# Letter case in queries

Two accepted queries that spell the first name in different letter cases get the same status, and
responses with the same header and the same answer section; each echoes the name as it was
spelled. What a writer appends does not depend on what was written before, so the two responses
have the same length and differ in the bytes of the echoed name only.
-/

namespace DnsPro.Resolve

open Packet Container ZoneStore DnsPro.Parser DnsPro.Builder DnsPro.Resolver DnsPro.Wire

set_option autoImplicit false

variable {H : Type → Type → Type} [FiniteMap H]

/-- The messages are the same up to the letter case of the first question's name. -/
inductive OtherSpelling : Message → Message → Prop
  | same (m : Message) : OtherSpelling m m
  | qname {n n' : Name} (m : Message) (qtype qclass : UInt16) (rest : List Question) :
      SameUpToCase n n' →
      OtherSpelling { m with questions := ⟨n, qtype, qclass⟩ :: rest }
        { m with questions := ⟨n', qtype, qclass⟩ :: rest }

/-- A response to the query `q`: its first question as it stands there, and the answers. -/
def echo (header : Header) (answers : List ResourceRecord) (q : Message) : Message :=
  ⟨header, q.questions.take 1, answers, [], []⟩

/-! ### What the writers append -/

section Writers
variable {α : Type}

/-- Status and appended bytes do not depend on what was written before. -/
def Appends (write : Buffer → Status × Buffer) : Prop :=
  ∃ status bytes, ∀ out, write out = (status, out ++ bytes)

theorem andThen_of_ne {status : Status} (h : status ≠ .OK) (out : Buffer)
    (rest : Buffer → Status × Buffer) : andThen (status, out) rest = (status, out) := by
  cases status with
  | OK => exact absurd rfl h
  | _ => rfl

theorem Appends.andThen {write rest : Buffer → Status × Buffer} (h : Appends write)
    (hrest : Appends rest) : Appends fun out => andThen (write out) rest := by
  obtain ⟨status, bytes, hwrite⟩ := h
  obtain ⟨status', bytes', hrest⟩ := hrest
  by_cases hok : status = .OK
  · subst hok
    refine ⟨status', bytes ++ bytes', fun out => ?_⟩
    dsimp only
    rw [hwrite, ← List.append_assoc]
    exact hrest _
  · refine ⟨status, bytes, fun out => ?_⟩
    dsimp only
    rw [hwrite, andThen_of_ne hok]

theorem appends_ok (bytes : List UInt8) : Appends fun out => (.OK, out ++ bytes) :=
  ⟨.OK, bytes, fun _ => rfl⟩

theorem appends_writeLabels (ls : List Label) : Appends (writeLabels ls) := by
  induction ls with
  | nil => exact appends_ok [0]
  | cons l ls ih =>
    by_cases hlong : l.length > 63
    · refine ⟨.LABEL_TOO_LONG, [], fun out => ?_⟩
      rw [writeLabels, if_pos hlong, List.append_nil]
    · obtain ⟨status, bytes, hrest⟩ := ih
      refine ⟨status, [UInt8.ofNat l.length] ++ l ++ bytes, fun out => ?_⟩
      rw [writeLabels, if_neg hlong, hrest]
      simp only [List.append_assoc]

theorem appends_writeResourceRecord (r : ResourceRecord) : Appends (writeResourceRecord r) := by
  apply (appends_writeLabels r.name.labels).andThen
  simp only [writeU16_eq, writeU32_eq, List.append_assoc]
  by_cases hlong : r.rdata.length > 0xFFFF
  · simp only [if_pos hlong]
    exact ⟨.RDATA_LENGTH_MISMATCH, _, fun _ => rfl⟩
  · simp only [if_neg hlong]
    exact appends_ok _

theorem appends_writeSection {writeEntry : α → Buffer → Status × Buffer}
    (hentry : ∀ a, Appends (writeEntry a)) (as : List α) :
    Appends (writeSection writeEntry as) := by
  induction as with
  | nil => exact ⟨.OK, [], fun out => by rw [writeSection, List.append_nil]⟩
  | cons a as ih => exact (hentry a).andThen ih

/-- Questions with short labels do not influence the status but by their number. -/
theorem build_status_congr {m m' : Message} (hquestions : m'.questions.length = m.questions.length)
    (hshort : ∀ q ∈ m.questions, ShortLabels q.qname)
    (hshort' : ∀ q ∈ m'.questions, ShortLabels q.qname) (hanswers : m'.answers = m.answers)
    (hauthorities : m'.authorities = m.authorities)
    (hadditionals : m'.additionals = m.additionals) (out out' : Buffer) :
    (build m out).1 = (build m' out').1 := by
  have hrecords := appends_writeSection appends_writeResourceRecord
  obtain ⟨status, bytes, hrest⟩ :=
    (hrecords m.answers).andThen ((hrecords m.authorities).andThen (hrecords m.additionals))
  unfold build
  rw [hquestions, hanswers, hauthorities, hadditionals]
  split
  · rfl
  · dsimp only
    rw [writeQuestions_eq_ok_iff.mpr ⟨hshort, rfl⟩, writeQuestions_eq_ok_iff.mpr ⟨hshort', rfl⟩]
    have hstatus := fun out => congrArg Prod.fst (hrest out)
    exact (hstatus _).trans
      (hstatus (writeHeader (countedHeader m') [] ++ m'.questions.flatMap questionBytes)).symm

end Writers

/-! ### The reply -/

section Reply
variable {q q' : Message} {n n' : Name}

theorem lookup_same (zone : ZoneStore H) (h : SameUpToCase n n') (type : UInt16) :
    zone.lookup n type = zone.lookup n' type := by
  unfold lookup
  rw [h.canonicalize_eq]

theorem hasName_same (zone : ZoneStore H) (h : SameUpToCase n n') :
    zone.hasName n = zone.hasName n' := by
  unfold hasName
  rw [h.canonicalize_eq]

theorem responseMessage_eq_echo (zone : ZoneStore H) (q : Message) :
    responseMessage zone q =
      echo (responseMessage zone q).header (responseMessage zone q).answers q := by
  unfold responseMessage echo
  cases q.questions with
  | nil => rfl
  | cons question rest =>
    dsimp only
    split
    · rfl
    · rfl

/-- The header and the answers of the reply do not depend on the spelling. -/
theorem responseMessage_spelling (zone : ZoneStore H) (h : OtherSpelling q q') :
    (responseMessage zone q').header = (responseMessage zone q).header ∧
      (responseMessage zone q').answers = (responseMessage zone q).answers := by
  cases h with
  | same m => exact ⟨rfl, rfl⟩
  | qname m qtype qclass rest hn =>
    simp only [responseMessage, ← lookup_same zone hn, ← hasName_same zone hn]
    split
    · exact ⟨rfl, rfl⟩
    · exact ⟨rfl, rfl⟩

theorem length_nameBytes_same {ls ls' : List Label}
    (h : List.Forall₂ (fun l l' : Label => l.map tolower = l'.map tolower) ls ls') :
    (nameBytes ls).length = (nameBytes ls').length := by
  induction h with
  | nil => rfl
  | cons hl _ ih =>
    have hlength := congrArg List.length hl
    rw [List.length_map, List.length_map] at hlength
    simp only [nameBytes, List.length_append, List.length_cons, hlength, ih]

theorem length_echoed_same (h : OtherSpelling q q') :
    (q'.questions.take 1).length = (q.questions.take 1).length ∧
      ((q'.questions.take 1).flatMap questionBytes).length =
        ((q.questions.take 1).flatMap questionBytes).length := by
  cases h with
  | same m => exact ⟨rfl, rfl⟩
  | qname m qtype qclass rest hn =>
    refine ⟨rfl, ?_⟩
    simp [questionBytes, length_nameBytes_same hn]

theorem shortLabels_echoed (hq : Representable q) :
    ∀ question ∈ q.questions.take 1, ShortLabels question.qname := by
  intro question hmem l hl
  exact (goodLabels_echoed hq question hmem l hl).2

end Reply

/-! ### Main result -/

/-- The response `bytes` carry the header, the first question of `q` as spelled there and the
answers, and so they parse when the answers can be parsed at all. -/
structure Echoes (header : Header) (offset : Nat) (answers : List ResourceRecord) (q : Message)
    (bytes : Buffer) : Prop where
  bytes_eq : bytes = headerBytes header ++ (q.questions.take 1).flatMap questionBytes ++
    answers.flatMap recordBytes
  parses : (∀ r ∈ answers, NonemptyLabels r.name) → ∀ out,
    parse bytes out = (.OK, ⟨header, q.questions.take 1, place offset answers, [], []⟩)

section Main
variable {q q' : Message} {header : Header} {answers : List ResourceRecord}

theorem echoes_messageBytes (hq : Representable q)
    (hlimits : WithinLimits (echo header answers q)) :
    Echoes (countedHeader (echo header answers q)) (questionsEnd (echo header answers q)) answers q
      (messageBytes (echo header answers q)) := by
  refine ⟨by simp [messageBytes, echo], fun hnames out => ?_⟩
  apply parse_messageBytes
  rw [representable_iff, forall_names_iff]
  refine ⟨hlimits, ?_, ?_⟩
  · intro question hmem l hl
    exact (goodLabels_echoed hq question hmem l hl).1
  · intro r hr
    simp only [Message.records, echo, List.append_nil] at hr
    exact hnames r hr

theorem resolve_spelling (zone : ZoneStore H) {query query' : Buffer} {out out' : Message}
    (hparse : parse query out = (.OK, q)) (hparse' : parse query' out' = (.OK, q'))
    (h : OtherSpelling q q') :
    ∃ header offset answers, ∀ response response',
      (resolve zone query response).1 = (resolve zone query' response').1 ∧
      ((resolve zone query response).1 = .OK →
        Echoes header offset answers q (resolve zone query response).2 ∧
        Echoes header offset answers q' (resolve zone query' response').2) := by
  obtain ⟨hheader, hanswers⟩ := responseMessage_spelling zone h
  obtain ⟨hcount, hlength⟩ := length_echoed_same h
  have hq := representable_of_parse hparse
  have hq' := representable_of_parse hparse'
  have hbuild := resolve_eq_build zone hparse
  have hbuild' := resolve_eq_build zone hparse'
  rw [responseMessage_eq_echo] at hbuild hbuild'
  rw [hheader, hanswers] at hbuild'
  generalize (responseMessage zone q).header = header at hbuild hbuild'
  generalize (responseMessage zone q).answers = answers at hbuild hbuild'
  have hstatus : ∀ response response', (build (echo header answers q) response).1 =
      (build (echo header answers q') response').1 :=
    build_status_congr hcount (shortLabels_echoed hq) (shortLabels_echoed hq') rfl rfl rfl
  refine ⟨countedHeader (echo header answers q), questionsEnd (echo header answers q), answers, ?_⟩
  intro response response'
  rw [hbuild, hbuild']
  refine ⟨hstatus response response', fun hok => ?_⟩
  have hlimits := build_status_ok_iff.mp hok
  rw [hstatus response response'] at hok
  have hlimits' := build_status_ok_iff.mp hok
  rw [build_ok_of_withinLimits hlimits, build_ok_of_withinLimits hlimits']
  refine ⟨echoes_messageBytes hq hlimits, ?_⟩
  have hechoes := echoes_messageBytes hq' hlimits'
  have hcounted : countedHeader (echo header answers q') =
      countedHeader (echo header answers q) := by
    simp only [countedHeader, echo, hcount]
  have hoffset : questionsEnd (echo header answers q') = questionsEnd (echo header answers q) := by
    simp only [questionsEnd, echo, hlength]
  rwa [hcounted, hoffset] at hechoes

/-- Runs of the same calls in other letter cases lead to stores that answer alike, and on any
zone queries in other letter cases get the same reply, with the name as each of them spells it. -/
theorem letterCase_irrelevant :
    (∀ updates updates', List.Forall₂ SameCall updates updates' → ∀ k,
      SameAnswers (updateAll (updates.take k) construct : ZoneStore H)
        (updateAll (updates'.take k) construct)) ∧
    ∀ (zone : ZoneStore H) query query' out out' q q',
      parse query out = (.OK, q) → parse query' out' = (.OK, q') → OtherSpelling q q' →
      ∃ header offset answers, ∀ response response',
        (resolve zone query response).1 = (resolve zone query' response').1 ∧
        ((resolve zone query response).1 = .OK →
          Echoes header offset answers q (resolve zone query response).2 ∧
          Echoes header offset answers q' (resolve zone query' response').2) := by
  constructor
  · intro updates updates' hcalls k
    exact sameAnswers_updateAll hcalls k
  · intro zone query query' out out' q q' hparse hparse' h
    exact resolve_spelling zone hparse hparse' h

end Main

/-- The address of `WwW.a`, asked for in lower case by `hostQuery` up to the last letter. -/
def mixedQuery : Buffer :=
  [0xAB, 0xCD, 1, 0, 0, 1, 0, 0, 0, 0, 0, 0, 3, 87, 119, 87, 1, 97, 0, 0, 1, 0, 1]

theorem mixedQuery_accepted :
    parse mixedQuery Message.blank = (.OK, (parse mixedQuery Message.blank).2) :=
  Prod.ext (by decide +kernel) rfl

theorem letterCase_irrelevant_host :
    SameAnswers
      (updateAll [.addRecord hostRecord, .removeRecord ⟨[[119, 119, 119], [65]]⟩ 1] construct :
        ZoneStore AssocMap)
      (updateAll [.addRecord hostRecord, .removeRecord ⟨[[87, 87, 87], [97]]⟩ 1] construct) ∧
    (resolve (zoneOf hostRecord) hostQuery []).1 = .OK ∧
    (resolve (zoneOf hostRecord) mixedQuery []).1 = .OK ∧
    ∃ header offset answers,
      Echoes header offset answers (parse hostQuery Message.blank).2
        (resolve (zoneOf hostRecord) hostQuery []).2 ∧
      Echoes header offset answers (parse mixedQuery Message.blank).2
        (resolve (zoneOf hostRecord) mixedQuery []).2 := by
  have hcases := letterCase_irrelevant (H := AssocMap)
  have hcalls : List.Forall₂ SameCall
      [.addRecord hostRecord, .removeRecord ⟨[[119, 119, 119], [65]]⟩ 1]
      [.addRecord hostRecord, .removeRecord ⟨[[87, 87, 87], [97]]⟩ 1] :=
    .cons (.addRecord ⟨by decide +kernel, rfl⟩) (.cons (.removeRecord 1 (by decide +kernel)) .nil)
  have hspelling : OtherSpelling (parse hostQuery Message.blank).2
      (parse mixedQuery Message.blank).2 := by
    have hmixed : (parse mixedQuery Message.blank).2 =
        { (parse hostQuery Message.blank).2 with
          questions := [⟨⟨[[87, 119, 87], [97]]⟩, 1, 1⟩] } := by decide +kernel
    have hhost : (parse hostQuery Message.blank).2 =
        { (parse hostQuery Message.blank).2 with
          questions := [⟨⟨[[119, 119, 119], [65]]⟩, 1, 1⟩] } := by decide +kernel
    rw [hmixed, hhost]
    exact .qname _ 1 1 [] (by decide +kernel)
  obtain ⟨header, offset, answers, hreply⟩ := hcases.2 (zoneOf hostRecord) _ _ _ _ _ _
    hostQuery_accepted mixedQuery_accepted hspelling
  obtain ⟨hstatus, hechoes⟩ := hreply [] []
  have hok : (resolve (zoneOf hostRecord) hostQuery []).1 = .OK := by decide +kernel
  exact ⟨hcases.1 _ _ hcalls 2, hok, hstatus.symm.trans hok, header, offset, answers, hechoes hok⟩

end DnsPro.Resolve
