import DnsPro.Resolve.ResponseSpec
import DnsPro.Zone.Separation

/-!
# Which records answer, and when a name does not exist

The store finds records by canonical name and type. Their class takes no part in it, and neither
do names above or below the one that is asked for: a name exists when a record is stored under
it, so an empty non-terminal does not.
-/

namespace DnsPro.Resolve

open Packet Container ZoneStore RecordLog DnsPro.Parser DnsPro.Builder DnsPro.Resolver DnsPro.Wire

set_option autoImplicit false

variable {H : Type → Type → Type} [FiniteMap H]

section Matching

variable {zone : ZoneStore H} {log : RecordLog} {query : Buffer} {out q : Message}
variable {question : Question} {rest : List Question}

theorem mem_answersTo_iff (hq : q.questions = question :: rest) {r : ResourceRecord} :
    r ∈ answersTo log q ↔
      r ∈ log ∧ keyOf r = canonicalize question.qname ∧ r.type = question.qtype := by
  rw [answersTo, hq, mem_recordsOf]

theorem qname_ne_empty_label (hq : Representable q) (hmem : question ∈ q.questions) :
    question.qname.labels ≠ [[]] := by
  intro hempty
  have hlength := (forall_names_iff.mp hq.labels).1 question hmem [] (by simp [hempty])
  exact absurd hlength.1 (by decide)

/-- Every record in an answer section is stored under the canonical name and the type of the
echoed question. It has the name asked for, up to case, unless the names collide, or it is stored
under the single empty label and the root is asked for. -/
theorem answer_matches_question (hzone : Reached zone log) (hparse : parse query out = (.OK, q))
    {r : ResourceRecord} (hr : r ∈ (responseMessage zone q).answers) :
    (∀ response, resolve zone query response = build (responseMessage zone q) response) ∧
    ∃ question rest, q.questions = question :: rest ∧
      (responseMessage zone q).questions = [question] ∧ r ∈ log ∧ r.type = question.qtype ∧
      canonicalize r.name = canonicalize question.qname ∧
      (SameUpToCase r.name question.qname ∨ Collide r.name question.qname ∨
        r.name.labels = [[]] ∧ question.qname.labels = []) := by
  have hrep := hzone.represents
  rw [responseMessage_eq hrep] at hr ⊢
  refine ⟨fun response => resolve_of_parse_ok hrep hparse response, ?_⟩
  have hanswer : r ∈ answersTo log q := hr
  cases hq : q.questions with
  | nil =>
    rw [answersTo, hq] at hanswer
    cases hanswer
  | cons question rest =>
    obtain ⟨hmem, hkey, htype⟩ := (mem_answersTo_iff hq).mp hanswer
    have hechoed : (replyTo log q).questions = [question] := by simp [replyTo, hq]
    have hasked : question ∈ q.questions := by simp [hq]
    have hne := qname_ne_empty_label (representable_of_parse hparse) hasked
    exact ⟨question, rest, rfl, hechoed, hmem, htype, hkey, same_or_collide hkey hne⟩

end Matching

theorem answer_matches_question_host :
    ∃ question rest, (parse hostQuery Message.blank).2.questions = question :: rest ∧
      hostRecord.type = question.qtype ∧ SameUpToCase hostRecord.name question.qname := by
  have hfound : hostRecord ∈
      (responseMessage (zoneOf hostRecord) (parse hostQuery Message.blank).2).answers := by
    decide +kernel
  obtain ⟨_, question, rest, hq, _, _, htype, _, hname⟩ :=
    answer_matches_question (reached_zoneOf hostRecord) hostQuery_accepted hfound
  refine ⟨question, rest, hq, htype, ?_⟩
  rw [hostQuery_questions] at hq
  cases hq
  rcases hname with hsame | hcollide | ⟨hempty, _⟩
  · exact hsame
  · exact absurd hcollide (by decide +kernel)
  · exact absurd hempty (by decide)

/-- Name up to case, type and class are those of the question. -/
def MatchesQuestion (r : ResourceRecord) (question : Question) : Prop :=
  SameUpToCase r.name question.qname ∧ r.type = question.qtype ∧ r.rclass = question.qclass

instance (r : ResourceRecord) (question : Question) : Decidable (MatchesQuestion r question) :=
  inferInstanceAs (Decidable (_ ∧ _ ∧ _))

def chaosRecord : ResourceRecord :=
  { hostRecord with rclass := 3 }

/-- The name `www.a` as one label. -/
def dottedRecord : ResourceRecord :=
  { hostRecord with name := ⟨[[119, 119, 119, 46, 97]]⟩ }

/-- The zone with just this record answers `hostQuery` with it, which does not match. -/
def AnswersUnmatched (record : ResourceRecord) : Prop :=
  Reached (zoneOf record) [record] ∧ (parse hostQuery Message.blank).1 = .OK ∧
    (resolve (zoneOf record) hostQuery []).1 = .OK ∧
    record ∈ (responseMessage (zoneOf record) (parse hostQuery Message.blank).2).answers ∧
    ∃ question ∈ (responseMessage (zoneOf record) (parse hostQuery Message.blank).2).questions,
      ¬ MatchesQuestion record question

theorem mismatched_answers : AnswersUnmatched chaosRecord ∧ AnswersUnmatched dottedRecord :=
  ⟨⟨reached_zoneOf _, by decide +kernel⟩, reached_zoneOf _, by decide +kernel⟩

section Nonexistence

variable {zone : ZoneStore H} {log : RecordLog} {query : Buffer} {out q : Message}
variable {question : Question} {rest : List Question}

/-- `NXDOMAIN` is exactly the answer for a name without records; then in particular no record has
the name up to case. -/
theorem nxdomain_iff (hzone : Reached zone log) (hparse : parse query out = (.OK, q))
    (hq : q.questions = question :: rest) (response : Buffer) :
    ((∃ bytes m, resolve zone query response = (.OK, bytes) ∧
        parse bytes Message.blank = (.OK, m) ∧ m.header.rcode = RCODE_NXDOMAIN) ↔
      ∀ r ∈ log, canonicalize r.name ≠ canonicalize question.qname) ∧
    ((∀ r ∈ log, canonicalize r.name ≠ canonicalize question.qname) →
      ∀ r ∈ log, ¬ SameUpToCase r.name question.qname) := by
  have hrep := hzone.represents
  have hrcode : rcodeFor log q =
      if Holds log question.qname then RCODE_NOERROR else RCODE_NXDOMAIN := by
    rw [rcodeFor, hq]
  refine ⟨⟨?_, ?_⟩, fun h r hr hsame => h r hr hsame.canonicalize_eq⟩
  · intro hdenied r hr hkey
    obtain ⟨bytes, m, hresolve, hback, hcode⟩ := hdenied
    rw [resolve_of_parse_ok hrep hparse] at hresolve
    obtain ⟨_, rfl⟩ := build_eq_ok_iff.mp hresolve
    rw [header_of_parse_messageBytes hback] at hcode
    have hnx : rcodeFor log q = RCODE_NXDOMAIN := hcode
    rw [hrcode, if_pos ⟨r, hr, hkey⟩] at hnx
    exact absurd hnx (by decide)
  · intro hnone
    have hnot : ¬ Holds log question.qname := by
      intro hholds
      obtain ⟨r, hr, hkey⟩ := hholds
      exact hnone r hr hkey
    have hasked : question ∈ q.questions := by simp [hq]
    have hreply : Representable (replyTo log q) := by
      rw [replyTo_of_no_records hq (recordsOf_eq_nil hnot question.qtype)]
      exact representable_unanswered (representable_of_parse hparse) hasked _
    refine ⟨messageBytes (replyTo log q), relocate (replyTo log q), ?_,
      parse_messageBytes hreply Message.blank, ?_⟩
    · rw [resolve_of_parse_ok hrep hparse]
      exact build_ok_of_withinLimits (representable_iff.mp hreply).1 response
    · show rcodeFor log q = RCODE_NXDOMAIN
      rw [hrcode, if_neg hnot]

end Nonexistence

def parentQuery : Buffer :=
  [0xAB, 0xCD, 1, 0, 0, 1, 0, 0, 0, 0, 0, 0, 1, 97, 0, 0, 1, 0, 1]

theorem parentQuery_accepted :
    parse parentQuery Message.blank = (.OK, (parse parentQuery Message.blank).2) :=
  Prod.ext (by decide +kernel) rfl

theorem parentQuery_questions :
    (parse parentQuery Message.blank).2.questions = [⟨⟨[[97]]⟩, 1, 1⟩] := by
  decide +kernel

theorem nxdomain_parentQuery :
    ∃ bytes m, resolve (zoneOf hostRecord) parentQuery [] = (.OK, bytes) ∧
      parse bytes Message.blank = (.OK, m) ∧ m.header.rcode = RCODE_NXDOMAIN := by
  apply (nxdomain_iff (reached_zoneOf hostRecord) parentQuery_accepted parentQuery_questions
    []).1.mpr
  decide +kernel

def HasOwnerAtOrBelow (log : RecordLog) (n : Name) : Prop :=
  ∃ r ∈ log, ∃ k, SameUpToCase ⟨r.name.labels.drop k⟩ n

/-- `a` is denied on a zone that answers for `www.a`. -/
theorem parentQuery_denied :
    Reached (zoneOf hostRecord) [hostRecord] ∧
      (parse parentQuery Message.blank).1 = .OK ∧
      (parse parentQuery Message.blank).2.questions = [⟨⟨[[97]]⟩, 1, 1⟩] ∧
      (resolve (zoneOf hostRecord) parentQuery []).1 = .OK ∧
      (parse (resolve (zoneOf hostRecord) parentQuery []).2 Message.blank).2.header.rcode =
        RCODE_NXDOMAIN ∧
      HasOwnerAtOrBelow [hostRecord] ⟨[[97]]⟩ ∧
      (parse (resolve (zoneOf hostRecord) hostQuery []).2 Message.blank).2.answers ≠ [] := by
  have hbelow : HasOwnerAtOrBelow [hostRecord] ⟨[[97]]⟩ :=
    ⟨hostRecord, List.mem_singleton_self _, 1, by decide +kernel⟩
  refine ⟨reached_zoneOf hostRecord, congrArg Prod.fst parentQuery_accepted,
    parentQuery_questions, ?_, ?_, hbelow, ?_⟩
  · decide +kernel
  · decide +kernel
  · decide +kernel

end DnsPro.Resolve
