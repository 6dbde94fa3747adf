import DnsPro.Resolver
import DnsPro.Wire.RoundTrip
import DnsPro.Zone.Refinement

/-!
# What `Resolver::resolve` answers

`replyTo` says which message answers a query, in terms of the records the zone holds. The resolver
hands exactly this message to the builder, so that its status and its response follow from what
is known about the parser, the store and the builder.
-/

namespace DnsPro.Resolve

open Packet Container ZoneStore RecordLog DnsPro.Parser DnsPro.Builder DnsPro.Resolver DnsPro.Wire

set_option autoImplicit false

variable {H : Type → Type → Type} [FiniteMap H]

def answersTo (log : RecordLog) (q : Message) : List ResourceRecord :=
  match q.questions with
  | [] => []
  | question :: _ => recordsOf question.qname question.qtype log

/-- The response code: whether there is a question, and whether its name exists. -/
def rcodeFor (log : RecordLog) (q : Message) : BitVec 4 :=
  match q.questions with
  | [] => RCODE_FORMERR
  | question :: _ => if Holds log question.qname then RCODE_NOERROR else RCODE_NXDOMAIN

def replyTo (log : RecordLog) (q : Message) : Message :=
  { header := { responseHeader q.header with rcode := rcodeFor log q }
    questions := q.questions.take 1
    answers := answersTo log q
    authorities := []
    additionals := [] }

section Reply

variable {log : RecordLog} {q : Message}

theorem records_replyTo (log : RecordLog) (q : Message) :
    (replyTo log q).records = answersTo log q := by
  simp [Message.records, replyTo]

theorem mem_of_mem_answersTo {r : ResourceRecord} (h : r ∈ answersTo log q) : r ∈ log := by
  unfold answersTo at h
  cases hq : q.questions with
  | nil =>
    rw [hq] at h
    cases h
  | cons question rest =>
    rw [hq] at h
    exact (mem_recordsOf.mp h).1

/-- The two store calls of the resolver find the answer. -/
theorem responseMessage_eq {zone : ZoneStore H} (h : Represents zone log) (q : Message) :
    responseMessage zone q = replyTo log q := by
  unfold responseMessage replyTo rcodeFor answersTo
  cases q.questions with
  | nil => rfl
  | cons question rest =>
    simp only [h.lookup]
    by_cases hfound : recordsOf question.qname question.qtype log = []
    · simp [hfound, unanswered, h.hasName_eq, Message.blank]
    · have hname : Holds log question.qname := holds_of_recordsOf_ne_nil hfound
      simp [hfound, answered, hname, responseHeader, Message.blank]

theorem replyTo_of_no_records {question : Question} {rest : List Question}
    (hq : q.questions = question :: rest)
    (hnone : recordsOf question.qname question.qtype log = []) :
    replyTo log q = unanswered q question (decide (Holds log question.qname)) := by
  simp [replyTo, answersTo, rcodeFor, hq, hnone, unanswered, Message.blank]

end Reply

section Accepted

variable {query : Buffer} {out q : Message}

theorem parse_blank_of_parse (h : parse query out = (.OK, q)) :
    parse query Message.blank = (.OK, q) :=
  parse_eq_ok_iff.mpr (parse_eq_ok_iff.mp h)

theorem representable_of_parse (h : parse query out = (.OK, q)) : Representable q := by
  obtain ⟨e, henc⟩ := encodes_of_parse h
  exact henc.representable

/-- What the resolver echoes of a query can be written. -/
theorem goodLabels_echoed (h : Representable q) :
    ∀ question ∈ q.questions.take 1, GoodLabels question.qname := by
  intro question hmem
  exact (forall_names_iff.mp h.labels).1 question (List.mem_of_mem_take hmem)

theorem resolve_eq_build (zone : ZoneStore H) (hparse : parse query out = (.OK, q))
    (response : Buffer) :
    resolve zone query response = build (responseMessage zone q) response := by
  rw [resolve, parse_blank_of_parse hparse]

theorem resolve_of_parse_ok {zone : ZoneStore H} {log : RecordLog} (h : Represents zone log)
    (hparse : parse query out = (.OK, q)) (response : Buffer) :
    resolve zone query response = build (replyTo log q) response := by
  rw [resolve_eq_build zone hparse, responseMessage_eq h]

theorem resolve_of_parse_fail (zone : ZoneStore H)
    (hparse : (parse query Message.blank).1 ≠ .OK) (response : Buffer) :
    resolve zone query response = ((parse query Message.blank).1, response) := by
  unfold resolve
  split
  · rename_i heq
    rw [heq] at hparse
    exact absurd rfl hparse
  · rename_i heq
    rw [heq]

end Accepted

/-! ### When the answer can be sent -/

def Deliverable (records : List ResourceRecord) : Prop :=
  records.length ≤ 65535 ∧ ∀ r ∈ records, RecordFits r

/-- Every record can be sent, and so can all records of one name and type together. -/
structure Servable (log : RecordLog) : Prop where
  labels : ∀ r ∈ log, GoodLabels r.name
  rdata : ∀ r ∈ log, r.rdata.length ≤ 65535
  buckets : ∀ name type, (recordsOf name type log).length ≤ 65535

section Sendable

variable {log : RecordLog} {q : Message} {question : Question}

/-- The echoed question was accepted by the parser, so only the records can be in the way. -/
theorem withinLimits_replyTo_iff (hq : Representable q) :
    WithinLimits (replyTo log q) ↔ Deliverable (answersTo log q) := by
  rw [withinLimits_iff, records_replyTo]
  constructor
  · intro ⟨hsections, _, hrecords⟩
    exact ⟨hsections.answers, hrecords⟩
  · intro ⟨hlength, hrecords⟩
    have hquestions : (q.questions.take 1).length ≤ 65535 := by
      rw [List.length_take]
      omega
    refine ⟨⟨hquestions, hlength, Nat.zero_le _, Nat.zero_le _⟩, ?_, hrecords⟩
    intro question hmem l hl
    exact (goodLabels_echoed hq question hmem l hl).2

theorem Servable.deliverable (hlog : Servable log) (q : Message) :
    Deliverable (answersTo log q) := by
  refine ⟨?_, fun r hr => ?_⟩
  · unfold answersTo
    cases q.questions with
    | nil => exact Nat.zero_le _
    | cons question rest => exact hlog.buckets _ _
  · have hmem := mem_of_mem_answersTo hr
    exact ⟨fun l hl => (hlog.labels r hmem l hl).2, hlog.rdata r hmem⟩

theorem representable_replyTo (hq : Representable q) (hfits : Deliverable (answersTo log q))
    (hnames : ∀ r ∈ answersTo log q, NonemptyLabels r.name) : Representable (replyTo log q) := by
  rw [representable_iff, withinLimits_replyTo_iff hq]
  refine ⟨hfits, forall_names_iff.mpr ⟨?_, ?_⟩⟩
  · intro question hmem l hl
    exact (goodLabels_echoed hq question hmem l hl).1
  · rw [records_replyTo]
    exact hnames

theorem representable_unanswered (hq : Representable q) (hmem : question ∈ q.questions)
    (nameExists : Bool) : Representable (unanswered q question nameExists) := by
  refine ⟨⟨by simp [unanswered], Nat.zero_le _, Nat.zero_le _, Nat.zero_le _⟩, ?_, ?_⟩
  · rw [forall_names_iff]
    refine ⟨fun question' hmem' => ?_, fun r hr => by cases hr⟩
    rw [List.mem_singleton.mp hmem']
    exact (forall_names_iff.mp hq.labels).1 question hmem
  · intro r hr
    cases hr

theorem Servable.representable (hlog : Servable log) (hq : Representable q) :
    Representable (replyTo log q) := by
  apply representable_replyTo hq (hlog.deliverable q)
  intro r hr l hl
  exact (hlog.labels r (mem_of_mem_answersTo hr) l hl).1

end Sendable

/-! ### The whole response -/

/-- Same id, opcode, tc, rd and z, and the same first question. -/
def SameAsked (q q' : Message) : Prop :=
  q'.header.id = q.header.id ∧ q'.header.opcode = q.header.opcode ∧
    q'.header.tc = q.header.tc ∧ q'.header.rd = q.header.rd ∧ q'.header.z = q.header.z ∧
    q'.questions.head? = q.questions.head?

/-- The counts of the query's header are overwritten, so the bytes do not depend on them. -/
theorem messageBytes_replyTo_congr (log : RecordLog) {q q' : Message} (h : SameAsked q q') :
    messageBytes (replyTo log q') = messageBytes (replyTo log q) := by
  obtain ⟨hid, hopcode, htc, hrd, hz, hhead⟩ := h
  have htake : q'.questions.take 1 = q.questions.take 1 := by
    rw [List.take_one, List.take_one, hhead]
  have hanswers : answersTo log q' = answersTo log q := by
    unfold answersTo
    cases hq : q.questions <;> cases hq' : q'.questions <;> simp_all
  have hrcode : rcodeFor log q' = rcodeFor log q := by
    unfold rcodeFor
    cases hq : q.questions <;> cases hq' : q'.questions <;> simp_all
  simp only [messageBytes, replyTo, countedHeader, responseHeader, htake, hanswers, hrcode, hid,
    hopcode, htc, hrd, hz]

/-- What a client reads in a response. -/
structure Responds (log : RecordLog) (q m : Message) : Prop where
  id : m.header.id = q.header.id
  opcode : m.header.opcode = q.header.opcode
  tc : m.header.tc = q.header.tc
  rd : m.header.rd = q.header.rd
  z : m.header.z = q.header.z
  qr : m.header.qr = 1
  aa : m.header.aa = 1
  ra : m.header.ra = 0
  authorities : m.authorities = []
  additionals : m.additionals = []
  noQuestion : q.questions = [] →
    m.header.rcode = RCODE_FORMERR ∧ m.questions = [] ∧ m.answers = []
  firstQuestion : ∀ question rest, q.questions = question :: rest →
    m.questions = [question] ∧
    m.answers.map ResourceRecord.dropOffset =
      (recordsOf question.qname question.qtype log).map ResourceRecord.dropOffset ∧
    (m.header.rcode = RCODE_NXDOMAIN ↔ ¬ Holds log question.qname) ∧
    (Holds log question.qname → m.header.rcode = RCODE_NOERROR)

theorem responds_relocate (log : RecordLog) (q : Message) :
    Responds log q (relocate (replyTo log q)) := by
  refine ⟨rfl, rfl, rfl, rfl, rfl, rfl, rfl, rfl, rfl, rfl, fun hq => ?_,
    fun question rest hq => ?_⟩
  · have hanswers : answersTo log q = [] := by rw [answersTo, hq]
    refine ⟨?_, ?_, ?_⟩
    · show rcodeFor log q = RCODE_FORMERR
      rw [rcodeFor, hq]
    · show q.questions.take 1 = []
      rw [hq]
      rfl
    · show place _ (answersTo log q) = []
      rw [hanswers]
      rfl
  · have hrcode : (relocate (replyTo log q)).header.rcode =
        if Holds log question.qname then RCODE_NOERROR else RCODE_NXDOMAIN := by
      show rcodeFor log q = _
      rw [rcodeFor, hq]
    refine ⟨?_, ?_, ?_, ?_⟩
    · show q.questions.take 1 = [question]
      rw [hq]
      rfl
    · have hanswers : answersTo log q = recordsOf question.qname question.qtype log := by
        rw [answersTo, hq]
      rw [← hanswers]
      exact congrArg Message.answers (relocate_dropOffsets (replyTo log q))
    · rw [hrcode]
      by_cases hname : Holds log question.qname
      · simp [hname, RCODE_NOERROR, RCODE_NXDOMAIN]
      · simp [hname]
    · intro hname
      rw [hrcode, if_pos hname]

/-- On a zone that can be served, every accepted query gets its response, which parses back to
what was asked for and depends on nothing else in the query. -/
theorem resolve_responds {zone : ZoneStore H} {log : RecordLog} (hzone : Reached zone log)
    (hlog : Servable log) {query : Buffer} {out q : Message} (hparse : parse query out = (.OK, q)) :
    ∃ bytes m, (∀ response, resolve zone query response = (.OK, bytes)) ∧
      (∀ out, parse bytes out = (.OK, m)) ∧ Responds log q m ∧
      ∀ query' out' q', parse query' out' = (.OK, q') → SameAsked q q' →
        ∀ response, resolve zone query' response = (.OK, bytes) := by
  have hrep := hzone.represents
  have hreply := hlog.representable (representable_of_parse hparse)
  refine ⟨messageBytes (replyTo log q), relocate (replyTo log q), fun response => ?_,
    parse_messageBytes hreply, responds_relocate log q, ?_⟩
  · rw [resolve_of_parse_ok hrep hparse]
    exact build_ok_of_withinLimits (representable_iff.mp hreply).1 response
  · intro query' out' q' hparse' hsame response
    have hreply' := hlog.representable (representable_of_parse hparse')
    rw [resolve_of_parse_ok hrep hparse', ← messageBytes_replyTo_congr log hsame]
    exact build_ok_of_withinLimits (representable_iff.mp hreply').1 response

def hostRecord : ResourceRecord :=
  ⟨⟨[[87, 87, 87], [97]]⟩, 1, 1, 300, [192, 0, 2, 1], 0⟩

/-- A query for the address of `www.A`. -/
def hostQuery : Buffer :=
  [0xAB, 0xCD, 1, 0, 0, 1, 0, 0, 0, 0, 0, 0, 3, 119, 119, 119, 1, 65, 0, 0, 1, 0, 1]

def zoneOf (record : ResourceRecord) : ZoneStore AssocMap :=
  updateAll [.addRecord record] construct

theorem reached_zoneOf (record : ResourceRecord) : Reached (zoneOf record) [record] :=
  reached_updateAll [.addRecord record]

theorem hostQuery_accepted :
    parse hostQuery Message.blank = (.OK, (parse hostQuery Message.blank).2) :=
  Prod.ext (by decide +kernel) rfl

theorem hostQuery_questions :
    (parse hostQuery Message.blank).2.questions = [⟨⟨[[119, 119, 119], [65]]⟩, 1, 1⟩] := by
  decide +kernel

theorem servable_hostRecord : Servable [hostRecord] := by
  refine ⟨?_, ?_, fun name type => (length_recordsOf_le name type _).trans (by decide)⟩
  · simp [GoodLabels, hostRecord]
  · simp [hostRecord]

theorem resolve_responds_host :
    ∃ q bytes m, parse hostQuery Message.blank = (.OK, q) ∧
      (∀ response, resolve (zoneOf hostRecord) hostQuery response = (.OK, bytes)) ∧
      (∀ out, parse bytes out = (.OK, m)) ∧ Responds [hostRecord] q m := by
  obtain ⟨bytes, m, hresolve, hback, hresponds, _⟩ :=
    resolve_responds (reached_zoneOf hostRecord) servable_hostRecord hostQuery_accepted
  exact ⟨_, bytes, m, hostQuery_accepted, hresolve, hback, hresponds⟩

/-! ### Whose failure a status reports -/

/-- A status other than `OK` is the parser's, with the response untouched. -/
def StatusContract (zone : ZoneStore H) (query response : Buffer) : Prop :=
  (resolve zone query response).1 = (parse query Message.blank).1 ∧
    ((parse query Message.blank).1 ≠ .OK → (resolve zone query response).2 = response)

/-- The contract is kept exactly when the query is rejected or its answer can be sent. -/
theorem statusContract_iff {zone : ZoneStore H} {log : RecordLog} (hzone : Reached zone log)
    (query response : Buffer) :
    StatusContract zone query response ↔
      ∀ q, parse query Message.blank = (.OK, q) → Deliverable (answersTo log q) := by
  unfold StatusContract
  by_cases hok : (parse query Message.blank).1 = .OK
  · have hparse : parse query Message.blank = (.OK, (parse query Message.blank).2) :=
      Prod.ext hok rfl
    rw [resolve_of_parse_ok hzone.represents hparse, hok, build_status_ok_iff,
      withinLimits_replyTo_iff (representable_of_parse hparse)]
    constructor
    · intro ⟨hdeliver, _⟩ q hq
      rw [hq] at hdeliver
      exact hdeliver
    · intro h
      exact ⟨h _ hparse, fun hne => absurd rfl hne⟩
  · rw [resolve_of_parse_fail zone hok]
    refine ⟨fun _ q hq => ?_, fun _ => ⟨rfl, fun _ => rfl⟩⟩
    rw [hq] at hok
    exact absurd rfl hok

theorem statusContract_host : StatusContract (zoneOf hostRecord) hostQuery [] :=
  (statusContract_iff (reached_zoneOf hostRecord) hostQuery []).mpr
    fun q _ => servable_hostRecord.deliverable q

/-- An address record of `www.a` with one byte of rdata too many. -/
def bulkyRecord : ResourceRecord :=
  ⟨⟨[[119, 119, 119], [97]]⟩, 1, 1, 300, List.replicate 65536 0, 0⟩

/-- The store takes a record that the builder refuses; a flawless query then fails. -/
theorem bulkyRecord_breaks_contract :
    (parse hostQuery Message.blank).1 = .OK ∧
      Reached (zoneOf bulkyRecord) [bulkyRecord] ∧
      ¬ StatusContract (zoneOf bulkyRecord) hostQuery [] := by
  have hok : (parse hostQuery Message.blank).1 = .OK := congrArg Prod.fst hostQuery_accepted
  have hreached := reached_zoneOf bulkyRecord
  refine ⟨hok, hreached, fun hcontract => ?_⟩
  have hstatus := hcontract.1
  rw [resolve_of_parse_ok hreached.represents hostQuery_accepted, hok, build_status_ok_iff,
    withinLimits_replyTo_iff (representable_of_parse hostQuery_accepted)] at hstatus
  have hfound : bulkyRecord ∈ answersTo [bulkyRecord] (parse hostQuery Message.blank).2 := by
    rw [answersTo, hostQuery_questions, mem_recordsOf]
    exact ⟨by simp, by decide +kernel, rfl⟩
  have hfits := (hstatus.2 bulkyRecord hfound).2
  have hlength : bulkyRecord.rdata.length = 65536 := List.length_replicate
  omega

end DnsPro.Resolve
