import DnsPro.Resolve.ResponseSpec
import DnsPro.Wire.Expansion

/-!
# Responses and the queries they answer

What a response tells about its query, and what it takes to send it. A response may come back as a
query: it is then answered as the query was, by any server, so that the server that sent it sends
it again. It belongs to one question, and it is as long as the records under that question make it.
-/

namespace DnsPro.Resolve

open Packet Container ZoneStore RecordLog DnsPro.Parser DnsPro.Builder DnsPro.Resolver DnsPro.Wire

set_option autoImplicit false

variable {H : Type → Type → Type} [FiniteMap H]

/-! ### Responses as queries -/

section Reflected
variable {q q' : Message}

/-- The counts of a message's header are not looked at. -/
theorem build_congr {m m' : Message} (hheader : countedHeader m = countedHeader m')
    (hquestions : m.questions = m'.questions) (hanswers : m.answers = m'.answers)
    (hauthorities : m.authorities = m'.authorities) (hadditionals : m.additionals = m'.additionals)
    (out : Buffer) : build m out = build m' out := by
  simp only [build, hheader, hquestions, hanswers, hauthorities, hadditionals]

theorem responseHeader_congr (h : SameAsked q q') (rcode : BitVec 4)
    (qdcount ancount nscount arcount : UInt16) :
    { responseHeader q'.header with
      rcode := rcode, qdcount := qdcount, ancount := ancount, nscount := nscount,
      arcount := arcount } =
    { responseHeader q.header with
      rcode := rcode, qdcount := qdcount, ancount := ancount, nscount := nscount,
      arcount := arcount } := by
  obtain ⟨hid, hopcode, htc, hrd, hz, _⟩ := h
  simp only [responseHeader, hid, hopcode, htc, hrd, hz]

theorem build_responseMessage_congr (zone : ZoneStore H) (h : SameAsked q q')
    (response : Buffer) :
    build (responseMessage zone q') response = build (responseMessage zone q) response := by
  have hheader := responseHeader_congr h
  obtain ⟨_, _, _, _, _, hhead⟩ := h
  unfold responseMessage
  cases hq : q.questions with
  | nil =>
    cases hq' : q'.questions with
    | nil =>
      dsimp only
      apply build_congr
      · exact hheader _ _ _ _ _
      all_goals rfl
    | cons question rest =>
      rw [hq, hq'] at hhead
      cases hhead
  | cons question rest =>
    cases hq' : q'.questions with
    | nil =>
      rw [hq, hq'] at hhead
      cases hhead
    | cons question' rest' =>
      rw [hq, hq'] at hhead
      cases hhead
      dsimp only
      split
      · apply build_congr
        · exact hheader _ _ _ _ _
        all_goals rfl
      · apply build_congr
        · exact hheader _ _ _ _ _
        all_goals rfl

/-- A response asks what the query asked. -/
theorem sameAsked_relocate (log : RecordLog) (q : Message) :
    SameAsked q (relocate (replyTo log q)) := by
  refine ⟨rfl, rfl, rfl, rfl, rfl, ?_⟩
  show (q.questions.take 1).head? = q.questions.head?
  cases q.questions with
  | nil => rfl
  | cons question rest => rfl

/-- A response that comes back as a query is answered by every server as the query itself, and by
the server that sent it with the same response again. -/
theorem response_reflected {zone : ZoneStore H} {log : RecordLog} (hzone : Reached zone log)
    {query : Buffer} {out : Message} (hparse : parse query out = (.OK, q)) {response bytes : Buffer}
    (hresolve : resolve zone query response = (.OK, bytes))
    (hnames : ∀ r ∈ answersTo log q, NonemptyLabels r.name) :
    (∀ (other : ZoneStore H) response',
      resolve other bytes response' = resolve other query response') ∧
    ∀ response', resolve zone bytes response' = (.OK, bytes) := by
  have hrep := representable_of_parse hparse
  rw [resolve_of_parse_ok hzone.represents hparse] at hresolve
  obtain ⟨hlimits, hbytes⟩ := build_eq_ok_iff.mp hresolve
  have hreply : Representable (replyTo log q) :=
    representable_replyTo hrep ((withinLimits_replyTo_iff hrep).mp hlimits) hnames
  have hback : parse bytes Message.blank = (.OK, relocate (replyTo log q)) := by
    rw [hbytes]
    exact parse_messageBytes hreply Message.blank
  have hsame : ∀ (other : ZoneStore H) response',
      resolve other bytes response' = resolve other query response' := by
    intro other response'
    rw [resolve_eq_build other hback, resolve_eq_build other hparse]
    exact build_responseMessage_congr other (sameAsked_relocate log q) response'
  refine ⟨hsame, fun response' => ?_⟩
  rw [hsame, resolve_of_parse_ok hzone.represents hparse, hbytes]
  exact build_ok_of_withinLimits hlimits response'

end Reflected

def hostAnswerBytes : Buffer :=
  [0xAB, 0xCD, 0x85, 0, 0, 1, 0, 1, 0, 0, 0, 0, 3, 119, 119, 119, 1, 65, 0, 0, 1, 0, 1,
    3, 87, 87, 87, 1, 97, 0, 0, 1, 0, 1, 0, 0, 1, 44, 0, 4, 192, 0, 2, 1]

theorem resolve_host : resolve (zoneOf hostRecord) hostQuery [] = (.OK, hostAnswerBytes) := by
  decide +kernel

theorem response_reflected_host :
    (∀ response, resolve (construct : ZoneStore AssocMap) hostAnswerBytes response =
      resolve (construct : ZoneStore AssocMap) hostQuery response) ∧
    ∀ response, resolve (zoneOf hostRecord) hostAnswerBytes response =
      (.OK, hostAnswerBytes) := by
  have hnames : ∀ r ∈ answersTo [hostRecord] (parse hostQuery Message.blank).2,
      NonemptyLabels r.name := by
    intro r hr l hl
    exact (servable_hostRecord.labels r (mem_of_mem_answersTo hr) l hl).1
  obtain ⟨hother, hagain⟩ :=
    response_reflected (reached_zoneOf hostRecord) hostQuery_accepted resolve_host hnames
  exact ⟨hother construct, hagain⟩

/-! ### What a response was asked for -/

section Identified
variable {q q' : Message} {log log' : RecordLog}

/-- The first question of a response stands right behind the header. -/
theorem encQuestion_replyTo (log : RecordLog) {question : Question} {rest : List Question}
    (hq : q.questions = question :: rest) (hlabels : GoodLabels question.qname) :
    ∃ e, EncQuestion (messageBytes (replyTo log q)) 12 question e := by
  have hsits : Layout.Sits (messageBytes (replyTo log q)) 12 (questionBytes question) := by
    have htake : (replyTo log q).questions = [question] := by
      show q.questions.take 1 = [question]
      rw [hq]
      rfl
    rw [messageBytes, htake, List.flatMap_singleton]
    simp only [List.append_assoc]
    exact List.prefix_append _ _
  have hinline := inlineQuestion_iff.mpr ⟨hlabels, hsits, rfl⟩
  exact ⟨_, hinline.imp (fun _ _ _ hname => hname.encName) fun _ _ => id⟩

theorem sameAsked_of_messageBytes_eq (hq : Representable q) (hq' : Representable q')
    (h : messageBytes (replyTo log q) = messageBytes (replyTo log' q')) : SameAsked q q' := by
  have hheader := countedHeader_eq_of_messageBytes_eq h.symm
  have same {α : Type} (f : Header → α) :
      f (countedHeader (replyTo log' q')) = f (countedHeader (replyTo log q)) :=
    congrArg f hheader
  refine ⟨same Header.id, same Header.opcode, same Header.tc, same Header.rd, same Header.z, ?_⟩
  have hcount : UInt16.ofNat (q'.questions.take 1).length =
      UInt16.ofNat (q.questions.take 1).length := same Header.qdcount
  cases hquestions : q.questions with
  | nil =>
    cases hquestions' : q'.questions with
    | nil => rfl
    | cons question' rest' =>
      simp [hquestions, hquestions'] at hcount
  | cons question rest =>
    cases hquestions' : q'.questions with
    | nil =>
      simp [hquestions, hquestions'] at hcount
    | cons question' rest' =>
      have hlabels := (forall_names_iff.mp hq.labels).1 question (by simp [hquestions])
      have hlabels' := (forall_names_iff.mp hq'.labels).1 question' (by simp [hquestions'])
      obtain ⟨e, henc⟩ := encQuestion_replyTo log hquestions hlabels
      obtain ⟨e', henc'⟩ := encQuestion_replyTo log' hquestions' hlabels'
      rw [← h] at henc'
      have hread := parseQuestion_eq_ok_iff.mpr henc
      rw [parseQuestion_eq_ok_iff.mpr henc'] at hread
      cases hread
      rfl

theorem servable_nil : Servable [] :=
  ⟨List.forall_mem_nil _, List.forall_mem_nil _, fun _ _ => Nat.zero_le _⟩

section Accepted
variable {query query' : Buffer} {out out' : Message} (hparse : parse query out = (.OK, q))
include hparse

/-- A server without records always has a response to send. -/
theorem resolve_construct (response : Buffer) :
    resolve (construct : ZoneStore H) query response = (.OK, messageBytes (replyTo [] q)) := by
  have hempty : Reached (construct : ZoneStore H) [] := reached_updateAll []
  have hreply := servable_nil.representable (representable_of_parse hparse)
  rw [resolve_of_parse_ok hempty.represents hparse]
  exact build_ok_of_withinLimits (representable_iff.mp hreply).1 response

variable (hparse' : parse query' out' = (.OK, q'))
include hparse'

theorem resolve_of_sameAsked (h : SameAsked q q') (zone : ZoneStore H) (response : Buffer) :
    resolve zone query response = resolve zone query' response := by
  rw [resolve_eq_build zone hparse, resolve_eq_build zone hparse']
  exact (build_responseMessage_congr zone h response).symm

theorem sameAsked_of_response {zone zone' : ZoneStore H} (hzone : Reached zone log)
    (hzone' : Reached zone' log') {response response' bytes : Buffer}
    (hresolve : resolve zone query response = (.OK, bytes))
    (hresolve' : resolve zone' query' response' = (.OK, bytes)) : SameAsked q q' := by
  rw [resolve_of_parse_ok hzone.represents hparse] at hresolve
  rw [resolve_of_parse_ok hzone'.represents hparse'] at hresolve'
  obtain ⟨_, hbytes⟩ := build_eq_ok_iff.mp hresolve
  obtain ⟨_, hbytes'⟩ := build_eq_ok_iff.mp hresolve'
  exact sameAsked_of_messageBytes_eq (representable_of_parse hparse)
    (representable_of_parse hparse') (hbytes.symm.trans hbytes')

end Accepted

/-- A response belongs to one question: two accepted queries get the same response from some two
servers only if they ask the same, and then no server tells them apart. -/
theorem response_identifies_query {query query' : Buffer} {out out' : Message}
    (hparse : parse query out = (.OK, q)) (hparse' : parse query' out' = (.OK, q')) :
    ((∃ (zone zone' : ZoneStore H) (log log' : RecordLog) (response response' bytes : Buffer),
        Reached zone log ∧ Reached zone' log' ∧ resolve zone query response = (.OK, bytes) ∧
          resolve zone' query' response' = (.OK, bytes)) ↔ SameAsked q q') ∧
      ((∀ (zone : ZoneStore H) (response : Buffer),
        resolve zone query response = resolve zone query' response) ↔ SameAsked q q') := by
  have hempty : Reached (construct : ZoneStore H) [] := reached_updateAll []
  have hnone := resolve_construct (H := H) hparse []
  constructor
  · constructor
    · intro ⟨_, _, _, _, _, _, _, hzone, hzone', hresolve, hresolve'⟩
      exact sameAsked_of_response hparse hparse' hzone hzone' hresolve hresolve'
    · intro hsame
      have hnone' := resolve_of_sameAsked hparse hparse' hsame (construct : ZoneStore H) []
      exact ⟨_, _, _, _, _, _, _, hempty, hempty, hnone, hnone'.symm.trans hnone⟩
  · constructor
    · intro halike
      have hnone' := halike construct []
      exact sameAsked_of_response hparse hparse' hempty hempty hnone (hnone'.symm.trans hnone)
    · exact resolve_of_sameAsked hparse hparse'

end Identified

/-- The query for the host with other flags set and with two more bytes at the end. -/
def flaggedHostQuery : Buffer :=
  [0xAB, 0xCD, 0x85, 0x83, 0, 1, 0, 0, 0, 0, 0, 0, 3, 119, 119, 119, 1, 65, 0, 0, 1, 0, 1, 7, 7]

theorem response_identifies_query_host :
    resolve (zoneOf hostRecord) hostQuery [] = resolve (zoneOf hostRecord) flaggedHostQuery [] := by
  have hparse : parse flaggedHostQuery Message.blank =
      (.OK, (parse flaggedHostQuery Message.blank).2) := Prod.ext (by decide +kernel) rfl
  have hsame : SameAsked (parse hostQuery Message.blank).2
      (parse flaggedHostQuery Message.blank).2 := by
    unfold SameAsked
    decide +kernel
  exact (response_identifies_query hostQuery_accepted hparse).2.mpr hsame (zoneOf hostRecord) []

/-! ### How long responses get -/

/-- A response is as long as its question and all the records under it come to, never cut short;
and but for these records it is no longer than 64 queries. -/
theorem response_length {zone : ZoneStore H} {log : RecordLog} (hzone : Reached zone log)
    {query : Buffer} {out q : Message} (hparse : parse query out = (.OK, q))
    {response bytes : Buffer} (hresolve : resolve zone query response = (.OK, bytes)) :
    bytes.length = 12 + ((q.questions.take 1).map fun q => (questionBytes q).length).sum +
        ((answersTo log q).map fun r => (recordBytes r).length).sum ∧
      bytes.length ≤ 64 * query.length +
        ((answersTo log q).map fun r => (recordBytes r).length).sum := by
  rw [resolve_of_parse_ok hzone.represents hparse] at hresolve
  obtain ⟨_, hbytes⟩ := build_eq_ok_iff.mp hresolve
  have hlength : bytes.length =
      12 + ((q.questions.take 1).map fun q => (questionBytes q).length).sum +
        ((answersTo log q).map fun r => (recordBytes r).length).sum := by
    rw [hbytes, length_messageBytes, records_replyTo]
    rfl
  refine ⟨hlength, ?_⟩
  have henc := encodes_of_parse_consumed hparse
  have hsize := henc.header.end_le (by simp [headerBytes, Word.bytes16])
  rw [length_headerBytes] at hsize
  cases hq : q.questions with
  | nil =>
    rw [hq] at hlength
    simp only [List.take_nil, List.map_nil, List.sum_nil] at hlength
    omega
  | cons question rest =>
    obtain ⟨o, hquestions, _⟩ := henc.records
    rw [hq, Layout.chain_cons_iff] at hquestions
    obtain ⟨e, hquestion, _⟩ := hquestions
    have hle := EncQuestion.length_le hquestion
    have hextent := EncQuestion.extent hquestion
    rw [hq] at hlength
    simp only [List.take_succ_cons, List.take_zero, List.map_cons, List.map_nil, List.sum_cons,
      List.sum_nil] at hlength
    omega

theorem response_length_host :
    hostAnswerBytes.length ≤ 64 * hostQuery.length +
      ((answersTo [hostRecord] (parse hostQuery Message.blank).2).map fun r =>
        (recordBytes r).length).sum :=
  (response_length (reached_zoneOf hostRecord) hostQuery_accepted resolve_host).2

end DnsPro.Resolve
