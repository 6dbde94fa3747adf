import DnsPro.Parser
import DnsPro.Builder
import DnsPro.ZoneStore

/-!
# Resolver: query bytes in, response bytes out

`Resolver.cpp`. The response message starts as a copy of the query header with the response flags
set; the store is asked at most twice, for the records of the first question and, when there are
none, for its name. Only the first question is answered.
-/

namespace DnsPro.Resolver

open Packet Container

set_option autoImplicit false

variable {H : Type → Type → Type} [FiniteMap H]

def RCODE_NOERROR : BitVec 4 := 0
def RCODE_FORMERR : BitVec 4 := 1
def RCODE_NXDOMAIN : BitVec 4 := 3

/-- The header of every response, before an error code is set: counts are still the query's. -/
def responseHeader (header : Header) : Header :=
  { header with qr := 1, aa := 1, ra := 0, rcode := RCODE_NOERROR }

def formatError (queryMessage : Message) : Message :=
  { Message.blank with
    header := { responseHeader queryMessage.header with rcode := RCODE_FORMERR } }

def answered (queryMessage : Message) (question : Question) (records : List ResourceRecord) :
    Message :=
  { Message.blank with
    header := responseHeader queryMessage.header
    questions := [question]
    answers := records }

/-- The response with no records of the type, when the name was asked for. -/
def unanswered (queryMessage : Message) (question : Question) (nameExists : Bool) : Message :=
  { Message.blank with
    header := { responseHeader queryMessage.header with
      rcode := if nameExists then RCODE_NOERROR else RCODE_NXDOMAIN }
    questions := [question] }

/-- `responseMessage` as every path hands it to `Builder::build`. -/
def responseMessage (zone : ZoneStore H) (queryMessage : Message) : Message :=
  match queryMessage.questions with
  | [] => formatError queryMessage
  | question :: _ =>
    let records := zone.lookup question.qname question.qtype
    if records ≠ [] then answered queryMessage question records
    else unanswered queryMessage question (zone.hasName question.qname)

/-- Status and the caller's `response` after the call. -/
def resolve (zone : ZoneStore H) (query response : Buffer) : Status × Buffer :=
  match Parser.parse query Message.blank with
  | (.OK, queryMessage) => Builder.build (responseMessage zone queryMessage) response
  | (status, _) => (status, response)

end DnsPro.Resolver
