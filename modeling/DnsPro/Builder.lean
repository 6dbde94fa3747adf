import DnsPro.Packet

/-!
# Builder: structures to bytes

`Builder.cpp`, function by function. A writer takes the output vector and returns it with its
bytes appended; one that can fail returns its status first, with whatever it had appended.
-/

namespace DnsPro.Builder

open Packet

set_option autoImplicit false

/-- `if (Status s = …; s != Status::OK) return s;` in front of the rest of the body. -/
def andThen (written : Status × Buffer) (rest : Buffer → Status × Buffer) : Status × Buffer :=
  match written with
  | (.OK, out) => rest out
  | failed => failed

/-! ### Primitive writers -/

def writeU16 (value : UInt16) (out : Buffer) : Buffer :=
  out ++ [((value >>> 8) &&& 0xFF).toUInt8, (value &&& 0xFF).toUInt8]

def writeU32 (value : UInt32) (out : Buffer) : Buffer :=
  out ++ [((value >>> 24) &&& 0xFF).toUInt8, ((value >>> 16) &&& 0xFF).toUInt8,
    ((value >>> 8) &&& 0xFF).toUInt8, (value &&& 0xFF).toUInt8]

/-! ### Header -/

/-- `(qr << 7) | (opcode << 3) | (aa << 2) | (tc << 1) | rd`. -/
def packFlags1 (header : Header) : UInt8 :=
  .ofBitVec (header.qr.setWidth 8 <<< 7 ||| header.opcode.setWidth 8 <<< 3 |||
    header.aa.setWidth 8 <<< 2 ||| header.tc.setWidth 8 <<< 1 ||| header.rd.setWidth 8)

/-- `(ra << 7) | (z << 4) | rcode`. -/
def packFlags2 (header : Header) : UInt8 :=
  .ofBitVec (header.ra.setWidth 8 <<< 7 ||| header.z.setWidth 8 <<< 4 |||
    header.rcode.setWidth 8)

def writeHeader (header : Header) (out : Buffer) : Buffer :=
  let out := writeU16 header.id out
  let out := out ++ [packFlags1 header, packFlags2 header]
  let out := writeU16 header.qdcount out
  let out := writeU16 header.ancount out
  let out := writeU16 header.nscount out
  writeU16 header.arcount out

/-! ### Name -/

/-- The loop over the labels of a name, and the terminating zero-length label after it. -/
def writeLabels : List Label → Buffer → Status × Buffer
  | [], out => (.OK, out ++ [0])
  | label :: labels, out =>
    if label.length > 63 then (.LABEL_TOO_LONG, out)
    else writeLabels labels (out ++ [UInt8.ofNat label.length] ++ label)

def writeName (name : Name) (out : Buffer) : Status × Buffer :=
  writeLabels name.labels out

/-! ### Question and resource record -/

def writeQuestion (question : Question) (out : Buffer) : Status × Buffer :=
  andThen (writeName question.qname out) fun out =>
    let out := writeU16 question.qtype out
    let out := writeU16 question.qclass out
    (.OK, out)

def writeResourceRecord (record : ResourceRecord) (out : Buffer) : Status × Buffer :=
  andThen (writeName record.name out) fun out =>
    let out := writeU16 record.type out
    let out := writeU16 record.rclass out
    let out := writeU32 record.ttl out
    if record.rdata.length > 0xFFFF then (.RDATA_LENGTH_MISMATCH, out)
    else
      let out := writeU16 (UInt16.ofNat record.rdata.length) out
      (.OK, out ++ record.rdata)

/-! ### Public entry point -/

def writeSection {α : Type} (writeEntry : α → Buffer → Status × Buffer) :
    List α → Buffer → Status × Buffer
  | [], out => (.OK, out)
  | entry :: entries, out =>
    andThen (writeEntry entry out) fun out => writeSection writeEntry entries out

/-- The header that is written: counts come from the section vectors. -/
def countedHeader (message : Message) : Header :=
  { message.header with
    qdcount := UInt16.ofNat message.questions.length
    ancount := UInt16.ofNat message.answers.length
    nscount := UInt16.ofNat message.authorities.length
    arcount := UInt16.ofNat message.additionals.length }

/-- Status and the caller's `out` after the call. -/
def build (message : Message) (out : Buffer) : Status × Buffer :=
  if message.questions.length > 0xFFFF ∨ message.answers.length > 0xFFFF ∨
      message.authorities.length > 0xFFFF ∨ message.additionals.length > 0xFFFF then
    (.SECTION_TOO_LARGE, out)
  else
    let out := writeHeader (countedHeader message) []
    andThen (writeSection writeQuestion message.questions out) fun out =>
      andThen (writeSection writeResourceRecord message.answers out) fun out =>
        andThen (writeSection writeResourceRecord message.authorities out) fun out =>
          writeSection writeResourceRecord message.additionals out

end DnsPro.Builder
