/-!
# Packet structures

The values that `Parser` fills and `Builder` reads. A byte string (`std::string`,
`std::span<const std::byte>`, `Vector<std::byte>`) is a list of bytes, `VectorPro::Vector` is a
list, a bit-field of width `w` is a `BitVec w`, and a `std::size_t` offset is a natural number.
-/

namespace DnsPro

set_option autoImplicit false

inductive Status where
  | OK
  | BUFFER_TOO_SMALL
  | MALFORMED_NAME
  | COMPRESSION_LOOP
  | COMPRESSION_FORWARD_POINTER
  | SECTION_COUNT_MISMATCH
  | RDATA_LENGTH_MISMATCH
  | LABEL_TOO_LONG
  | SECTION_TOO_LARGE
  deriving DecidableEq, Repr

/-- Raw bytes: an input span or an output vector. -/
abbrev Buffer := List UInt8

namespace Packet

abbrev Label := List UInt8

/-- The 12-byte DNS message header (RFC 1035 S4.1.1). -/
structure Header where
  id : UInt16
  qr : BitVec 1
  opcode : BitVec 4
  aa : BitVec 1
  tc : BitVec 1
  rd : BitVec 1
  ra : BitVec 1
  z : BitVec 3
  rcode : BitVec 4
  qdcount : UInt16
  ancount : UInt16
  nscount : UInt16
  arcount : UInt16
  deriving DecidableEq, Repr

structure Name where
  labels : List Label
  deriving DecidableEq, Repr

structure Question where
  qname : Name
  qtype : UInt16
  qclass : UInt16
  deriving DecidableEq, Repr

/-- A single resource record; `rdataOffset` is where `rdata` began in the parsed buffer. -/
structure ResourceRecord where
  name : Name
  type : UInt16
  rclass : UInt16
  ttl : UInt32
  rdata : List UInt8
  rdataOffset : Nat
  deriving DecidableEq, Repr

structure Message where
  header : Header
  questions : List Question
  answers : List ResourceRecord
  authorities : List ResourceRecord
  additionals : List ResourceRecord
  deriving DecidableEq, Repr

/-- A zeroed header, for the places where the source declares one without initialising it. -/
def Header.blank : Header :=
  ⟨0, 0, 0, 0, 0, 0, 0, 0, 0, 0, 0, 0, 0⟩

/-- A message declared without initialiser: the sections are empty vectors. -/
def Message.blank : Message :=
  ⟨Header.blank, [], [], [], []⟩

/-- Everything of a record but the position its rdata was read from. -/
def ResourceRecord.dropOffset (r : ResourceRecord) : ResourceRecord :=
  { r with rdataOffset := 0 }

def Message.dropOffsets (m : Message) : Message :=
  { m with
    answers := m.answers.map ResourceRecord.dropOffset
    authorities := m.authorities.map ResourceRecord.dropOffset
    additionals := m.additionals.map ResourceRecord.dropOffset }

def Message.records (m : Message) : List ResourceRecord :=
  m.answers ++ m.authorities ++ m.additionals

end Packet

end DnsPro
