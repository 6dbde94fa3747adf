import DnsPro.Packet

/-!
# Parser: bytes to structures

`Parser.cpp`, function by function. `parse` and `parseName` are public and hand back their
status together with everything they leave in the caller's variables, also on failure. The
private functions write only into locals of `parse`, which are dropped on failure, so they
return either an error status or a value and the advanced offset.

Offsets are unbounded here; every read stands behind the bounds check the source makes.
-/

namespace DnsPro.Parser

open Packet

set_option autoImplicit false

/-- `buffer[i]`. -/
def byteAt (buffer : Buffer) (i : Nat) : UInt8 := buffer.getD i 0

/-- The `len` bytes from `buffer.data() + start` on. -/
def bytesFrom (buffer : Buffer) (start len : Nat) : List UInt8 :=
  (List.range len).map fun i => byteAt buffer (start + i)

/-! ### Primitive readers -/

def readU16 (buffer : Buffer) (offset : Nat) : Except Status (UInt16 × Nat) :=
  if offset + 2 > buffer.length then .error .BUFFER_TOO_SMALL
  else
    .ok ((byteAt buffer offset).toUInt16 <<< 8 ||| (byteAt buffer (offset + 1)).toUInt16,
      offset + 2)

def readU32 (buffer : Buffer) (offset : Nat) : Except Status (UInt32 × Nat) :=
  if offset + 4 > buffer.length then .error .BUFFER_TOO_SMALL
  else
    .ok ((byteAt buffer offset).toUInt32 <<< 24 |||
      (byteAt buffer (offset + 1)).toUInt32 <<< 16 |||
      (byteAt buffer (offset + 2)).toUInt32 <<< 8 |||
      (byteAt buffer (offset + 3)).toUInt32, offset + 4)

/-! ### Header -/

def readFlags (buffer : Buffer) (offset : Nat) : Except Status ((UInt8 × UInt8) × Nat) :=
  if offset + 2 > buffer.length then .error .BUFFER_TOO_SMALL
  else .ok ((byteAt buffer offset, byteAt buffer (offset + 1)), offset + 2)

/-- The assignments to `out`, made once every read went through. The flag bytes are
QR(1) OPCODE(4) AA(1) TC(1) RD(1) and RA(1) Z(3) RCODE(4), most significant bit first. -/
def assignHeader (id : UInt16) (flags1 flags2 : UInt8)
    (qdcount ancount nscount arcount : UInt16) : Header where
  id := id
  qr := ((flags1 >>> 7) &&& 0x1).toBitVec.setWidth 1
  opcode := ((flags1 >>> 3) &&& 0xF).toBitVec.setWidth 4
  aa := ((flags1 >>> 2) &&& 0x1).toBitVec.setWidth 1
  tc := ((flags1 >>> 1) &&& 0x1).toBitVec.setWidth 1
  rd := (flags1 &&& 0x1).toBitVec.setWidth 1
  ra := ((flags2 >>> 7) &&& 0x1).toBitVec.setWidth 1
  z := ((flags2 >>> 4) &&& 0x7).toBitVec.setWidth 3
  rcode := (flags2 &&& 0xF).toBitVec.setWidth 4
  qdcount := qdcount
  ancount := ancount
  nscount := nscount
  arcount := arcount

def parseHeader (buffer : Buffer) (offset : Nat) : Except Status (Header × Nat) := do
  let (id, offset) ← readU16 buffer offset
  let ((flags1, flags2), offset) ← readFlags buffer offset
  let (qdcount, offset) ← readU16 buffer offset
  let (ancount, offset) ← readU16 buffer offset
  let (nscount, offset) ← readU16 buffer offset
  let (arcount, offset) ← readU16 buffer offset
  return (assignHeader id flags1 flags2 qdcount ancount nscount arcount, offset)

/-! ### Names: labels and compression pointers -/

/-- What the body of the name loop does at a cursor: fail, follow a compression pointer, end
the name, or take a label. -/
inductive Turn where
  | fail (status : Status)
  | pointer (target : Nat)
  | terminator
  | label (bytes : Label)
  deriving DecidableEq, Repr

/-- The loop body of `parseName` after the step counter was charged, checks in source order. -/
def readTurn (buffer : Buffer) (cursor : Nat) : Turn :=
  if cursor ≥ buffer.length then .fail .BUFFER_TOO_SMALL
  else
    let lengthByte := byteAt buffer cursor
    if lengthByte &&& 0xC0 = 0xC0 then
      if cursor + 2 > buffer.length then .fail .BUFFER_TOO_SMALL
      else
        let lowByte := byteAt buffer (cursor + 1)
        let target := ((lengthByte &&& 0x3F).toNat <<< 8) ||| lowByte.toNat
        if target ≥ cursor then .fail .COMPRESSION_FORWARD_POINTER
        else .pointer target
    else if lengthByte = 0 then .terminator
    else if lengthByte &&& 0xC0 ≠ 0x00 then .fail .MALFORMED_NAME
    else
      let labelStart := cursor + 1
      let labelLen := lengthByte.toNat
      if labelStart + labelLen > buffer.length then .fail .BUFFER_TOO_SMALL
      else .label (bytesFrom buffer labelStart labelLen)

/-- The locals of `parseName` that the loop changes, and the labels pushed into `out`. -/
structure Walk where
  cursor : Nat
  jumped : Bool
  resumeOffset : Nat
  labels : List Label
  deriving DecidableEq, Repr

/-- Follow a pointer; only the first one decides where the caller resumes. -/
def Walk.jump (w : Walk) (target : Nat) : Walk :=
  { w with
    cursor := target
    jumped := true
    resumeOffset := if w.jumped then w.resumeOffset else w.cursor + 2 }

def Walk.push (w : Walk) (bytes : Label) : Walk :=
  { w with cursor := w.cursor + 1 + bytes.length, labels := w.labels ++ [bytes] }

def Walk.finish (w : Walk) : Walk :=
  { w with cursor := w.cursor + 1 }

/-- The value `offset` is given when the loop ends well. -/
def Walk.endOffset (w : Walk) : Nat :=
  if w.jumped then w.resumeOffset else w.cursor

def Walk.start (offset : Nat) : Walk :=
  ⟨offset, false, 0, []⟩

/-- The `while (true)` loop; the first argument is `stepsRemaining`. -/
def parseNameLoop (buffer : Buffer) : Nat → Walk → Status × Walk
  | 0, w => (.COMPRESSION_LOOP, w)
  | stepsRemaining + 1, w =>
    match readTurn buffer w.cursor with
    | .fail status => (status, w)
    | .pointer target => parseNameLoop buffer stepsRemaining (w.jump target)
    | .terminator => (.OK, w.finish)
    | .label bytes => parseNameLoop buffer stepsRemaining (w.push bytes)

/-- Status, the caller's `offset` and `out` after the call. -/
def parseName (buffer : Buffer) (offset : Nat) (out : Name) : Status × Nat × Name :=
  match parseNameLoop buffer (buffer.length + 1) (Walk.start offset) with
  | (.OK, w) => (.OK, w.endOffset, { out with labels := w.labels })
  | (status, w) => (status, offset, { out with labels := w.labels })

/-- `parseName` as its callers in this file use it. -/
def readName (buffer : Buffer) (offset : Nat) : Except Status (Name × Nat) :=
  match parseName buffer offset ⟨[]⟩ with
  | (.OK, offset, name) => .ok (name, offset)
  | (status, _, _) => .error status

/-! ### Question and resource record -/

def parseQuestion (buffer : Buffer) (offset : Nat) : Except Status (Question × Nat) := do
  let (qname, offset) ← readName buffer offset
  let (qtype, offset) ← readU16 buffer offset
  let (qclass, offset) ← readU16 buffer offset
  return (⟨qname, qtype, qclass⟩, offset)

def parseResourceRecord (buffer : Buffer) (offset : Nat) :
    Except Status (ResourceRecord × Nat) := do
  let (name, offset) ← readName buffer offset
  let (type, offset) ← readU16 buffer offset
  let (rclass, offset) ← readU16 buffer offset
  let (ttl, offset) ← readU32 buffer offset
  let (rdlength, offset) ← readU16 buffer offset
  if offset + rdlength.toNat > buffer.length then
    throw .RDATA_LENGTH_MISMATCH
  else
    return (⟨name, type, rclass, ttl, bytesFrom buffer offset rdlength.toNat, offset⟩,
      offset + rdlength.toNat)

/-! ### Public entry point -/

/-- One section loop of `parse`: `count` times parse an entry and push it back to the section. -/
def parseSection {α : Type} (parseEntry : Nat → Except Status (α × Nat)) :
    Nat → Nat → List α → Status × Nat × List α
  | 0, offset, out => (.OK, offset, out)
  | count + 1, offset, out =>
    match parseEntry offset with
    | .error status => (status, offset, out)
    | .ok (entry, offset) => parseSection parseEntry count offset (out ++ [entry])

/-- Status and the caller's `out` after the call. -/
def parse (buffer : Buffer) (out : Message) : Status × Message :=
  match parseHeader buffer 0 with
  | .error status => (status, out)
  | .ok (header, offset) =>
    let out := { out with header := header }
    let (status, offset, questions) :=
      parseSection (parseQuestion buffer) header.qdcount.toNat offset []
    let out := { out with questions := questions }
    if status ≠ .OK then (status, out) else
    let (status, offset, answers) :=
      parseSection (parseResourceRecord buffer) header.ancount.toNat offset []
    let out := { out with answers := answers }
    if status ≠ .OK then (status, out) else
    let (status, offset, authorities) :=
      parseSection (parseResourceRecord buffer) header.nscount.toNat offset []
    let out := { out with authorities := authorities }
    if status ≠ .OK then (status, out) else
    let (status, _, additionals) :=
      parseSection (parseResourceRecord buffer) header.arcount.toNat offset []
    let out := { out with additionals := additionals }
    (status, out)

end DnsPro.Parser
