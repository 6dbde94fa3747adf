import DnsPro.Parser
import Mathlib.Algebra.GroupWithZero.Nat

/-!
# Parser on a 64-bit machine

The functions of `Parser.cpp` once more, with `std::size_t` as a 64-bit word and every access
checked. Reading an element or copying a range outside the buffer is a fault, and so is a sum that
does not fit into a word; the source has no such checks, so a fault stands for undefined behaviour
or for a comparison with a wrapped value. A status is an ordinary result.
-/

namespace DnsPro.Machine

open Packet DnsPro.Parser

set_option autoImplicit false

inductive Fault where
  | outOfRange
  | wrapped
  deriving DecidableEq, Repr

abbrev Checked := Except Fault

/-- A computation that may return early with a status. -/
abbrev Run := ExceptT Status Checked

abbrev Size := UInt64

/-- `buffer.size()`. -/
def size (buffer : Buffer) : Size := UInt64.ofNat buffer.length

/-- `buffer[i]`. -/
def read (buffer : Buffer) (i : Size) : Checked UInt8 :=
  if i.toNat < buffer.length then .ok (byteAt buffer i.toNat) else .error .outOfRange

/-- The range of `len` bytes from `buffer.data() + start` on. -/
def copy (buffer : Buffer) (start len : Size) : Checked (List UInt8) :=
  if start.toNat + len.toNat ≤ buffer.length then .ok (bytesFrom buffer start.toNat len.toNat)
  else .error .outOfRange

/-- `x + y`. -/
def sum (x y : Size) : Checked Size :=
  if x.toNat + y.toNat < 2 ^ 64 then .ok (x + y) else .error .wrapped

/-! ### Primitive readers -/

def readU16 (buffer : Buffer) (offset : Size) : Run (UInt16 × Size) := do
  let next ← sum offset 2
  if next > size buffer then throw .BUFFER_TOO_SMALL
  else
    let byte0 ← read buffer offset
    let byte1 ← read buffer (← sum offset 1)
    return (byte0.toUInt16 <<< 8 ||| byte1.toUInt16, next)

def readU32 (buffer : Buffer) (offset : Size) : Run (UInt32 × Size) := do
  let next ← sum offset 4
  if next > size buffer then throw .BUFFER_TOO_SMALL
  else
    let byte0 ← read buffer offset
    let byte1 ← read buffer (← sum offset 1)
    let byte2 ← read buffer (← sum offset 2)
    let byte3 ← read buffer (← sum offset 3)
    return (byte0.toUInt32 <<< 24 ||| byte1.toUInt32 <<< 16 ||| byte2.toUInt32 <<< 8 |||
      byte3.toUInt32, next)

/-! ### Header -/

def readFlags (buffer : Buffer) (offset : Size) : Run ((UInt8 × UInt8) × Size) := do
  let next ← sum offset 2
  if next > size buffer then throw .BUFFER_TOO_SMALL
  else
    let flags1 ← read buffer offset
    let flags2 ← read buffer (← sum offset 1)
    return ((flags1, flags2), next)

def parseHeader (buffer : Buffer) (offset : Size) : Run (Header × Size) := do
  let (id, offset) ← readU16 buffer offset
  let ((flags1, flags2), offset) ← readFlags buffer offset
  let (qdcount, offset) ← readU16 buffer offset
  let (ancount, offset) ← readU16 buffer offset
  let (nscount, offset) ← readU16 buffer offset
  let (arcount, offset) ← readU16 buffer offset
  return (assignHeader id flags1 flags2 qdcount ancount nscount arcount, offset)

/-! ### Names: labels and compression pointers -/

inductive Turn where
  | fail (status : Status)
  | pointer (target : Size)
  | terminator
  | label (bytes : Label)

def readTurn (buffer : Buffer) (cursor : Size) : Checked Turn :=
  if cursor ≥ size buffer then return .fail .BUFFER_TOO_SMALL
  else do
    let lengthByte ← read buffer cursor
    if lengthByte &&& 0xC0 = 0xC0 then
      let next ← sum cursor 2
      if next > size buffer then return .fail .BUFFER_TOO_SMALL
      else
        let lowByte ← read buffer (← sum cursor 1)
        let target : Size := (lengthByte &&& 0x3F).toUInt64 <<< 8 ||| lowByte.toUInt64
        if target ≥ cursor then return .fail .COMPRESSION_FORWARD_POINTER
        else return .pointer target
    else if lengthByte = 0 then return .terminator
    else if lengthByte &&& 0xC0 ≠ 0x00 then return .fail .MALFORMED_NAME
    else
      let labelStart ← sum cursor 1
      let labelLen : Size := lengthByte.toUInt64
      let next ← sum labelStart labelLen
      if next > size buffer then return .fail .BUFFER_TOO_SMALL
      else return .label (← copy buffer labelStart labelLen)

structure Walk where
  cursor : Size
  jumped : Bool
  resumeOffset : Size
  labels : List Label

def Walk.jump (w : Walk) (target : Size) : Checked Walk := do
  let resumeOffset ← if w.jumped then pure w.resumeOffset else sum w.cursor 2
  return { w with cursor := target, jumped := true, resumeOffset := resumeOffset }

def Walk.push (w : Walk) (bytes : Label) : Checked Walk := do
  let labelStart ← sum w.cursor 1
  let next ← sum labelStart (UInt64.ofNat bytes.length)
  return { w with cursor := next, labels := w.labels ++ [bytes] }

def Walk.finish (w : Walk) : Checked Walk := do
  let next ← sum w.cursor 1
  return { w with cursor := next }

/-- The first argument is the value of `stepsRemaining`, which is counted down and tested only. -/
def parseNameLoop (buffer : Buffer) : Nat → Walk → Checked (Status × Walk)
  | 0, w => return (.COMPRESSION_LOOP, w)
  | stepsRemaining + 1, w => do
    match ← readTurn buffer w.cursor with
    | .fail status => return (status, w)
    | .pointer target => parseNameLoop buffer stepsRemaining (← w.jump target)
    | .terminator => return (.OK, ← w.finish)
    | .label bytes => parseNameLoop buffer stepsRemaining (← w.push bytes)

def parseName (buffer : Buffer) (offset : Size) (out : Name) : Checked (Status × Size × Name) := do
  let stepsRemaining ← sum (size buffer) 1
  match ← parseNameLoop buffer stepsRemaining.toNat ⟨offset, false, 0, []⟩ with
  | (.OK, w) =>
    return (.OK, if w.jumped then w.resumeOffset else w.cursor, { out with labels := w.labels })
  | (status, w) => return (status, offset, { out with labels := w.labels })

def readName (buffer : Buffer) (offset : Size) : Run (Name × Size) := do
  match ← parseName buffer offset ⟨[]⟩ with
  | (.OK, offset, name) => return (name, offset)
  | (status, _, _) => throw status

/-! ### Question and resource record -/

def parseQuestion (buffer : Buffer) (offset : Size) : Run (Question × Size) := do
  let (qname, offset) ← readName buffer offset
  let (qtype, offset) ← readU16 buffer offset
  let (qclass, offset) ← readU16 buffer offset
  return (⟨qname, qtype, qclass⟩, offset)

/-- The loop that pushes `buffer[offset + i]` back for `i` from 0 to `rdlength - 1`. -/
def readRdata (buffer : Buffer) (offset : Size) (rdlength : UInt16) : Checked (List UInt8) :=
  (List.range rdlength.toNat).mapM fun i => do
    read buffer (← sum offset (UInt64.ofNat i))

def parseResourceRecord (buffer : Buffer) (offset : Size) : Run (ResourceRecord × Size) := do
  let (name, offset) ← readName buffer offset
  let (type, offset) ← readU16 buffer offset
  let (rclass, offset) ← readU16 buffer offset
  let (ttl, offset) ← readU32 buffer offset
  let (rdlength, offset) ← readU16 buffer offset
  let next ← sum offset rdlength.toUInt64
  if next > size buffer then throw .RDATA_LENGTH_MISMATCH
  else
    let rdata ← readRdata buffer offset rdlength
    return (⟨name, type, rclass, ttl, rdata, offset.toNat⟩, next)

/-! ### Public entry point -/

def parseSection {α : Type} (parseEntry : Size → Run (α × Size)) :
    Nat → Size → List α → Checked (Status × Size × List α)
  | 0, offset, out => return (.OK, offset, out)
  | count + 1, offset, out => do
    match ← (parseEntry offset).run with
    | .error status => return (status, offset, out)
    | .ok (entry, offset) => parseSection parseEntry count offset (out ++ [entry])

def parse (buffer : Buffer) (out : Message) : Checked (Status × Message) := do
  match ← (parseHeader buffer 0).run with
  | .error status => return (status, out)
  | .ok (header, offset) =>
    let out := { out with header := header }
    let (status, offset, questions) ←
      parseSection (parseQuestion buffer) header.qdcount.toNat offset []
    let out := { out with questions := questions }
    if status ≠ .OK then return (status, out) else
    let (status, offset, answers) ←
      parseSection (parseResourceRecord buffer) header.ancount.toNat offset []
    let out := { out with answers := answers }
    if status ≠ .OK then return (status, out) else
    let (status, offset, authorities) ←
      parseSection (parseResourceRecord buffer) header.nscount.toNat offset []
    let out := { out with authorities := authorities }
    if status ≠ .OK then return (status, out) else
    let (status, _, additionals) ←
      parseSection (parseResourceRecord buffer) header.arcount.toNat offset []
    let out := { out with additionals := additionals }
    return (status, out)

end DnsPro.Machine
