import DnsPro.Packet
import DnsPro.Lib.Layout
import DnsPro.Lib.Word

/-!
# The RFC 1035 wire grammar with compression

What it means for a buffer to carry a name, a question, a record or a message at an offset.
Nothing here mentions the parser or the builder; both are compared with this grammar.
-/

namespace DnsPro.Wire

open Packet Layout Word

set_option autoImplicit false

/-- `EncName b o labels o'`: the name `labels` is encoded in `b` at `o` and ends at `o'`. A
pointer `11tttttttttttttt` must lead strictly backward. -/
inductive EncName (b : Buffer) : Nat → List Label → Nat → Prop where
  | root {o : Nat} : Sits b o [0] → EncName b o [] (o + 1)
  | label {o e : Nat} {label : Label} {rest : List Label} :
      1 ≤ label.length → label.length ≤ 63 →
      Sits b o (UInt8.ofNat label.length :: label) →
      EncName b (o + 1 + label.length) rest e → EncName b o (label :: rest) e
  | pointer {o t e : Nat} {labels : List Label} :
      t < 2 ^ 14 → t < o → Sits b o [UInt8.ofNat (192 + t / 2 ^ 8), UInt8.ofNat t] →
      EncName b t labels e → EncName b o labels (o + 2)

/-- A name that is read without following a pointer. -/
inductive InlineName (b : Buffer) : Nat → List Label → Nat → Prop where
  | root {o : Nat} : Sits b o [0] → InlineName b o [] (o + 1)
  | label {o e : Nat} {label : Label} {rest : List Label} :
      1 ≤ label.length → label.length ≤ 63 →
      Sits b o (UInt8.ofNat label.length :: label) →
      InlineName b (o + 1 + label.length) rest e → InlineName b o (label :: rest) e

/-- The fixed fields after the name of a question. -/
def questionFields (q : Question) : List UInt8 :=
  bytes16 q.qtype ++ bytes16 q.qclass

/-- The fixed fields between the name and the rdata of a record. -/
def recordFields (r : ResourceRecord) : List UInt8 :=
  bytes16 r.type ++ bytes16 r.rclass ++ bytes32 r.ttl ++ bytes16 (.ofNat r.rdata.length)

/-- QR(1) OPCODE(4) AA(1) TC(1) RD(1). -/
def flagByte1 (h : Header) : UInt8 :=
  .ofNat (h.qr.toNat * 128 + h.opcode.toNat * 8 + h.aa.toNat * 4 + h.tc.toNat * 2 + h.rd.toNat)

/-- RA(1) Z(3) RCODE(4). -/
def flagByte2 (h : Header) : UInt8 :=
  .ofNat (h.ra.toNat * 128 + h.z.toNat * 16 + h.rcode.toNat)

def headerBytes (h : Header) : List UInt8 :=
  bytes16 h.id ++ [flagByte1 h, flagByte2 h] ++ bytes16 h.qdcount ++ bytes16 h.ancount ++
    bytes16 h.nscount ++ bytes16 h.arcount

@[simp] theorem length_headerBytes (h : Header) : (headerBytes h).length = 12 := rfl

@[simp] theorem length_questionFields (q : Question) : (questionFields q).length = 4 := rfl

@[simp] theorem length_recordFields (r : ResourceRecord) : (recordFields r).length = 10 := rfl

/-- The header counts are the sizes of the sections. -/
structure Counted (m : Message) : Prop where
  questions : m.header.qdcount.toNat = m.questions.length
  answers : m.header.ancount.toNat = m.answers.length
  authorities : m.header.nscount.toNat = m.authorities.length
  additionals : m.header.arcount.toNat = m.additionals.length

section Entries
variable (N : Nat → List Label → Nat → Prop) (b : Buffer)

/-- The question `q` occupies `b` from `o` to `o'`, its name being encoded in the sense of `N`. -/
def QuestionAt (o : Nat) (q : Question) (o' : Nat) : Prop :=
  ∃ f, N o q.qname.labels f ∧ Sits b f (questionFields q) ∧ o' = f + 4

/-- The record `r`, its rdata and `rdataOffset` included, occupies `b` from `o` to `o'`. -/
def RecordAt (o : Nat) (r : ResourceRecord) (o' : Nat) : Prop :=
  ∃ f, N o r.name.labels f ∧ Sits b f (recordFields r) ∧
    r.rdata.length < 2 ^ 16 ∧ r.rdataOffset = f + 10 ∧
    Sits b (f + 10) r.rdata ∧ o' = f + 10 + r.rdata.length

/-- The first `o` bytes of `b` are a header and four contiguous sections that carry `m`. -/
structure MessageAt (m : Message) (o : Nat) : Prop where
  header : Sits b 0 (headerBytes m.header)
  counted : Counted m
  sections : ∃ o₁ o₂ o₃, Chain (QuestionAt N b) 12 m.questions o₁ ∧
    Chain (RecordAt N b) o₁ m.answers o₂ ∧ Chain (RecordAt N b) o₂ m.authorities o₃ ∧
    Chain (RecordAt N b) o₃ m.additionals o

end Entries

abbrev EncQuestion (b : Buffer) : Nat → Question → Nat → Prop := QuestionAt (EncName b) b

abbrev EncRecord (b : Buffer) : Nat → ResourceRecord → Nat → Prop := RecordAt (EncName b) b

/-- `Encodes b m o`: the first `o` bytes of `b` carry `m`, names compressed or not. -/
abbrev Encodes (b : Buffer) : Message → Nat → Prop := MessageAt (EncName b) b

/-! ### Extents -/

section Extents
variable {b : Buffer} {o e : Nat} {ls : List Label}

theorem EncName.lt (h : EncName b o ls e) : o < e := by
  induction h with
  | root => omega
  | label => omega
  | pointer => omega

/-- A name stays where it is in a buffer that keeps the bytes of this one. -/
theorem EncName.mono {b' : Buffer} (hb : ∀ i xs, Sits b i xs → Sits b' i xs)
    (h : EncName b o ls e) : EncName b' o ls e := by
  induction h with
  | root hs => exact .root (hb _ _ hs)
  | label h1 h63 hs _ ih => exact .label h1 h63 (hb _ _ hs) ih
  | pointer ht hback hs _ ih => exact .pointer ht hback (hb _ _ hs) ih

theorem EncName.end_le (h : EncName b o ls e) : e ≤ b.length := by
  induction h with
  | root hs => exact hs.end_le (by simp)
  | label _ _ _ _ ih => exact ih
  | pointer _ _ hs _ => exact hs.end_le (by simp)

theorem EncName.labels_length (h : EncName b o ls e) :
    ∀ l ∈ ls, 1 ≤ l.length ∧ l.length ≤ 63 := by
  induction h with
  | root => simp
  | label h1 h63 _ _ ih =>
    intro l hl
    rcases List.mem_cons.mp hl with rfl | hl
    · exact ⟨h1, h63⟩
    · exact ih l hl
  | pointer _ _ _ _ ih => exact ih

theorem InlineName.encName (h : InlineName b o ls e) : EncName b o ls e := by
  induction h with
  | root hs => exact .root hs
  | label h1 h63 hs _ ih => exact .label h1 h63 hs ih

theorem EncQuestion.extent {q : Question} (h : EncQuestion b o q e) :
    o + 5 ≤ e ∧ e ≤ b.length := by
  obtain ⟨f, hname, hfields, rfl⟩ := h
  have hlt := hname.lt
  have hle := hfields.end_le (by simp [questionFields, bytes16])
  rw [length_questionFields] at hle
  omega

/-- A record spends a byte on its name and ten on the fixed fields, its rdata comes last. -/
theorem EncRecord.extent {r : ResourceRecord} (h : EncRecord b o r e) :
    o + 11 ≤ r.rdataOffset ∧ e = r.rdataOffset + r.rdata.length ∧ e ≤ b.length := by
  obtain ⟨f, hname, hfields, _, hoff, hrdata, rfl⟩ := h
  have hlt := hname.lt
  have hle := hfields.end_le (by simp [recordFields, bytes16])
  rw [length_recordFields] at hle
  have hend := hrdata.end_le_of_le hle
  omega

end Extents

end DnsPro.Wire
