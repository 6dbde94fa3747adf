import DnsPro.Wire.NameLength
import DnsPro.Wire.Trace

/-!
# How much larger a packet gets when it is rebuilt

The builder writes every name out, the parser lets any number of entries point to one name. A
rebuilt packet is at most a byte for each entry smaller than what was parsed. What it grows by is
bounded by the product of the number of entries and the length of the buffer, up to a factor, and
packets that point to one name again and again do grow by such a product.
-/

namespace DnsPro.Wire

open Packet DnsPro.Parser DnsPro.Builder Layout Word

set_option autoImplicit false

/-- Questions and records of all sections together. -/
def entries (m : Message) : Nat := m.questions.length + m.records.length

section Sizes
variable {b : Buffer} {o e : Nat}

theorem length_questionBytes (q : Question) :
    (questionBytes q).length = wireLength q.qname.labels + 4 := by
  rw [questionBytes, List.length_append, length_nameBytes, length_questionFields]

theorem length_recordBytes (r : ResourceRecord) :
    (recordBytes r).length = wireLength r.name.labels + 10 + r.rdata.length := by
  rw [recordBytes, List.length_append, List.length_append, length_nameBytes, length_recordFields]

theorem length_messageBytes (m : Message) :
    (messageBytes m).length = 12 + (m.questions.map fun q => (questionBytes q).length).sum +
      (m.records.map fun r => (recordBytes r).length).sum := by
  simp only [messageBytes, Message.records, List.length_append, length_headerBytes,
    List.length_flatMap, List.map_append, List.sum_append]
  omega

/-- A name takes at most one byte more than it has octets: two bytes point to the root. -/
theorem EncName.end_le_wireLength {ls : List Label} (h : EncName b o ls e) :
    e ≤ o + wireLength ls + 1 := by
  induction h with
  | root =>
    show _ ≤ _ + 1 + 1
    omega
  | label _ _ _ _ ih =>
    rw [wireLength_cons]
    omega
  | pointer =>
    unfold wireLength
    omega

theorem EncQuestion.takes_le {q : Question} (h : EncQuestion b o q e) :
    e ≤ o + (questionBytes q).length + 1 := by
  obtain ⟨f, hname, _, rfl⟩ := h
  have hle := hname.end_le_wireLength
  rw [length_questionBytes]
  omega

theorem EncRecord.takes_le {r : ResourceRecord} (h : EncRecord b o r e) :
    e ≤ o + (recordBytes r).length + 1 := by
  obtain ⟨f, hname, _, _, _, _, rfl⟩ := h
  have hle := hname.end_le_wireLength
  rw [length_recordBytes]
  omega

theorem EncQuestion.length_le {q : Question} (h : EncQuestion b o q e) :
    (questionBytes q).length ≤ 64 * (b.length - 1) + 5 := by
  obtain ⟨f, hname, _⟩ := h
  have hle := hname.wireLength_le
  rw [length_questionBytes]
  omega

theorem EncRecord.length_le {r : ResourceRecord} (h : EncRecord b o r e) :
    (recordBytes r).length ≤ 64 * (b.length - 1) + 11 + r.rdata.length := by
  obtain ⟨f, hname, _⟩ := h
  have hle := hname.wireLength_le
  rw [length_recordBytes]
  omega

end Sizes

/-- What is rebuilt from an accepted packet is at most one byte for each entry smaller than the
bytes it was read from, and larger by at most 64 times the buffer for each entry; an entry takes
at least five of those bytes. -/
theorem rebuilt_length {b : Buffer} {out m : Message} (h : parse b out = (.OK, m))
    (vec : Buffer) :
    consumed b ≤ (build m vec).2.length + entries m ∧
      (build m vec).2.length ≤ consumed b + 64 * (b.length - 1) * entries m ∧
      12 + 5 * entries m ≤ consumed b := by
  have henc := encodes_of_parse_consumed h
  obtain ⟨o, hq, hr⟩ := henc.records
  have hbuild := build_ok_of_withinLimits (representable_iff.mp henc.representable).1 vec
  rw [hbuild, length_messageBytes, entries]
  refine ⟨?_, ?_, ?_⟩
  · have hquestions := hq.le_cost_add 1 (fun q => (questionBytes q).length)
      fun _ _ _ => EncQuestion.takes_le
    have hrecords := hr.le_cost_add 1 (fun r => (recordBytes r).length)
      fun _ _ _ => EncRecord.takes_le
    omega
  · have hquestions := hq.cost_le_add (64 * (b.length - 1)) (fun q => (questionBytes q).length)
      fun _ _ _ h => by
        have hle := EncQuestion.length_le h
        have hextent := EncQuestion.extent h
        omega
    have hrecords := hr.cost_le_add (64 * (b.length - 1)) (fun r => (recordBytes r).length)
      fun _ _ _ h => by
        have hle := EncRecord.length_le h
        have hextent := EncRecord.extent h
        omega
    rw [Nat.mul_add]
    omega
  · have hquestions := hq.cost_le 5 (fun _ => 0) fun _ _ _ h => (EncQuestion.extent h).1
    have hrecords := hr.cost_le 5 (fun _ => 0) fun _ _ _ h => by
      have hextent := EncRecord.extent h
      omega
    omega

theorem rebuilt_length_compressed :
    consumed compressedQuery ≤ (build (parse compressedQuery Message.blank).2 []).2.length +
      entries (parse compressedQuery Message.blank).2 ∧
    (build (parse compressedQuery Message.blank).2 []).2.length ≤ consumed compressedQuery +
      64 * (compressedQuery.length - 1) * entries (parse compressedQuery Message.blank).2 ∧
    12 + 5 * entries (parse compressedQuery Message.blank).2 ≤ consumed compressedQuery :=
  rebuilt_length compressedQuery_accepted []

/-! ### One name, pointed to again and again -/

/-- A question whose name is a pointer to the byte after the header. -/
def echoBytes (q : Question) : List UInt8 := [0xC0, 12] ++ questionFields q

/-- A question, then `n` more that point to its name. -/
def echoes (q : Question) (n : Nat) : Buffer :=
  headerBytes { Message.blank.header with qdcount := UInt16.ofNat (n + 1) } ++ questionBytes q ++
    (List.replicate n (echoBytes q)).flatten

def echoed (q : Question) (n : Nat) : Message :=
  { Message.blank with
    header := { Message.blank.header with qdcount := UInt16.ofNat (n + 1) }
    questions := List.replicate (n + 1) q }

section Echoes
variable {q : Question} {n : Nat}

theorem length_echoes (q : Question) (n : Nat) :
    (echoes q n).length = 16 + wireLength q.qname.labels + 6 * n := by
  have hflat : ((List.replicate n (echoBytes q)).flatten).length = n * 6 := by
    rw [List.length_flatten, List.map_replicate, List.sum_replicate_nat]
    rfl
  rw [echoes, List.length_append, List.length_append, length_headerBytes, length_questionBytes,
    hflat]
  omega

theorem encodes_echoes (hq : GoodLabels q.qname) (hn : n < 65535) :
    Encodes (echoes q n) (echoed q n) (echoes q n).length := by
  have hs : Sits (echoes q n) 0 (echoes q n) := List.prefix_refl _
  nth_rewrite 2 [echoes] at hs
  rw [sits_append_iff, sits_append_iff, List.length_append, length_headerBytes] at hs
  obtain ⟨⟨hheader, hfirst⟩, hechoes⟩ := hs
  have hinline := inlineQuestion_iff.mpr ⟨hq, hfirst, rfl⟩
  have hquestion : EncQuestion (echoes q n) 12 q (12 + (questionBytes q).length) := by
    obtain ⟨f, hname, hfields, hend⟩ := hinline
    exact ⟨f, hname.encName, hfields, hend⟩
  have hname : ∃ f, EncName (echoes q n) 12 q.qname.labels f := by
    obtain ⟨f, hname, _⟩ := hquestion
    exact ⟨f, hname⟩
  obtain ⟨f, hname⟩ := hname
  have hecho : ∀ i, 13 ≤ i → Sits (echoes q n) i (echoBytes q) →
      EncQuestion (echoes q n) i q (i + (echoBytes q).length) := by
    intro i hi hsits
    rw [echoBytes, sits_append_iff] at hsits
    exact ⟨i + 2, .pointer (t := 12) (by omega) (by omega) hsits.1 hname, hsits.2, rfl⟩
  have hpaid : 13 ≤ 0 + (12 + (questionBytes q).length) := by
    rw [length_questionBytes]
    omega
  have hrest := chain_replicate hecho n hpaid hechoes
  have hcount : (UInt16.ofNat (n + 1)).toNat = n + 1 := toNat_ofNat_of_le (by omega)
  refine ⟨hheader, ⟨?_, rfl, rfl, rfl⟩, (echoes q n).length, (echoes q n).length,
    (echoes q n).length, ?_, .nil _, .nil _, .nil _⟩
  · exact hcount.trans List.length_replicate.symm
  · have hend : 0 + (12 + (questionBytes q).length) + n * (echoBytes q).length =
        (echoes q n).length := by
      rw [length_echoes, length_questionBytes]
      show _ + n * 6 = _
      omega
    rw [hend, Nat.zero_add] at hrest
    exact .cons hquestion hrest

/-- Six bytes more in the packet are a whole question more in what is rebuilt. -/
theorem echoes_rebuilt (hq : GoodLabels q.qname) (hn : n < 65535) :
    (echoes q n).length = 16 + wireLength q.qname.labels + 6 * n ∧
      (∀ out, parse (echoes q n) out = (.OK, echoed q n)) ∧
      ∀ vec, (build (echoed q n) vec).2.length =
        12 + (n + 1) * (wireLength q.qname.labels + 4) := by
  have henc := encodes_echoes hq hn
  refine ⟨length_echoes q n, fun out => parse_of_encodes henc out, fun vec => ?_⟩
  rw [build_ok_of_withinLimits (representable_iff.mp henc.representable).1 vec,
    length_messageBytes]
  simp only [echoed, Message.records, Message.blank, List.map_replicate, List.sum_replicate_nat,
    length_questionBytes]
  rfl

end Echoes

/-- A question for a name of a thousand labels of one letter. -/
def letters : Question := ⟨⟨List.replicate 1000 [97]⟩, 1, 1⟩

theorem wireLength_letters : wireLength letters.qname.labels = 2001 := by
  rw [wireLength, letters, List.map_replicate, List.sum_replicate_nat, List.length_replicate]
  rfl

/-- Eight kilobytes become two million. -/
theorem echoes_rebuilt_letters :
    (echoes letters 1000).length = 16 + 2001 + 6 * 1000 ∧
      (∀ out, parse (echoes letters 1000) out = (.OK, echoed letters 1000)) ∧
      ∀ vec, (build (echoed letters 1000) vec).2.length = 12 + (1000 + 1) * (2001 + 4) := by
  have hgood : GoodLabels letters.qname := by
    intro l hl
    rw [List.eq_of_mem_replicate hl]
    exact ⟨Nat.le_refl 1, by decide⟩
  have hrebuilt := echoes_rebuilt (n := 1000) hgood (by omega)
  rwa [wireLength_letters] at hrebuilt

end DnsPro.Wire
