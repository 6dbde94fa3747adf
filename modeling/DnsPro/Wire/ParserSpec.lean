import DnsPro.Wire.NameSpec

/-!
# `Parser::parse` against the grammar

`parse` returns `OK` with a message exactly where the buffer begins with an encoding of it.
-/

namespace DnsPro.Wire

open Packet DnsPro.Parser Layout Word

set_option autoImplicit false

section Entries
variable {b : Buffer} {o e : Nat}

theorem parseQuestion_eq_ok_iff {q : Question} :
    parseQuestion b o = .ok (q, e) ↔ EncQuestion b o q e := by
  simp only [parseQuestion, bind_eq_ok_iff, Prod.exists, readName_eq_ok_iff, readU16_eq_ok_iff,
    QuestionAt, questionFields, sits_append_iff]
  constructor
  · rintro ⟨name, f, hname, qtype, _, ⟨htype, rfl⟩, qclass, _, ⟨hclass, rfl⟩, heq⟩
    cases heq
    exact ⟨f, hname, ⟨htype, hclass⟩, rfl⟩
  · rintro ⟨f, hname, ⟨htype, hclass⟩, rfl⟩
    exact ⟨q.qname, f, hname, q.qtype, _, ⟨htype, rfl⟩, q.qclass, _, ⟨hclass, rfl⟩, rfl⟩

theorem toNat_ofNat_length {xs : List UInt8} (h : xs.length < 2 ^ 16) :
    (UInt16.ofNat xs.length).toNat = xs.length := by
  rw [UInt16.toNat_ofNat']
  exact Nat.mod_eq_of_lt h

theorem parseResourceRecord_eq_ok_iff {r : ResourceRecord} :
    parseResourceRecord b o = .ok (r, e) ↔ EncRecord b o r e := by
  simp only [parseResourceRecord, bind_eq_ok_iff, Prod.exists, readName_eq_ok_iff,
    readU16_eq_ok_iff, readU32_eq_ok_iff, RecordAt, recordFields, sits_append_iff]
  constructor
  · rintro ⟨name, f, hname, type, _, ⟨htype, rfl⟩, rclass, _, ⟨hclass, rfl⟩, ttl, _, ⟨httl, rfl⟩,
      rdlength, _, ⟨hlen, rfl⟩, heq⟩
    split at heq
    · cases heq
    · rename_i hin
      cases heq
      have hle : f + 2 + 2 + 4 + 2 + rdlength.toNat ≤ b.length := by omega
      refine ⟨f, hname, ⟨⟨⟨htype, hclass⟩, httl⟩, ?_⟩, ?_, rfl, sits_bytesFrom hle, ?_⟩
      · simpa using hlen
      · simpa using rdlength.toNat_lt
      · simp
  · rintro ⟨f, hname, ⟨⟨⟨htype, hclass⟩, httl⟩, hlen⟩, hlt, hoff, hrdata, rfl⟩
    refine ⟨r.name, f, hname, r.type, _, ⟨htype, rfl⟩, r.rclass, _, ⟨hclass, rfl⟩, r.ttl, _,
      ⟨httl, rfl⟩, .ofNat r.rdata.length, _, ⟨hlen, rfl⟩, ?_⟩
    have hle : f + 10 + r.rdata.length ≤ b.length := by
      have := hlen.end_le (by simp [bytes16])
      exact hrdata.end_le_of_le (by simpa using this)
    rw [toNat_ofNat_length hlt, if_neg (by omega), bytesFrom_eq_take (by omega),
      sits_iff_take.mp hrdata, ← hoff]
    rfl

/-! ### Failures carry a failure status -/

theorem bind_ne_error_ok {α β : Type} {x : Except Status α} {f : α → Except Status β}
    (hx : x ≠ .error .OK) (hf : ∀ a, f a ≠ .error .OK) : (x >>= f) ≠ .error .OK := by
  cases x with
  | error s => simpa [bind, Except.bind] using hx
  | ok a => exact hf a

theorem guarded_ne_error_ok {α : Type} {p : Prop} [Decidable p] {s : Status} {x : α}
    (hs : s ≠ .OK) : (if p then .error s else .ok x : Except Status α) ≠ .error .OK := by
  split
  · simpa using hs
  · simp

theorem readU16_ne_error_ok : readU16 b o ≠ .error .OK := guarded_ne_error_ok (by decide)

theorem readU32_ne_error_ok : readU32 b o ≠ .error .OK := guarded_ne_error_ok (by decide)

theorem readFlags_ne_error_ok : readFlags b o ≠ .error .OK := guarded_ne_error_ok (by decide)

theorem readName_ne_error_ok : readName b o ≠ .error .OK := by
  unfold readName
  split
  · simp
  · rename_i hne _
    simpa using hne

theorem parseHeader_ne_error_ok : parseHeader b o ≠ .error .OK :=
  bind_ne_error_ok readU16_ne_error_ok fun _ => bind_ne_error_ok readFlags_ne_error_ok fun _ =>
    bind_ne_error_ok readU16_ne_error_ok fun _ => bind_ne_error_ok readU16_ne_error_ok fun _ =>
      bind_ne_error_ok readU16_ne_error_ok fun _ => bind_ne_error_ok readU16_ne_error_ok fun _ =>
        nofun

theorem parseQuestion_ne_error_ok : parseQuestion b o ≠ .error .OK :=
  bind_ne_error_ok readName_ne_error_ok fun _ => bind_ne_error_ok readU16_ne_error_ok fun _ =>
    bind_ne_error_ok readU16_ne_error_ok fun _ => nofun

theorem parseResourceRecord_ne_error_ok : parseResourceRecord b o ≠ .error .OK :=
  bind_ne_error_ok readName_ne_error_ok fun _ => bind_ne_error_ok readU16_ne_error_ok fun _ =>
    bind_ne_error_ok readU16_ne_error_ok fun _ => bind_ne_error_ok readU32_ne_error_ok fun _ =>
      bind_ne_error_ok readU16_ne_error_ok fun _ => guarded_ne_error_ok (by decide)

end Entries

/-! ### Sections -/

section Sections
variable {α : Type} {parseEntry : Nat → Except Status (α × Nat)} {E : Nat → α → Nat → Prop}

/-- A section loop succeeds exactly on `n` contiguous entries, which it appends to `out`. -/
theorem parseSection_eq_ok_iff (hE : ∀ i a j, parseEntry i = .ok (a, j) ↔ E i a j)
    (hfail : ∀ i, parseEntry i ≠ .error .OK) {n o e : Nat} {out out' : List α} :
    parseSection parseEntry n o out = (.OK, e, out') ↔
      ∃ as, as.length = n ∧ Chain E o as e ∧ out' = out ++ as := by
  induction n generalizing o out with
  | zero =>
    constructor
    · intro h
      cases h
      exact ⟨[], rfl, .nil _, by simp⟩
    · rintro ⟨as, hlen, hchain, rfl⟩
      obtain rfl := List.length_eq_zero_iff.mp hlen
      obtain rfl := chain_nil_iff.mp hchain
      simp [parseSection]
  | succ n ih =>
    unfold parseSection
    split
    · rename_i s hs
      constructor
      · intro h
        cases h
        exact absurd hs (hfail _)
      · intro ⟨as, hlen, hchain, _⟩
        cases hchain with
        | nil => simp at hlen
        | cons ha _ =>
          rw [(hE _ _ _).mpr ha] at hs
          cases hs
    · rename_i a o' hok
      rw [ih]
      constructor
      · rintro ⟨as, rfl, hchain, rfl⟩
        exact ⟨a :: as, rfl, .cons ((hE _ _ _).mp hok) hchain, by simp⟩
      · rintro ⟨as, hlen, hchain, rfl⟩
        cases hchain with
        | nil => simp at hlen
        | cons ha hrest =>
          rw [(hE _ _ _).mpr ha] at hok
          cases hok
          exact ⟨_, by simpa using hlen, hrest, by simp⟩

end Sections

/-! ### The whole packet -/

section Parse
variable {b : Buffer}

theorem parseQuestions_eq_ok_iff {n o e : Nat} {qs : List Question} :
    parseSection (parseQuestion b) n o [] = (.OK, e, qs) ↔
      qs.length = n ∧ Chain (EncQuestion b) o qs e := by
  rw [parseSection_eq_ok_iff (fun _ _ _ => parseQuestion_eq_ok_iff)
    fun _ => parseQuestion_ne_error_ok]
  simp

theorem parseRecords_eq_ok_iff {n o e : Nat} {rs : List ResourceRecord} :
    parseSection (parseResourceRecord b) n o [] = (.OK, e, rs) ↔
      rs.length = n ∧ Chain (EncRecord b) o rs e := by
  rw [parseSection_eq_ok_iff (fun _ _ _ => parseResourceRecord_eq_ok_iff)
    fun _ => parseResourceRecord_ne_error_ok]
  simp

theorem encodes_of_parse {out m : Message} (h : parse b out = (.OK, m)) : ∃ e, Encodes b m e := by
  unfold parse at h
  split at h
  · rename_i s hs
    cases h
    exact absurd hs parseHeader_ne_error_ok
  · rename_i header o hheader
    obtain ⟨hsits, rfl⟩ := parseHeader_eq_ok_iff.mp hheader
    rcases hqs : parseSection (parseQuestion b) header.qdcount.toNat (0 + 12) [] with ⟨s, o₁, qs⟩
    simp only [hqs] at h
    split at h
    · cases h; contradiction
    rename_i hok; obtain rfl := not_not.mp hok
    rcases han : parseSection (parseResourceRecord b) header.ancount.toNat o₁ [] with ⟨s, o₂, an⟩
    simp only [han] at h
    split at h
    · cases h; contradiction
    rename_i hok; obtain rfl := not_not.mp hok
    rcases hns : parseSection (parseResourceRecord b) header.nscount.toNat o₂ [] with ⟨s, o₃, ns⟩
    simp only [hns] at h
    split at h
    · cases h; contradiction
    rename_i hok; obtain rfl := not_not.mp hok
    rcases har : parseSection (parseResourceRecord b) header.arcount.toNat o₃ [] with ⟨s, o₄, ar⟩
    simp only [har] at h
    cases h
    obtain ⟨hqlen, hqchain⟩ := parseQuestions_eq_ok_iff.mp hqs
    obtain ⟨halen, hachain⟩ := parseRecords_eq_ok_iff.mp han
    obtain ⟨hnlen, hnchain⟩ := parseRecords_eq_ok_iff.mp hns
    obtain ⟨hrlen, hrchain⟩ := parseRecords_eq_ok_iff.mp har
    exact ⟨o₄, hsits, ⟨hqlen.symm, halen.symm, hnlen.symm, hrlen.symm⟩,
      o₁, o₂, o₃, hqchain, hachain, hnchain, hrchain⟩

theorem parse_of_encodes {m : Message} {e : Nat} (h : Encodes b m e) (out : Message) :
    parse b out = (.OK, m) := by
  obtain ⟨hsits, hcount, o₁, o₂, o₃, hq, ha, hn, hr⟩ := h
  have hheader : parseHeader b 0 = .ok (m.header, 12) := parseHeader_eq_ok_iff.mpr ⟨hsits, rfl⟩
  have hqs := parseQuestions_eq_ok_iff.mpr ⟨hcount.questions.symm, hq⟩
  have han := parseRecords_eq_ok_iff.mpr ⟨hcount.answers.symm, ha⟩
  have hns := parseRecords_eq_ok_iff.mpr ⟨hcount.authorities.symm, hn⟩
  have har := parseRecords_eq_ok_iff.mpr ⟨hcount.additionals.symm, hr⟩
  unfold parse
  rw [hheader]
  simp only [hqs, han, hns, har, ne_eq, not_true_eq_false, if_false]

theorem parse_eq_ok_iff {out m : Message} : parse b out = (.OK, m) ↔ ∃ e, Encodes b m e :=
  ⟨encodes_of_parse, fun ⟨_, h⟩ => parse_of_encodes h out⟩

end Parse

end DnsPro.Wire
