import DnsPro.Wire.Truncation
import Mathlib.Data.Nat.Find
import Mathlib.Logic.Relation

/-!
# Packets that are not accepted

What `parse` reports about a packet outside the grammar, and what it leaves in the caller's
message: the first fault that a reader of the packet comes upon, and everything in front of it.
Only two of the statuses depend on where the packet ends. Every other verdict is final: whatever
follows the bytes it was reached on, it stays the same.
-/

namespace DnsPro.Wire

open Packet DnsPro.Parser Layout Word Relation

set_option autoImplicit false

/-! ### Faults -/

/-- What is wrong at a cursor. -/
inductive Fault (b : Buffer) (c : Nat) : Status → Prop where
  | noByte : b.length ≤ c → Fault b c .BUFFER_TOO_SMALL
  | halfPointer {x : UInt8} : Sits b c [x] → 192 ≤ x.toNat → b.length < c + 2 →
      Fault b c .BUFFER_TOO_SMALL
  | forward {t : Nat} : t < 2 ^ 14 → c ≤ t →
      Sits b c [UInt8.ofNat (192 + t / 2 ^ 8), UInt8.ofNat t] →
      Fault b c .COMPRESSION_FORWARD_POINTER
  | reserved {x : UInt8} : Sits b c [x] → 64 ≤ x.toNat → x.toNat < 192 →
      Fault b c .MALFORMED_NAME
  | halfLabel {x : UInt8} : Sits b c [x] → 1 ≤ x.toNat → x.toNat < 64 →
      b.length < c + 1 + x.toNat → Fault b c .BUFFER_TOO_SMALL

/-- A label or a backward pointer leads from one cursor to the next. -/
inductive Leads (b : Buffer) : Nat → Nat → Prop where
  | label {c : Nat} {label : Label} : 1 ≤ label.length → label.length ≤ 63 →
      Sits b c (UInt8.ofNat label.length :: label) → Leads b c (c + 1 + label.length)
  | pointer {c t : Nat} : t < 2 ^ 14 → t < c →
      Sits b c [UInt8.ofNat (192 + t / 2 ^ 8), UInt8.ofNat t] → Leads b c t

/-- The name at an offset leads to a fault, or comes back to a cursor. -/
inductive NameFails (b : Buffer) (o : Nat) : Status → Prop where
  | fault {c : Nat} {s : Status} : ReflTransGen (Leads b) o c → Fault b c s → NameFails b o s
  | loop {c : Nat} : ReflTransGen (Leads b) o c → TransGen (Leads b) c c →
      NameFails b o .COMPRESSION_LOOP

inductive QuestionFails (b : Buffer) (o : Nat) : Status → Prop where
  | name {s : Status} : NameFails b o s → QuestionFails b o s
  | fields {labels : List Label} {f : Nat} : EncName b o labels f → b.length < f + 4 →
      QuestionFails b o .BUFFER_TOO_SMALL

inductive RecordFails (b : Buffer) (o : Nat) : Status → Prop where
  | name {s : Status} : NameFails b o s → RecordFails b o s
  | fields {labels : List Label} {f : Nat} : EncName b o labels f → b.length < f + 10 →
      RecordFails b o .BUFFER_TOO_SMALL
  | rdata {labels : List Label} {f : Nat} {rdlength : UInt16} : EncName b o labels f →
      Sits b (f + 8) (bytes16 rdlength) → b.length < f + 10 + rdlength.toNat →
      RecordFails b o .RDATA_LENGTH_MISMATCH

/-- The verdict on a packet, and the caller's message after it: sections in front of the fault are
complete, the one that has it holds the entries in front of it, later ones are as they were. -/
inductive Rejects (b : Buffer) (out : Message) : Status → Message → Prop where
  | header : b.length < 12 → Rejects b out .BUFFER_TOO_SMALL out
  | questions {h : Header} {qs : List Question} {e : Nat} {s : Status} :
      Sits b 0 (headerBytes h) → Chain (EncQuestion b) 12 qs e → qs.length < h.qdcount.toNat →
      QuestionFails b e s →
      Rejects b out s ⟨h, qs, out.answers, out.authorities, out.additionals⟩
  | answers {h : Header} {qs : List Question} {an : List ResourceRecord} {o e : Nat} {s : Status} :
      Sits b 0 (headerBytes h) → Chain (EncQuestion b) 12 qs o → qs.length = h.qdcount.toNat →
      Chain (EncRecord b) o an e → an.length < h.ancount.toNat → RecordFails b e s →
      Rejects b out s ⟨h, qs, an, out.authorities, out.additionals⟩
  | authorities {h : Header} {qs : List Question} {an ns : List ResourceRecord} {o₁ o₂ e : Nat}
      {s : Status} :
      Sits b 0 (headerBytes h) → Chain (EncQuestion b) 12 qs o₁ → qs.length = h.qdcount.toNat →
      Chain (EncRecord b) o₁ an o₂ → an.length = h.ancount.toNat →
      Chain (EncRecord b) o₂ ns e → ns.length < h.nscount.toNat → RecordFails b e s →
      Rejects b out s ⟨h, qs, an, ns, out.additionals⟩
  | additionals {h : Header} {qs : List Question} {an ns ar : List ResourceRecord}
      {o₁ o₂ o₃ e : Nat} {s : Status} :
      Sits b 0 (headerBytes h) → Chain (EncQuestion b) 12 qs o₁ → qs.length = h.qdcount.toNat →
      Chain (EncRecord b) o₁ an o₂ → an.length = h.ancount.toNat →
      Chain (EncRecord b) o₂ ns o₃ → ns.length = h.nscount.toNat →
      Chain (EncRecord b) o₃ ar e → ar.length < h.arcount.toNat → RecordFails b e s →
      Rejects b out s ⟨h, qs, an, ns, ar⟩

/-- The statuses that a rejected packet may be reported with. -/
def failures : List Status :=
  [.BUFFER_TOO_SMALL, .MALFORMED_NAME, .COMPRESSION_LOOP, .COMPRESSION_FORWARD_POINTER,
    .RDATA_LENGTH_MISMATCH]

/-! ### The name loop -/

section Names
variable {b : Buffer} {c c' o : Nat} {s : Status}

theorem readTurn_eq_fail_iff : readTurn b c = .fail s ↔ Fault b c s := by
  have hhi := (byteAt b c).toNat_lt
  have hlo := (byteAt b (c + 1)).toNat_lt
  have here (hin : c < b.length) : Sits b c [byteAt b c] :=
    sits_singleton_iff_byteAt.mpr ⟨hin, rfl⟩
  constructor
  · intro h
    rw [readTurn_eq] at h
    split_ifs at h with hout hpointer hhalf hforward hzero hreserved hlabel
    · cases h
      exact .noByte hout
    · cases h
      exact .halfPointer (here (by omega)) hpointer hhalf
    · cases h
      refine .forward (t := (byteAt b c).toNat % 64 * 256 + (byteAt b (c + 1)).toNat) (by omega)
        hforward (sits_pair_iff_byteAt.mpr ⟨by omega, ?_, ?_⟩)
      · rw [← UInt8.toNat_inj, UInt8.toNat_ofNat']
        omega
      · rw [← UInt8.toNat_inj, UInt8.toNat_ofNat']
        omega
    · cases h
      exact .reserved (here (by omega)) hreserved (by omega)
    · cases h
      exact .halfLabel (here (by omega)) (by omega) (by omega) hlabel
  · intro h
    cases h with
    | noByte hout => rw [readTurn_eq, if_pos hout]
    | halfPointer hs hpointer hhalf =>
      obtain ⟨hin, hbyte⟩ := sits_singleton_iff_byteAt.mp hs
      rw [← hbyte] at hpointer
      rw [readTurn_eq, if_neg (by omega), if_pos hpointer, if_pos hhalf]
    | forward ht hforward hs =>
      obtain ⟨hin, hbyte, hbyte'⟩ := sits_pair_iff_byteAt.mp hs
      rw [← UInt8.toNat_inj, UInt8.toNat_ofNat'] at hbyte hbyte'
      rw [readTurn_eq, if_neg (by omega), if_pos (by omega), if_neg (by omega),
        if_pos (by omega)]
    | reserved hs hlow hhigh =>
      obtain ⟨hin, hbyte⟩ := sits_singleton_iff_byteAt.mp hs
      rw [← hbyte] at hlow hhigh
      rw [readTurn_eq, if_neg (by omega), if_neg (by omega), if_neg (by omega), if_pos hlow]
    | halfLabel hs hlow hhigh hhalf =>
      obtain ⟨hin, hbyte⟩ := sits_singleton_iff_byteAt.mp hs
      rw [← hbyte] at hlow hhigh hhalf
      rw [readTurn_eq, if_neg (by omega), if_neg (by omega), if_neg (by omega), if_neg (by omega),
        if_pos hhalf]

theorem nextCursor_eq_some_iff : nextCursor b c = some c' ↔ Leads b c c' := by
  constructor
  · intro h
    cases hturn : readTurn b c with
    | fail s =>
      rw [nextCursor_fail hturn] at h
      cases h
    | terminator =>
      rw [nextCursor_terminator hturn] at h
      cases h
    | pointer t =>
      rw [nextCursor_pointer hturn] at h
      cases h
      obtain ⟨ht, hback, hs⟩ := readTurn_eq_pointer_iff.mp hturn
      exact .pointer ht hback hs
    | label l =>
      rw [nextCursor_label hturn] at h
      cases h
      obtain ⟨h1, h63, hs⟩ := readTurn_eq_label_iff.mp hturn
      exact .label h1 h63 hs
  · intro h
    cases h with
    | label h1 h63 hs => exact nextCursor_label (readTurn_eq_label_iff.mpr ⟨h1, h63, hs⟩)
    | pointer ht hback hs =>
      exact nextCursor_pointer (readTurn_eq_pointer_iff.mpr ⟨ht, hback, hs⟩)

theorem leads_eq : Leads b = fun c c' => nextCursor b c = some c' := by
  funext c c'
  exact propext nextCursor_eq_some_iff.symm

/-- Every fault that the name leads to ends the walk with its status. -/
theorem ends_of_fault (hfault : Fault b c s) {w : Walk}
    (hpath : ReflTransGen (Leads b) w.cursor c) : ∃ w', Ends b w s w' := by
  generalize ho : w.cursor = o at hpath
  induction hpath using ReflTransGen.head_induction_on generalizing w with
  | refl =>
    rw [← ho] at hfault
    exact ⟨w, .fail (readTurn_eq_fail_iff.mpr hfault)⟩
  | head hstep _ ih =>
    subst ho
    cases hstep with
    | label h1 h63 hs =>
      obtain ⟨w', hends⟩ := ih (w := w.push _) rfl
      exact ⟨w', .label (readTurn_eq_label_iff.mpr ⟨h1, h63, hs⟩) hends⟩
    | pointer ht hback hs =>
      obtain ⟨w', hends⟩ := ih (w := w.jump _) rfl
      exact ⟨w', .pointer (readTurn_eq_pointer_iff.mpr ⟨ht, hback, hs⟩) hends⟩

theorem Ends.fault {w w' : Walk} (h : Ends b w s w') (hs : s ≠ .OK) :
    ∃ c, ReflTransGen (Leads b) w.cursor c ∧ Fault b c s := by
  induction h with
  | fail hturn => exact ⟨_, .refl, readTurn_eq_fail_iff.mp hturn⟩
  | terminator => exact absurd rfl hs
  | @pointer w w' s t hturn _ ih =>
    obtain ⟨c, hpath, hfault⟩ := ih hs
    exact ⟨c, .head (nextCursor_eq_some_iff.mp (nextCursor_pointer hturn)) hpath, hfault⟩
  | @label w w' s l hturn _ ih =>
    obtain ⟨c, hpath, hfault⟩ := ih hs
    exact ⟨c, .head (nextCursor_eq_some_iff.mp (nextCursor_label hturn)) hpath, hfault⟩

theorem revisits_iff_loops : Orbit.Revisits (nextCursor b) o ↔
    ∃ c, ReflTransGen (Leads b) o c ∧ TransGen (Leads b) c c := by
  rw [Orbit.revisits_iff_cycle, leads_eq]

theorem never_ends_iff : (∀ status w, ¬ Ends b (Walk.start o) status w) ↔
    ∃ c, ReflTransGen (Leads b) o c ∧ TransGen (Leads b) c c := by
  rw [← revisits_iff_loops, ← Orbit.not_stops_iff_revisits (Finset.range b.length)
    fun i j hij => Finset.mem_range.mpr (lt_length_of_nextCursor hij)]
  have hstops := exists_ends_iff (b := b) (w := Walk.start o)
  constructor
  · intro hnever hstop
    obtain ⟨s, w, hends⟩ := hstops.mpr hstop
    exact hnever s w hends
  · intro hnot s w hends
    exact hnot hends.stops

theorem parseName_status_iff (hs : s ≠ .OK) (out : Name) :
    (parseName b o out).1 = s ↔ NameFails b o s := by
  constructor
  · intro h
    by_cases hloop : s = .COMPRESSION_LOOP
    · rw [hloop] at h ⊢
      obtain ⟨c, hpath, hcycle⟩ := never_ends_iff.mp ((parseName_status_loop_iff out).mp h)
      exact .loop hpath hcycle
    · have hends : ∃ status w, Ends b (Walk.start o) status w := by
        by_contra hnever
        apply hloop
        rw [← h]
        exact (parseName_status_loop_iff out).mpr fun status w hends => hnever ⟨status, w, hends⟩
      obtain ⟨status, w, hends⟩ := hends
      rw [parseName_of_ends hends out] at h
      obtain rfl : status = s := h
      obtain ⟨c, hpath, hfault⟩ := hends.fault hs
      exact .fault hpath hfault
  · intro h
    cases h with
    | fault hpath hfault =>
      obtain ⟨w, hends⟩ := ends_of_fault hfault (w := Walk.start o) hpath
      rw [parseName_of_ends hends out]
    | loop hpath hcycle =>
      exact (parseName_status_loop_iff out).mpr (never_ends_iff.mpr ⟨_, hpath, hcycle⟩)

theorem readName_eq_error_iff : readName b o = .error s ↔ NameFails b o s := by
  have hnotOK : ¬ NameFails b o .OK := by
    intro h
    cases h with
    | fault _ hfault => cases hfault
  by_cases hs : s = .OK
  · rw [hs]
    exact iff_of_false readName_ne_error_ok hnotOK
  · rw [← parseName_status_iff hs ⟨[]⟩]
    unfold readName
    split
    · rename_i hok
      rw [hok]
      exact iff_of_false nofun (Ne.symm hs)
    · rename_i hparse
      rw [hparse]
      simp

end Names

/-! ### Entries -/

theorem bind_eq_error_iff {α β : Type} {x : Except Status α} {f : α → Except Status β}
    {s : Status} : (x >>= f) = .error s ↔ x = .error s ∨ ∃ a, x = .ok a ∧ f a = .error s := by
  cases x <;> simp [bind, Except.bind]

theorem guarded_eq_error_iff {α : Type} {p : Prop} [Decidable p] {status s : Status} {v : α} :
    (if p then .error status else .ok v : Except Status α) = .error s ↔ p ∧ s = status := by
  split
  · rename_i hp
    simp [hp, eq_comm]
  · rename_i hp
    simp [hp]

section Entries
variable {b : Buffer} {o e : Nat} {s : Status}

theorem readU16_eq_error_iff :
    readU16 b o = .error s ↔ b.length < o + 2 ∧ s = .BUFFER_TOO_SMALL := guarded_eq_error_iff

theorem readU32_eq_error_iff :
    readU32 b o = .error s ↔ b.length < o + 4 ∧ s = .BUFFER_TOO_SMALL := guarded_eq_error_iff

theorem readFlags_eq_error_iff :
    readFlags b o = .error s ↔ b.length < o + 2 ∧ s = .BUFFER_TOO_SMALL := guarded_eq_error_iff

theorem parseHeader_fails (h : parseHeader b 0 = .error s) :
    b.length < 12 ∧ s = .BUFFER_TOO_SMALL := by
  simp only [parseHeader, bind_eq_error_iff, Prod.exists, readU16_eq_error_iff,
    readFlags_eq_error_iff, readU16_eq_ok_iff, readFlags_eq_ok_iff] at h
  rcases h with ⟨hshort, hs⟩ | ⟨_, _, ⟨_, rfl⟩, h⟩
  · exact ⟨by omega, hs⟩
  rcases h with ⟨hshort, hs⟩ | ⟨_, _, _, ⟨_, rfl⟩, h⟩
  · exact ⟨by omega, hs⟩
  rcases h with ⟨hshort, hs⟩ | ⟨_, _, ⟨_, rfl⟩, h⟩
  · exact ⟨by omega, hs⟩
  rcases h with ⟨hshort, hs⟩ | ⟨_, _, ⟨_, rfl⟩, h⟩
  · exact ⟨by omega, hs⟩
  rcases h with ⟨hshort, hs⟩ | ⟨_, _, ⟨_, rfl⟩, h⟩
  · exact ⟨by omega, hs⟩
  rcases h with ⟨hshort, hs⟩ | ⟨_, _, _, h⟩
  · exact ⟨by omega, hs⟩
  · cases h

theorem parseHeader_eq_error_iff :
    parseHeader b 0 = .error s ↔ b.length < 12 ∧ s = .BUFFER_TOO_SMALL := by
  refine ⟨parseHeader_fails, fun ⟨hshort, hs⟩ => ?_⟩
  cases hread : parseHeader b 0 with
  | ok result =>
    obtain ⟨header, e⟩ := result
    have hle := (parseHeader_eq_ok_iff.mp hread).1.end_le (by simp [headerBytes, bytes16])
    rw [length_headerBytes] at hle
    omega
  | error status => rw [(parseHeader_fails hread).2, hs]

theorem NameFails.not_encName (h : NameFails b o s) {ls : List Label} : ¬ EncName b o ls e := by
  intro hname
  have hok : readName b o = .ok (⟨ls⟩, e) := readName_eq_ok_iff.mpr hname
  rw [readName_eq_error_iff.mpr h] at hok
  cases hok

theorem NameFails.unique {s' : Status} (h : NameFails b o s) (h' : NameFails b o s') : s = s' := by
  have herror := readName_eq_error_iff.mpr h
  rw [readName_eq_error_iff.mpr h'] at herror
  cases herror
  rfl

theorem QuestionFails.unique {s' : Status} (h : QuestionFails b o s) (h' : QuestionFails b o s') :
    s = s' := by
  cases h with
  | name hname =>
    cases h' with
    | name hname' => exact hname.unique hname'
    | fields hname' _ => exact absurd hname' hname.not_encName
  | fields hname _ =>
    cases h' with
    | name hname' => exact absurd hname hname'.not_encName
    | fields _ _ => rfl

theorem RecordFails.unique {s' : Status} (h : RecordFails b o s) (h' : RecordFails b o s') :
    s = s' := by
  have shifted {f f' : Nat} {ls ls' : List Label} {rdlength : UInt16} (hname : EncName b o ls f)
      (hname' : EncName b o ls' f') (hs : Sits b (f' + 8) (bytes16 rdlength)) :
      f + 10 ≤ b.length := by
    obtain ⟨_, hf⟩ := hname.unique hname'
    have hle := hs.end_le (by simp [bytes16])
    rw [length_bytes16] at hle
    omega
  cases h with
  | name hname =>
    cases h' with
    | name hname' => exact hname.unique hname'
    | fields hname' _ => exact absurd hname' hname.not_encName
    | rdata hname' _ _ => exact absurd hname' hname.not_encName
  | fields hname hshort =>
    cases h' with
    | name hname' => exact absurd hname hname'.not_encName
    | fields _ _ => rfl
    | rdata hname' hs _ =>
      have := shifted hname hname' hs
      omega
  | rdata hname hs _ =>
    cases h' with
    | name hname' => exact absurd hname hname'.not_encName
    | fields hname' hshort =>
      have := shifted hname' hname hs
      omega
    | rdata _ _ _ => rfl

theorem parseQuestion_fails (h : parseQuestion b o = .error s) : QuestionFails b o s := by
  simp only [parseQuestion, bind_eq_error_iff, Prod.exists, readName_eq_error_iff,
    readName_eq_ok_iff, readU16_eq_error_iff, readU16_eq_ok_iff] at h
  rcases h with hname | ⟨name, f, hname, h⟩
  · exact .name hname
  rcases h with ⟨hshort, rfl⟩ | ⟨_, _, ⟨_, rfl⟩, h⟩
  · exact .fields hname (by omega)
  rcases h with ⟨hshort, rfl⟩ | ⟨_, _, _, h⟩
  · exact .fields hname (by omega)
  · cases h

theorem parseQuestion_eq_error_iff : parseQuestion b o = .error s ↔ QuestionFails b o s := by
  refine ⟨parseQuestion_fails, fun h => ?_⟩
  cases hread : parseQuestion b o with
  | error status => rw [h.unique (parseQuestion_fails hread)]
  | ok result =>
    obtain ⟨q, e⟩ := result
    obtain ⟨f, hname, hfields, _⟩ := parseQuestion_eq_ok_iff.mp hread
    have hle := hfields.end_le (by simp [questionFields, bytes16])
    rw [length_questionFields] at hle
    cases h with
    | name hfails => exact absurd hname hfails.not_encName
    | fields hname' hshort =>
      obtain ⟨_, hf⟩ := hname.unique hname'
      omega

theorem parseResourceRecord_fails (h : parseResourceRecord b o = .error s) : RecordFails b o s := by
  simp only [parseResourceRecord, bind_eq_error_iff, Prod.exists, readName_eq_error_iff,
    readName_eq_ok_iff, readU16_eq_error_iff, readU16_eq_ok_iff, readU32_eq_error_iff,
    readU32_eq_ok_iff] at h
  rcases h with hname | ⟨name, f, hname, h⟩
  · exact .name hname
  rcases h with ⟨hshort, rfl⟩ | ⟨_, _, ⟨_, rfl⟩, h⟩
  · exact .fields hname (by omega)
  rcases h with ⟨hshort, rfl⟩ | ⟨_, _, ⟨_, rfl⟩, h⟩
  · exact .fields hname (by omega)
  rcases h with ⟨hshort, rfl⟩ | ⟨_, _, ⟨_, rfl⟩, h⟩
  · exact .fields hname (by omega)
  rcases h with ⟨hshort, rfl⟩ | ⟨rdlength, _, ⟨hs, rfl⟩, h⟩
  · exact .fields hname (by omega)
  split at h
  · rename_i hout
    cases h
    exact .rdata hname hs (by omega)
  · cases h

theorem parseResourceRecord_eq_error_iff :
    parseResourceRecord b o = .error s ↔ RecordFails b o s := by
  refine ⟨parseResourceRecord_fails, fun h => ?_⟩
  cases hread : parseResourceRecord b o with
  | error status => rw [h.unique (parseResourceRecord_fails hread)]
  | ok result =>
    obtain ⟨r, e⟩ := result
    have henc := parseResourceRecord_eq_ok_iff.mp hread
    obtain ⟨_, _, hend⟩ := henc.extent
    obtain ⟨f, hname, hfields, hlt, _, _, he⟩ := henc
    cases h with
    | name hfails => exact absurd hname hfails.not_encName
    | fields hname' hshort =>
      obtain ⟨_, hf⟩ := hname.unique hname'
      omega
    | @rdata ls f' rdlength hname' hs hout =>
      obtain ⟨_, hf⟩ := hname.unique hname'
      rw [recordFields, sits_append_iff] at hfields
      rw [← hf] at hs hout
      have hsits : Sits b (f + 8) (bytes16 (.ofNat r.rdata.length)) := hfields.2
      have hlength := readU16_eq_ok_iff.mpr ⟨hs, rfl⟩
      rw [readU16_eq_ok_iff.mpr ⟨hsits, rfl⟩] at hlength
      cases hlength
      rw [toNat_ofNat_length hlt] at hout
      omega

end Entries

/-! ### Sections -/

/-- A section loop fails at an entry behind fewer good ones than it was to read. -/
theorem parseSection_eq_fail_iff {α : Type} {parseEntry : Nat → Except Status (α × Nat)}
    {E : Nat → α → Nat → Prop} (hE : ∀ i a j, parseEntry i = .ok (a, j) ↔ E i a j)
    {n o e : Nat} {s : Status} {out out' : List α} (hs : s ≠ .OK) :
    parseSection parseEntry n o out = (s, e, out') ↔
      ∃ as, as.length < n ∧ Chain E o as e ∧ out' = out ++ as ∧ parseEntry e = .error s := by
  induction n generalizing o out with
  | zero =>
    constructor
    · intro h
      cases h
      exact absurd rfl hs
    · intro ⟨as, hlength, _⟩
      exact absurd hlength (Nat.not_lt_zero _)
  | succ n ih =>
    unfold parseSection
    split
    · rename_i s' herror
      constructor
      · intro h
        cases h
        exact ⟨[], Nat.succ_pos n, .nil _, (List.append_nil _).symm, herror⟩
      · intro ⟨as, _, hchain, hout, herror'⟩
        cases hchain with
        | nil =>
          rw [herror] at herror'
          cases herror'
          rw [hout, List.append_nil]
        | cons ha _ =>
          rw [(hE _ _ _).mpr ha] at herror
          cases herror
    · rename_i a o' hok
      rw [ih]
      constructor
      · intro ⟨as, hlength, hchain, hout, herror⟩
        refine ⟨a :: as, Nat.succ_lt_succ hlength, .cons ((hE _ _ _).mp hok) hchain, ?_, herror⟩
        rw [hout, List.append_assoc, List.singleton_append]
      · intro ⟨as, hlength, hchain, hout, herror⟩
        cases hchain with
        | nil =>
          rw [hok] at herror
          cases herror
        | @cons _ _ _ a' as ha hrest =>
          rw [(hE _ _ _).mpr ha] at hok
          cases hok
          refine ⟨as, Nat.lt_of_succ_lt_succ hlength, hrest, ?_, herror⟩
          rw [hout, List.append_assoc, List.singleton_append]

section Parse
variable {b : Buffer} {out m : Message} {s : Status}

theorem parseQuestions_eq_fail_iff {n o e : Nat} {qs : List Question} (hs : s ≠ .OK) :
    parseSection (parseQuestion b) n o [] = (s, e, qs) ↔
      qs.length < n ∧ Chain (EncQuestion b) o qs e ∧ QuestionFails b e s := by
  rw [parseSection_eq_fail_iff (fun _ _ _ => parseQuestion_eq_ok_iff) hs]
  simp only [List.nil_append, parseQuestion_eq_error_iff]
  constructor
  · intro ⟨as, hlength, hchain, hout, hfails⟩
    rw [hout]
    exact ⟨hlength, hchain, hfails⟩
  · intro ⟨hlength, hchain, hfails⟩
    exact ⟨qs, hlength, hchain, rfl, hfails⟩

theorem parseRecords_eq_fail_iff {n o e : Nat} {rs : List ResourceRecord} (hs : s ≠ .OK) :
    parseSection (parseResourceRecord b) n o [] = (s, e, rs) ↔
      rs.length < n ∧ Chain (EncRecord b) o rs e ∧ RecordFails b e s := by
  rw [parseSection_eq_fail_iff (fun _ _ _ => parseResourceRecord_eq_ok_iff) hs]
  simp only [List.nil_append, parseResourceRecord_eq_error_iff]
  constructor
  · intro ⟨as, hlength, hchain, hout, hfails⟩
    rw [hout]
    exact ⟨hlength, hchain, hfails⟩
  · intro ⟨hlength, hchain, hfails⟩
    exact ⟨rs, hlength, hchain, rfl, hfails⟩

theorem rejects_of_parse (h : parse b out = (s, m)) (hs : s ≠ .OK) : Rejects b out s m := by
  unfold parse at h
  cases hread : parseHeader b 0 with
  | error status =>
    rw [hread] at h
    cases h
    obtain ⟨hshort, rfl⟩ := parseHeader_eq_error_iff.mp hread
    exact .header hshort
  | ok result =>
    obtain ⟨header, o⟩ := result
    simp only [hread] at h
    obtain ⟨hheader, rfl⟩ := parseHeader_eq_ok_iff.mp hread
    rcases hqs : parseSection (parseQuestion b) header.qdcount.toNat (0 + 12) [] with ⟨s₁, o₁, qs⟩
    simp only [hqs] at h
    split at h
    · cases h
      obtain ⟨hlength, hchain, hfails⟩ := (parseQuestions_eq_fail_iff hs).mp hqs
      exact .questions hheader hchain hlength hfails
    rename_i hok; obtain rfl := not_not.mp hok
    obtain ⟨hqlength, hqchain⟩ := parseQuestions_eq_ok_iff.mp hqs
    rcases han : parseSection (parseResourceRecord b) header.ancount.toNat o₁ [] with ⟨s₂, o₂, an⟩
    simp only [han] at h
    split at h
    · cases h
      obtain ⟨hlength, hchain, hfails⟩ := (parseRecords_eq_fail_iff hs).mp han
      exact .answers hheader hqchain hqlength hchain hlength hfails
    rename_i hok; obtain rfl := not_not.mp hok
    obtain ⟨halength, hachain⟩ := parseRecords_eq_ok_iff.mp han
    rcases hns : parseSection (parseResourceRecord b) header.nscount.toNat o₂ [] with ⟨s₃, o₃, ns⟩
    simp only [hns] at h
    split at h
    · cases h
      obtain ⟨hlength, hchain, hfails⟩ := (parseRecords_eq_fail_iff hs).mp hns
      exact .authorities hheader hqchain hqlength hachain halength hchain hlength hfails
    rename_i hok; obtain rfl := not_not.mp hok
    obtain ⟨hnlength, hnchain⟩ := parseRecords_eq_ok_iff.mp hns
    rcases har : parseSection (parseResourceRecord b) header.arcount.toNat o₃ [] with ⟨s₄, o₄, ar⟩
    simp only [har] at h
    cases h
    obtain ⟨hlength, hchain, hfails⟩ := (parseRecords_eq_fail_iff hs).mp har
    exact .additionals hheader hqchain hqlength hachain halength hnchain hnlength hchain hlength
      hfails

theorem NameFails.status {o : Nat} (h : NameFails b o s) : s ∈ failures := by
  cases h with
  | loop => simp [failures]
  | fault _ hfault => cases hfault <;> simp [failures]

theorem QuestionFails.status {o : Nat} (h : QuestionFails b o s) : s ∈ failures := by
  cases h with
  | name hname => exact hname.status
  | fields => simp [failures]

theorem RecordFails.status {o : Nat} (h : RecordFails b o s) : s ∈ failures := by
  cases h with
  | name hname => exact hname.status
  | fields => simp [failures]
  | rdata => simp [failures]

theorem Rejects.status (h : Rejects b out s m) : s ∈ failures := by
  cases h with
  | header => simp [failures]
  | questions _ _ _ hfails => exact hfails.status
  | answers _ _ _ _ _ hfails => exact hfails.status
  | authorities _ _ _ _ _ _ _ hfails => exact hfails.status
  | additionals _ _ _ _ _ _ _ _ _ hfails => exact hfails.status

theorem Rejects.ne_ok (h : Rejects b out s m) : s ≠ .OK := by
  intro hok
  have hstatus := h.status
  rw [hok] at hstatus
  simp [failures] at hstatus

theorem parse_of_rejects (h : Rejects b out s m) : parse b out = (s, m) := by
  have hs := h.ne_ok
  have read {header : Header} (h : Sits b 0 (headerBytes header)) :
      parseHeader b 0 = .ok (header, 12) := parseHeader_eq_ok_iff.mpr ⟨h, rfl⟩
  unfold parse
  cases h with
  | header hshort => rw [parseHeader_eq_error_iff.mpr ⟨hshort, rfl⟩]
  | questions hheader hchain hlength hfails =>
    rw [read hheader]
    simp only [(parseQuestions_eq_fail_iff hs).mpr ⟨hlength, hchain, hfails⟩, ne_eq, hs,
      not_false_eq_true, if_true]
  | answers hheader hqchain hqlength hchain hlength hfails =>
    rw [read hheader]
    simp only [parseQuestions_eq_ok_iff.mpr ⟨hqlength, hqchain⟩,
      (parseRecords_eq_fail_iff hs).mpr ⟨hlength, hchain, hfails⟩, ne_eq, not_true_eq_false, hs,
      not_false_eq_true, if_true, if_false]
  | authorities hheader hqchain hqlength hachain halength hchain hlength hfails =>
    rw [read hheader]
    simp only [parseQuestions_eq_ok_iff.mpr ⟨hqlength, hqchain⟩,
      parseRecords_eq_ok_iff.mpr ⟨halength, hachain⟩,
      (parseRecords_eq_fail_iff hs).mpr ⟨hlength, hchain, hfails⟩, ne_eq, not_true_eq_false, hs,
      not_false_eq_true, if_true, if_false]
  | additionals hheader hqchain hqlength hachain halength hnchain hnlength hchain hlength hfails =>
    rw [read hheader]
    simp only [parseQuestions_eq_ok_iff.mpr ⟨hqlength, hqchain⟩,
      parseRecords_eq_ok_iff.mpr ⟨halength, hachain⟩,
      parseRecords_eq_ok_iff.mpr ⟨hnlength, hnchain⟩,
      (parseRecords_eq_fail_iff hs).mpr ⟨hlength, hchain, hfails⟩, ne_eq, not_true_eq_false,
      if_false]

/-- What `parse` reports when it does not accept, and all it leaves in the caller's message; no
other status than five of the eight is ever reported. -/
theorem parse_rejects_iff (b : Buffer) (out m : Message) (s : Status) :
    (parse b out = (s, m) ∧ s ≠ .OK ↔ Rejects b out s m) ∧
      (Rejects b out s m → s ∈ failures) := by
  refine ⟨⟨?_, fun h => ⟨parse_of_rejects h, h.ne_ok⟩⟩, Rejects.status⟩
  intro ⟨h, hs⟩
  exact rejects_of_parse h hs

end Parse

/-! ### Final verdicts -/

section Append
variable {b : Buffer} {o c : Nat} {s : Status} (x : Buffer)

theorem Leads.append {c' : Nat} (h : Leads b c c') : Leads (b ++ x) c c' := by
  cases h with
  | label h1 h63 hs => exact .label h1 h63 (hs.append_right x)
  | pointer ht hback hs => exact .pointer ht hback (hs.append_right x)

theorem Fault.append (h : Fault b c s) (hs : s ≠ .BUFFER_TOO_SMALL) : Fault (b ++ x) c s := by
  cases h with
  | noByte => exact absurd rfl hs
  | halfPointer => exact absurd rfl hs
  | halfLabel => exact absurd rfl hs
  | forward ht hforward hsits => exact .forward ht hforward (hsits.append_right x)
  | reserved hsits hlow hhigh => exact .reserved (hsits.append_right x) hlow hhigh

theorem NameFails.append (h : NameFails b o s) (hs : s ≠ .BUFFER_TOO_SMALL) :
    NameFails (b ++ x) o s := by
  have hleads : Leads b ≤ Leads (b ++ x) := fun _ _ h => Leads.append x h
  cases h with
  | fault hpath hfault =>
    exact .fault (ReflTransGen.mono hleads _ _ hpath) (hfault.append x hs)
  | loop hpath hcycle =>
    exact .loop (ReflTransGen.mono hleads _ _ hpath) (TransGen.mono hleads _ _ hcycle)

theorem QuestionFails.append (h : QuestionFails b o s) (hs : ¬ MissingBytes s) :
    QuestionFails (b ++ x) o s := by
  cases h with
  | name hname => exact .name (hname.append x fun hsame => hs (Or.inl hsame))
  | fields => exact absurd (Or.inl rfl) hs

theorem RecordFails.append (h : RecordFails b o s) (hs : ¬ MissingBytes s) :
    RecordFails (b ++ x) o s := by
  cases h with
  | name hname => exact .name (hname.append x fun hsame => hs (Or.inl hsame))
  | fields => exact absurd (Or.inl rfl) hs
  | rdata => exact absurd (Or.inr rfl) hs

theorem Rejects.append {out m : Message} (h : Rejects b out s m) (hs : ¬ MissingBytes s) :
    Rejects (b ++ x) out s m := by
  have name {o : Nat} {ls : List Label} {e : Nat} (h : EncName b o ls e) :
      EncName (b ++ x) o ls e := h.mono fun _ _ hs => hs.append_right x
  have questions {o e : Nat} {qs : List Question} (h : Chain (EncQuestion b) o qs e) :
      Chain (EncQuestion (b ++ x)) o qs e :=
    h.imp fun _ _ _ _ h => h.imp (fun _ _ _ => name) fun _ _ hs => hs.append_right x
  have records {o e : Nat} {rs : List ResourceRecord} (h : Chain (EncRecord b) o rs e) :
      Chain (EncRecord (b ++ x)) o rs e :=
    h.imp fun _ _ _ _ h => h.imp (fun _ _ _ => name) fun _ _ hs => hs.append_right x
  cases h with
  | header => exact absurd (Or.inl rfl) hs
  | questions hheader hchain hlength hfails =>
    exact .questions (hheader.append_right x) (questions hchain) hlength (hfails.append x hs)
  | answers hheader hqchain hqlength hchain hlength hfails =>
    exact .answers (hheader.append_right x) (questions hqchain) hqlength (records hchain) hlength
      (hfails.append x hs)
  | authorities hheader hqchain hqlength hachain halength hchain hlength hfails =>
    exact .authorities (hheader.append_right x) (questions hqchain) hqlength (records hachain)
      halength (records hchain) hlength (hfails.append x hs)
  | additionals hheader hqchain hqlength hachain halength hnchain hnlength hchain hlength hfails =>
    exact .additionals (hheader.append_right x) (questions hqchain) hqlength (records hachain)
      halength (records hnchain) hnlength (records hchain) hlength (hfails.append x hs)

theorem parse_append {out : Message} (h : ¬ MissingBytes (parse b out).1) :
    parse (b ++ x) out = parse b out := by
  rcases hparse : parse b out with ⟨s, m⟩
  rw [hparse] at h
  by_cases hs : s = .OK
  · rw [hs] at hparse ⊢
    obtain ⟨e, henc⟩ := encodes_of_parse hparse
    exact parse_of_encodes (henc.append x) out
  · exact parse_of_rejects ((rejects_of_parse hparse hs).append x h)

end Append

theorem parse_take_of_le {b : Buffer} {out : Message} {j k : Nat} (hjk : j ≤ k)
    (h : ¬ MissingBytes (parse (b.take j) out).1) :
    parse (b.take k) out = parse (b.take j) out := by
  have hpieces : b.take k = b.take j ++ (b.take k).drop j := by
    calc b.take k = (b.take k).take j ++ (b.take k).drop j := (List.take_append_drop j _).symm
      _ = b.take j ++ (b.take k).drop j := by rw [List.take_take, Nat.min_eq_left hjk]
  rw [hpieces]
  exact parse_append _ h

/-- A packet that comes in piece by piece: up to some length bytes are reported missing, from
there on the verdict and the message are those of the whole packet; and a verdict other than
missing bytes does not depend on anything that may follow. -/
theorem verdict_is_final (b : Buffer) (out : Message) :
    (∃ n ≤ b.length, (∀ k < n, MissingBytes (parse (b.take k) out).1) ∧
      ∀ k, n ≤ k → parse (b.take k) out = parse b out) ∧
    (MissingBytes (parse b out).1 ∨ ∀ x, parse (b ++ x) out = parse b out) := by
  classical
  constructor
  · by_cases hdecided : ∃ k, k ≤ b.length ∧ ¬ MissingBytes (parse (b.take k) out).1
    · obtain ⟨hle, hfirst⟩ := Nat.find_spec hdecided
      refine ⟨Nat.find hdecided, hle, fun k hk => ?_, fun k hk => ?_⟩
      · by_contra hk'
        exact Nat.find_min hdecided hk ⟨by omega, hk'⟩
      · have hwhole := parse_take_of_le hle hfirst
        rw [List.take_length] at hwhole
        rw [parse_take_of_le hk hfirst, hwhole]
    · refine ⟨b.length, Nat.le_refl _, fun k hk => ?_, fun k hk => ?_⟩
      · by_contra hk'
        exact hdecided ⟨k, by omega, hk'⟩
      · rw [List.take_of_length_le hk]
  · by_cases hmissing : MissingBytes (parse b out).1
    · exact Or.inl hmissing
    · exact Or.inr fun x => parse_append x hmissing

end DnsPro.Wire
