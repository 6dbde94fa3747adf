import DnsPro.Wire.Trace

/-!
# Longer and shorter packets

What becomes of an accepted packet when bytes are appended to it or cut off from its end. Appended
bytes change nothing. A cut below the end of the message is reported as missing bytes. A cut behind
it goes unnoticed as long as it spares what the names read: a name that was reached through a
pointer goes on with whatever follows the target, which may lie behind the end of the message.
-/

namespace DnsPro.Wire

open Packet DnsPro.Parser Layout Word

set_option autoImplicit false

/-! ### A turn on a shorter buffer -/

/-- The end of what the loop body reads at a cursor. -/
def turnEnd (b : Buffer) (c : Nat) : Nat :=
  match readTurn b c with
  | .pointer _ => c + 2
  | .label l => c + 1 + l.length
  | .terminator => c + 1
  | .fail _ => c

section Turn
variable {b : Buffer} {c k : Nat}

theorem byteAt_take (h : c < k) : byteAt (b.take k) c = byteAt b c := by
  simp only [byteAt, List.getD_eq_getElem?_getD, List.getElem?_take_of_lt h]

theorem bytesFrom_take {n : Nat} (h : c + n ≤ k) : bytesFrom (b.take k) c n = bytesFrom b c n := by
  apply List.map_congr_left
  intro i hi
  have hlt := List.mem_range.mp hi
  exact byteAt_take (by omega)

/-- The turn is the same when what it reads is still there; otherwise bytes are missing. -/
theorem readTurn_take (hturn : ∀ s, readTurn b c ≠ .fail s) :
    readTurn (b.take k) c =
      if turnEnd b c ≤ k then readTurn b c else .fail .BUFFER_TOO_SMALL := by
  have missing (hk : k ≤ c) : readTurn (b.take k) c = .fail .BUFFER_TOO_SMALL := by
    rw [readTurn_eq, if_pos (by rw [List.length_take]; omega)]
  have hspec := readTurn_spec b c
  cases hread : readTurn b c with
  | fail s => exact absurd hread (hturn s)
  | terminator =>
    rw [hread] at hspec
    obtain ⟨hin, _⟩ := hspec
    have hlast : turnEnd b c = c + 1 := by rw [turnEnd, hread]
    rw [hlast]
    split
    · rw [readTurn_eq_terminator_iff, sits_take_iff (by simp)]
      exact ⟨readTurn_eq_terminator_iff.mp hread, by simpa⟩
    · exact missing (by omega)
  | pointer t =>
    rw [hread] at hspec
    obtain ⟨hin, _, hmask, _⟩ := hspec
    have hlast : turnEnd b c = c + 2 := by rw [turnEnd, hread]
    rw [hlast]
    split
    · obtain ⟨h14, hback, hs⟩ := readTurn_eq_pointer_iff.mp hread
      rw [readTurn_eq_pointer_iff, sits_take_iff (by simp)]
      exact ⟨h14, hback, hs, by simpa⟩
    · by_cases hk : k ≤ c
      · exact missing hk
      · rw [readTurn_eq, byteAt_take (by omega), if_neg (by rw [List.length_take]; omega),
          if_pos hmask, if_pos (by rw [List.length_take]; omega)]
  | label l =>
    rw [hread] at hspec
    obtain ⟨hpos, hshort, hin, hbytes⟩ := hspec
    have hlength : l.length = (byteAt b c).toNat := by rw [hbytes, length_bytesFrom]
    have hlast : turnEnd b c = c + 1 + l.length := by rw [turnEnd, hread]
    rw [hlast]
    split
    · obtain ⟨h1, h63, hs⟩ := readTurn_eq_label_iff.mp hread
      rw [readTurn_eq_label_iff, sits_take_iff (by simp)]
      refine ⟨h1, h63, hs, ?_⟩
      rw [List.length_cons]
      omega
    · by_cases hk : k ≤ c
      · exact missing hk
      · rw [readTurn_eq, byteAt_take (by omega), if_neg (by rw [List.length_take]; omega),
          if_neg (by omega), if_neg (by omega), if_neg (by omega),
          if_pos (by rw [List.length_take]; omega)]

end Turn

/-! ### A name on a shorter buffer -/

section Names
variable {b : Buffer} {o e k : Nat} {ls : List Label}

theorem EncName.not_fail (h : EncName b o ls e) : ∀ s, readTurn b o ≠ .fail s := by
  intro s
  cases h with
  | root hs => rw [readTurn_eq_terminator_iff.mpr hs]; nofun
  | label h1 h63 hs _ => rw [readTurn_eq_label_iff.mpr ⟨h1, h63, hs⟩]; nofun
  | pointer ht hback hs _ => rw [readTurn_eq_pointer_iff.mpr ⟨ht, hback, hs⟩]; nofun

/-- The walk over a name that was cut ends, if not as before, at missing bytes. -/
theorem EncName.ends_take (h : EncName b o ls e) (k : Nat) {w : Walk} (hw : w.cursor = o) :
    ∃ status w', Ends (b.take k) w status w' ∧ (status = .OK ∨ status = .BUFFER_TOO_SMALL) := by
  have hshort := readTurn_take (k := k) h.not_fail
  induction h generalizing w with
  | root hs =>
    subst hw
    rw [readTurn_eq_terminator_iff.mpr hs] at hshort
    split at hshort
    · exact ⟨_, _, .terminator hshort, Or.inl rfl⟩
    · exact ⟨_, _, .fail hshort, Or.inr rfl⟩
  | label h1 h63 hs hrest ih =>
    subst hw
    rw [readTurn_eq_label_iff.mpr ⟨h1, h63, hs⟩] at hshort
    split at hshort
    · obtain ⟨status, w', hends, hstatus⟩ :=
        ih (w := w.push _) rfl (readTurn_take hrest.not_fail)
      exact ⟨status, w', .label hshort hends, hstatus⟩
    · exact ⟨_, _, .fail hshort, Or.inr rfl⟩
  | pointer ht hback hs hrest ih =>
    subst hw
    rw [readTurn_eq_pointer_iff.mpr ⟨ht, hback, hs⟩] at hshort
    split at hshort
    · obtain ⟨status, w', hends, hstatus⟩ :=
        ih (w := w.jump _) rfl (readTurn_take hrest.not_fail)
      exact ⟨status, w', .pointer hshort hends, hstatus⟩
    · exact ⟨_, _, .fail hshort, Or.inr rfl⟩

end Names

/-! ### The parser on a shorter buffer -/

def MissingBytes (status : Status) : Prop :=
  status = .BUFFER_TOO_SMALL ∨ status = .RDATA_LENGTH_MISMATCH

/-- Where the run `y` succeeds, the run `x` has the same result or reports missing bytes. -/
def Shortens {α : Type} (x y : Except Status α) : Prop :=
  ∀ a, y = .ok a → x = .ok a ∨ ∃ status, x = .error status ∧ MissingBytes status

theorem Shortens.bind {α β : Type} {x y : Except Status α} {f g : α → Except Status β}
    (h : Shortens x y) (hf : ∀ a, Shortens (f a) (g a)) : Shortens (x >>= f) (y >>= g) := by
  intro r hr
  obtain ⟨a, hy, hg⟩ := bind_eq_ok_iff.mp hr
  rcases h a hy with hx | ⟨status, hx, hmissing⟩
  · rw [hx]
    exact hf a r hg
  · rw [hx]
    exact Or.inr ⟨status, rfl, hmissing⟩

/-- A bounds check in front of a value, when a value on the shorter buffer is one on the longer. -/
theorem shortens_guarded {α : Type} {p : Prop} [Decidable p] {status : Status} {v : α}
    {y : Except Status α} (hmissing : MissingBytes status)
    (hok : ∀ a, (if p then .error status else .ok v : Except Status α) = .ok a → y = .ok a) :
    Shortens (if p then .error status else .ok v) y := by
  intro a ha
  by_cases hp : p
  · rw [if_pos hp]
    exact Or.inr ⟨status, rfl, hmissing⟩
  · have heq := hok v (if_neg hp)
    rw [ha] at heq
    cases heq
    exact Or.inl (if_neg hp)

section Readers
variable (b : Buffer) (k o : Nat)

theorem shortens_readU16 : Shortens (readU16 (b.take k) o) (readU16 b o) := by
  apply shortens_guarded (Or.inl rfl)
  intro ⟨v, e⟩ h
  obtain ⟨hs, he⟩ := readU16_eq_ok_iff.mp h
  exact readU16_eq_ok_iff.mpr ⟨hs.of_take, he⟩

theorem shortens_readU32 : Shortens (readU32 (b.take k) o) (readU32 b o) := by
  apply shortens_guarded (Or.inl rfl)
  intro ⟨v, e⟩ h
  obtain ⟨hs, he⟩ := readU32_eq_ok_iff.mp h
  exact readU32_eq_ok_iff.mpr ⟨hs.of_take, he⟩

theorem shortens_readFlags : Shortens (readFlags (b.take k) o) (readFlags b o) := by
  apply shortens_guarded (Or.inl rfl)
  intro ⟨⟨x, y⟩, e⟩ h
  obtain ⟨hs, he⟩ := readFlags_eq_ok_iff.mp h
  exact readFlags_eq_ok_iff.mpr ⟨hs.of_take, he⟩

theorem shortens_readName : Shortens (readName (b.take k) o) (readName b o) := by
  intro ⟨name, e⟩ hname
  rw [readName_eq_ok_iff] at hname ⊢
  obtain ⟨status, w, hends, hstatus⟩ := hname.ends_take k (w := Walk.start o) rfl
  have hparse := parseName_of_ends hends ⟨[]⟩
  rcases hstatus with rfl | rfl
  · left
    have henc := parseName_eq_ok_iff.mp hparse
    obtain ⟨hlabels, hend⟩ := henc.of_take.unique hname
    rwa [← hlabels, ← hend]
  · right
    refine ⟨_, ?_, Or.inl rfl⟩
    rw [readName, hparse]

theorem shortens_parseHeader : Shortens (parseHeader (b.take k) o) (parseHeader b o) :=
  (shortens_readU16 b k o).bind fun _ => (shortens_readFlags b k _).bind fun _ =>
    (shortens_readU16 b k _).bind fun _ => (shortens_readU16 b k _).bind fun _ =>
      (shortens_readU16 b k _).bind fun _ => (shortens_readU16 b k _).bind fun _ =>
        fun _ => Or.inl

theorem shortens_parseQuestion : Shortens (parseQuestion (b.take k) o) (parseQuestion b o) :=
  (shortens_readName b k o).bind fun _ => (shortens_readU16 b k _).bind fun _ =>
    (shortens_readU16 b k _).bind fun _ => fun _ => Or.inl

theorem shortens_parseResourceRecord :
    Shortens (parseResourceRecord (b.take k) o) (parseResourceRecord b o) := by
  refine (shortens_readName b k o).bind fun _ => (shortens_readU16 b k _).bind fun _ =>
    (shortens_readU16 b k _).bind fun _ => (shortens_readU32 b k _).bind fun _ =>
      (shortens_readU16 b k _).bind fun ⟨rdlength, offset⟩ => ?_
  apply shortens_guarded (Or.inr rfl)
  intro a ha
  by_cases hcut : offset + rdlength.toNat > (b.take k).length
  · rw [if_pos hcut] at ha
    cases ha
  · rw [if_neg hcut] at ha
    rw [List.length_take] at hcut
    rw [← ha, bytesFrom_take (by omega)]
    exact if_neg (by omega)

end Readers

/-! ### Sections and packets -/

section Packets
variable {b : Buffer} {out m : Message} {k : Nat}

theorem parseSection_shortens {α : Type} {entry entry' : Nat → Except Status (α × Nat)}
    (hentry : ∀ i, Shortens (entry' i) (entry i)) (hfail : ∀ i, entry i ≠ .error .OK)
    {n o e : Nat} {as as' : List α} (h : parseSection entry n o as = (.OK, e, as')) :
    parseSection entry' n o as = (.OK, e, as') ∨ MissingBytes (parseSection entry' n o as).1 := by
  induction n generalizing o as with
  | zero => exact Or.inl h
  | succ n ih =>
    rw [parseSection] at h ⊢
    cases hok : entry o with
    | error status =>
      rw [hok] at h
      cases h
      exact absurd hok (hfail _)
    | ok result =>
      rw [hok] at h
      rcases hentry o result hok with hsame | ⟨status, herror, hmissing⟩
      · rw [hsame]
        exact ih h
      · rw [herror]
        exact Or.inr hmissing

theorem parse_shortens (h : parse b out = (.OK, m)) (k : Nat) (out' : Message) :
    parse (b.take k) out' = (.OK, m) ∨ MissingBytes (parse (b.take k) out').1 := by
  obtain ⟨hheader, hcount, o₁, o₂, o₃, hq, ha, hn, hr⟩ := encodes_of_parse_consumed h
  have hread : parseHeader b 0 = .ok (m.header, 12) := parseHeader_eq_ok_iff.mpr ⟨hheader, rfl⟩
  have hqs := parseQuestions_eq_ok_iff.mpr ⟨hcount.questions.symm, hq⟩
  have has := parseRecords_eq_ok_iff.mpr ⟨hcount.answers.symm, ha⟩
  have hns := parseRecords_eq_ok_iff.mpr ⟨hcount.authorities.symm, hn⟩
  have hrs := parseRecords_eq_ok_iff.mpr ⟨hcount.additionals.symm, hr⟩
  have record {n o e : Nat} {rs : List ResourceRecord}
      (h : parseSection (parseResourceRecord b) n o [] = (.OK, e, rs)) :=
    parseSection_shortens (shortens_parseResourceRecord b k)
      (fun _ => parseResourceRecord_ne_error_ok) h
  have failed : ∀ {status : Status}, MissingBytes status → status ≠ .OK := by
    rintro _ (rfl | rfl) <;> nofun
  unfold parse
  rcases shortens_parseHeader b k 0 _ hread with hread' | ⟨status, herror, hmissing⟩
  · rw [hread']
    rcases parseSection_shortens (shortens_parseQuestion b k)
      (fun _ => parseQuestion_ne_error_ok) hqs with hqs' | hmissing
    · rcases record has with has' | hmissing
      · rcases record hns with hns' | hmissing
        · rcases record hrs with hrs' | hmissing
          · left
            simp only [hqs', has', hns', hrs', ne_eq, not_true_eq_false, if_false]
          · right
            simp only [hqs', has', hns', ne_eq, not_true_eq_false, if_false, hmissing]
        · right
          simp only [hqs', has', ne_eq, not_true_eq_false, if_false, failed hmissing,
            not_false_eq_true, if_true, hmissing]
      · right
        simp only [hqs', ne_eq, not_true_eq_false, if_false, failed hmissing,
          not_false_eq_true, if_true, hmissing]
    · right
      simp only [ne_eq, failed hmissing, not_false_eq_true, if_true, hmissing]
  · rw [herror]
    exact Or.inr hmissing

theorem Encodes.append {e : Nat} (h : Encodes b m e) (x : Buffer) : Encodes (b ++ x) m e :=
  h.imp (fun _ _ _ hname => hname.mono fun _ _ hs => hs.append_right x)
    fun _ _ hs => hs.append_right x

theorem Encodes.of_take {e : Nat} (h : Encodes (b.take k) m e) : Encodes b m e :=
  h.imp (fun _ _ _ => EncName.of_take) fun _ _ => Sits.of_take

/-- Appended bytes leave an accepted packet's message as it is; a cut below its end is always
reported as missing bytes. -/
theorem extension_and_truncation (h : parse b out = (.OK, m)) :
    (∀ x out', parse (b ++ x) out' = (.OK, m)) ∧
    ∀ k < consumed b, ∀ out', (parse (b.take k) out').1 = .BUFFER_TOO_SMALL ∨
      (parse (b.take k) out').1 = .RDATA_LENGTH_MISMATCH := by
  have henc := encodes_of_parse_consumed h
  refine ⟨fun x out' => parse_of_encodes (Encodes.append henc x) out', fun k hk out' => ?_⟩
  rcases parse_shortens h k out' with hok | hmissing
  · have hshort := encodes_of_parse_consumed hok
    have hend := Encodes.end_le hshort
    rw [List.length_take] at hend
    have hsame := consumed_of_encodes (Encodes.of_take hshort)
    omega
  · exact hmissing

end Packets

theorem extension_and_truncation_alias :
    parse (aliasAnswer ++ [9]) Message.blank = (.OK, aliasMessage) ∧
      (parse (aliasAnswer.take 36) Message.blank).1 ≠ .OK := by
  have hparse : parse aliasAnswer Message.blank = (.OK, aliasMessage) :=
    Prod.ext (by decide +kernel) rfl
  obtain ⟨hextend, hcut⟩ := extension_and_truncation hparse
  refine ⟨hextend [9] Message.blank, ?_⟩
  rcases hcut 36 (by decide +kernel) Message.blank with hshort | hshort
  · rw [hshort]
    nofun
  · rw [hshort]
    nofun

/-! ### How far the names read -/

def reachLoop (b : Buffer) : Nat → Nat → Nat
  | 0, _ => 0
  | stepsRemaining + 1, c =>
    match nextCursor b c with
    | none => turnEnd b c
    | some next => max (turnEnd b c) (reachLoop b stepsRemaining next)

/-- The end of the furthest bytes that `parseName` reads from an offset. -/
def nameReach (b : Buffer) (offset : Nat) : Nat :=
  reachLoop b (b.length + 1) offset

/-- The end of everything that `parse` reads of an accepted packet. -/
def furthestRead (b : Buffer) : Nat :=
  (nameOffsets b).foldr (fun offset reach => max (nameReach b offset) reach) (consumed b)

theorem furthestRead_le_iff {b : Buffer} {k : Nat} :
    furthestRead b ≤ k ↔ consumed b ≤ k ∧ ∀ s ∈ nameOffsets b, nameReach b s ≤ k := by
  unfold furthestRead
  induction nameOffsets b with
  | nil => simp
  | cons s rest ih =>
    rw [List.foldr_cons, Nat.max_le, ih, List.forall_mem_cons]
    constructor
    · intro ⟨hs, hend, hrest⟩
      exact ⟨hend, hs, hrest⟩
    · intro ⟨hend, hs, hrest⟩
      exact ⟨hs, hend, hrest⟩

section Reach
variable {b : Buffer} {o e k : Nat} {ls : List Label} {m : Message}

theorem encName_cons_iff {l : Label} (hturn : readTurn b o = .label l) :
    EncName b o (l :: ls) e ↔ EncName b (o + 1 + l.length) ls e := by
  constructor
  · intro h
    cases h with
    | label _ _ _ hrest => exact hrest
    | pointer ht hback hs _ =>
      rw [readTurn_eq_pointer_iff.mpr ⟨ht, hback, hs⟩] at hturn
      cases hturn
  · intro hrest
    obtain ⟨h1, h63, hs⟩ := readTurn_eq_label_iff.mp hturn
    exact .label h1 h63 hs hrest

theorem encName_pointer_iff {t : Nat} (hturn : readTurn b o = .pointer t) :
    EncName b o ls e ↔ e = o + 2 ∧ ∃ e', EncName b t ls e' := by
  constructor
  · intro h
    cases h with
    | root hs =>
      rw [readTurn_eq_terminator_iff.mpr hs] at hturn
      cases hturn
    | label h1 h63 hs _ =>
      rw [readTurn_eq_label_iff.mpr ⟨h1, h63, hs⟩] at hturn
      cases hturn
    | pointer ht hback hs hrest =>
      rw [readTurn_eq_pointer_iff.mpr ⟨ht, hback, hs⟩] at hturn
      cases hturn
      exact ⟨rfl, _, hrest⟩
  · intro ⟨he, e', hrest⟩
    obtain ⟨ht, hback, hs⟩ := readTurn_eq_pointer_iff.mp hturn
    rw [he]
    exact .pointer ht hback hs hrest

/-- What the loop body read for a name that survives a cut was spared by it. -/
theorem EncName.turnEnd_le_of_take {ls' : List Label} {e' : Nat}
    (h : EncName (b.take k) o ls' e') (hturn : ∀ s, readTurn b o ≠ .fail s) :
    turnEnd b o ≤ k := by
  by_contra hout
  have hshort := readTurn_take (k := k) hturn
  rw [if_neg hout] at hshort
  exact h.not_fail _ hshort

theorem readTurn_take_of_le (hturn : ∀ s, readTurn b o ≠ .fail s) (hin : turnEnd b o ≤ k) :
    readTurn (b.take k) o = readTurn b o := by
  rw [readTurn_take hturn, if_pos hin]

theorem encName_take_label_iff {l : Label} (hread : readTurn b o = .label l) :
    EncName (b.take k) o (l :: ls) e ↔
      turnEnd b o ≤ k ∧ EncName (b.take k) (o + 1 + l.length) ls e := by
  have hturn : ∀ s, readTurn b o ≠ .fail s := by
    rw [hread]
    nofun
  constructor
  · intro h
    have hin := h.turnEnd_le_of_take hturn
    exact ⟨hin, (encName_cons_iff ((readTurn_take_of_le hturn hin).trans hread)).mp h⟩
  · intro ⟨hin, h⟩
    exact (encName_cons_iff ((readTurn_take_of_le hturn hin).trans hread)).mpr h

theorem encName_take_pointer_iff {t e' : Nat} (hread : readTurn b o = .pointer t)
    (hrest : EncName b t ls e') :
    EncName (b.take k) o ls (o + 2) ↔ turnEnd b o ≤ k ∧ EncName (b.take k) t ls e' := by
  have hturn : ∀ s, readTurn b o ≠ .fail s := by
    rw [hread]
    nofun
  constructor
  · intro h
    have hin := h.turnEnd_le_of_take hturn
    obtain ⟨_, e'', h'⟩ := (encName_pointer_iff ((readTurn_take_of_le hturn hin).trans hread)).mp h
    obtain ⟨_, hend⟩ := h'.of_take.unique hrest
    rw [hend] at h'
    exact ⟨hin, h'⟩
  · intro ⟨hin, h⟩
    exact (encName_pointer_iff ((readTurn_take_of_le hturn hin).trans hread)).mpr ⟨rfl, e', h⟩

/-- A name survives a cut exactly when the cut spares everything that its walk reads. -/
theorem encName_take_iff (h : EncName b o ls e) {n : Nat}
    (hn : Orbit.after (nextCursor b) n o = none) :
    EncName (b.take k) o ls e ↔ reachLoop b n o ≤ k := by
  induction n generalizing o ls e with
  | zero => cases hn
  | succ n ih =>
    rw [Orbit.after_succ] at hn
    have hturn := h.not_fail
    cases h with
    | root hs =>
      have hread := readTurn_eq_terminator_iff.mpr hs
      rw [reachLoop, nextCursor_terminator hread]
      constructor
      · intro h'
        exact h'.turnEnd_le_of_take hturn
      · intro hin
        exact .root (readTurn_eq_terminator_iff.mp ((readTurn_take_of_le hturn hin).trans hread))
    | label h1 h63 hs hrest =>
      have hread := readTurn_eq_label_iff.mpr ⟨h1, h63, hs⟩
      rw [nextCursor_label hread] at hn
      rw [reachLoop, nextCursor_label hread, Nat.max_le, ← ih hrest hn]
      exact encName_take_label_iff hread
    | pointer ht hback hs hrest =>
      have hread := readTurn_eq_pointer_iff.mpr ⟨ht, hback, hs⟩
      rw [nextCursor_pointer hread] at hn
      rw [reachLoop, nextCursor_pointer hread, Nat.max_le, ← ih hrest hn]
      exact encName_take_pointer_iff hread hrest

theorem encName_take_iff_nameReach (h : EncName b o ls e) :
    EncName (b.take k) o ls e ↔ nameReach b o ≤ k :=
  encName_take_iff h (after_budget h.stops)

/-- A name whose walk stays in the first `k` bytes. -/
def SparedName (b : Buffer) (k o : Nat) (ls : List Label) (e : Nat) : Prop :=
  EncName b o ls e ∧ nameReach b o ≤ k

theorem SparedName.take (h : SparedName b k o ls e) : EncName (b.take k) o ls e :=
  (encName_take_iff_nameReach h.1).mpr h.2

/-- With its name spared, a question only needs what lies in front of its end. -/
theorem sparedQuestion_take {q : Question} (h : QuestionAt (SparedName b k) b o q e) (hk : e ≤ k) :
    EncQuestion (b.take k) o q e := by
  obtain ⟨f, hname, hfields, hend⟩ := h
  refine ⟨f, hname.take, hfields.take ?_, hend⟩
  rw [length_questionFields]
  omega

theorem sparedRecord_take {r : ResourceRecord} (h : RecordAt (SparedName b k) b o r e)
    (hk : e ≤ k) : EncRecord (b.take k) o r e := by
  obtain ⟨f, hname, hfields, hlt, hoff, hrdata, hend⟩ := h
  refine ⟨f, hname.take, hfields.take ?_, hlt, hoff, hrdata.take (by omega), hend⟩
  rw [length_recordFields]
  omega

theorem encodes_take_of_names (h : MessageAt (SparedName b k) b m e) (hk : e ≤ k) :
    Encodes (b.take k) m e := by
  obtain ⟨hheader, hcount, o₁, o₂, o₃, hq, ha, hn, hr⟩ := h
  have questionOrder : ∀ i q j, QuestionAt (SparedName b k) b i q j → i ≤ j := by
    intro i q j ⟨f, hname, _, hj⟩
    have := hname.1.lt
    omega
  have recordOrder : ∀ i r j, RecordAt (SparedName b k) b i r j → i ≤ j := by
    intro i r j ⟨f, hname, _, _, _, _, hj⟩
    have := hname.1.lt
    omega
  have question : ∀ i q j, j ≤ k → QuestionAt (SparedName b k) b i q j →
      EncQuestion (b.take k) i q j := fun _ _ _ hj h => sparedQuestion_take h hj
  have record : ∀ i r j, j ≤ k → RecordAt (SparedName b k) b i r j →
      EncRecord (b.take k) i r j := fun _ _ _ hj h => sparedRecord_take h hj
  have h₁ := hq.le questionOrder
  have h₂ := ha.le recordOrder
  have h₃ := hn.le recordOrder
  have h₄ := hr.le recordOrder
  refine ⟨hheader.take ?_, hcount, o₁, o₂, o₃, hq.imp_within questionOrder question (by omega),
    ha.imp_within recordOrder record (by omega), hn.imp_within recordOrder record (by omega),
    hr.imp_within recordOrder record hk⟩
  rw [length_headerBytes]
  omega

/-- A message survives a cut exactly when the cut spares everything that was read. -/
theorem encodes_take_iff (h : Encodes b m e) : Encodes (b.take k) m e ↔ furthestRead b ≤ k := by
  rw [furthestRead_le_iff, consumed_of_encodes h, forall_nameOffsets_iff h]
  constructor
  · intro h'
    have hend := Encodes.end_le h'
    rw [List.length_take] at hend
    refine ⟨by omega, ?_⟩
    apply h'.imp _ fun _ _ => Sits.of_take
    intro i ls j hname
    exact ⟨hname.of_take, (encName_take_iff_nameReach hname.of_take).mp hname⟩
  · intro ⟨hend, hnames⟩
    exact encodes_take_of_names hnames hend

end Reach

section SelfContained
variable {b : Buffer} {out m : Message}

/-- An accepted packet is determined by what was read of it: a prefix is accepted, and then with
the same message and whatever follows it, exactly when it goes as far as the furthest read. So
the bytes behind the end of the message never matter exactly when no name reads past that end. -/
theorem accepted_prefix_iff (h : parse b out = (.OK, m)) :
    consumed b ≤ furthestRead b ∧
    (∀ k out', (parse (b.take k) out').1 = .OK ↔ furthestRead b ≤ k) ∧
    (∀ k x out', furthestRead b ≤ k → parse (b.take k ++ x) out' = (.OK, m)) ∧
    ((∀ x y out', parse (b.take (consumed b) ++ x) out' =
      parse (b.take (consumed b) ++ y) out') ↔ furthestRead b = consumed b) := by
  have henc := encodes_of_parse_consumed h
  have hend : consumed b ≤ furthestRead b := (furthestRead_le_iff.mp (Nat.le_refl _)).1
  have hcut : ∀ k out', (parse (b.take k) out').1 = .OK ↔ furthestRead b ≤ k := by
    intro k out'
    rw [← encodes_take_iff henc]
    constructor
    · intro hok
      rcases parse_shortens h k out' with hsame | hmissing
      · have hshort := encodes_of_parse_consumed hsame
        rwa [← consumed_of_encodes (Encodes.of_take hshort)] at hshort
      · rcases hmissing with hmissing | hmissing
        · rw [hmissing] at hok
          cases hok
        · rw [hmissing] at hok
          cases hok
    · intro hshort
      rw [parse_of_encodes hshort]
  have hbehind : ∀ k x out', furthestRead b ≤ k → parse (b.take k ++ x) out' = (.OK, m) := by
    intro k x out' hk
    exact parse_of_encodes (Encodes.append ((encodes_take_iff henc).mpr hk) x) out'
  refine ⟨hend, hcut, hbehind, ?_⟩
  constructor
  · intro hsame
    have hwhole := hsame (b.drop (consumed b)) [] out
    rw [List.take_append_drop, List.append_nil, h] at hwhole
    have hle := (hcut (consumed b) out).mp (by rw [← hwhole])
    omega
  · intro hreach x y out'
    rw [hbehind _ x out' (by omega), hbehind _ y out' (by omega)]

end SelfContained

/-- The question name is a pointer to the id, which reads as a label of twenty bytes. -/
def idLabelQuery : Buffer :=
  [20, 0, 0, 0, 0, 1, 0, 0, 0, 0, 0, 0, 0xC0, 0, 0, 1, 0, 1, 7, 7, 7, 0]

theorem idLabelQuery_reads_past :
    (parse idLabelQuery Message.blank).1 = .OK ∧ consumed idLabelQuery = 18 ∧
      (parse (idLabelQuery.take 18) Message.blank).1 = .BUFFER_TOO_SMALL ∧
      (parse (idLabelQuery.take 18 ++ [7, 7, 7, 0]) Message.blank).2 ≠
        (parse (idLabelQuery.take 18 ++ [8, 8, 8, 0]) Message.blank).2 := by
  decide +kernel

theorem accepted_prefix_idLabelQuery :
    (parse (idLabelQuery.take 21) Message.blank).1 ≠ .OK ∧
      (parse (idLabelQuery.take 22) Message.blank).1 = .OK := by
  have hparse : parse idLabelQuery Message.blank =
      (.OK, (parse idLabelQuery Message.blank).2) := Prod.ext (by decide +kernel) rfl
  have hreach : furthestRead idLabelQuery = 22 := by decide +kernel
  rw [Ne, (accepted_prefix_iff hparse).2.1, (accepted_prefix_iff hparse).2.1, hreach]
  decide

end DnsPro.Wire
