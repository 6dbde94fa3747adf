import DnsPro.Lib.Orbit
import DnsPro.Wire.ReaderSpec
import Mathlib.Data.Finset.Range

/-!
# The name loop against the grammar

`readTurn` is stated once in arithmetic; every fact about the loop follows from what a turn can
be. The step budget is handled by the walk over cursors: a name that ends at all ends within one
turn per byte of the buffer.
-/

namespace DnsPro.Wire

open Packet DnsPro.Parser Layout Word

set_option autoImplicit false

section Turn
variable {b : Buffer} {c t : Nat} {l : Label}

/-- The loop body with its masks read as comparisons on the length byte. -/
theorem readTurn_eq (b : Buffer) (c : Nat) :
    readTurn b c =
      if b.length ≤ c then .fail .BUFFER_TOO_SMALL
      else if 192 ≤ (byteAt b c).toNat then
        if b.length < c + 2 then .fail .BUFFER_TOO_SMALL
        else if c ≤ (byteAt b c).toNat % 64 * 256 + (byteAt b (c + 1)).toNat then
          .fail .COMPRESSION_FORWARD_POINTER
        else .pointer ((byteAt b c).toNat % 64 * 256 + (byteAt b (c + 1)).toNat)
      else if (byteAt b c).toNat = 0 then .terminator
      else if 64 ≤ (byteAt b c).toNat then .fail .MALFORMED_NAME
      else if b.length < c + 1 + (byteAt b c).toNat then .fail .BUFFER_TOO_SMALL
      else .label (bytesFrom b (c + 1) (byteAt b c).toNat) := by
  have hzero (x : UInt8) : x = 0 ↔ x.toNat = 0 := by
    rw [← UInt8.toNat_inj]
    rfl
  have hreserved (x : UInt8) : x &&& 0xC0 ≠ 0x00 ↔ 64 ≤ x.toNat := by
    rw [Ne, and_192_eq_zero_iff, Nat.not_lt]
  simp only [readTurn, and_192_eq_192_iff, toNat_and_63, shiftLeft_8_or, hzero, hreserved,
    ge_iff_le, gt_iff_lt]

/-- Everything a turn can be; when it does not fail, what it read lies inside the buffer. -/
theorem readTurn_spec (b : Buffer) (c : Nat) :
    match readTurn b c with
    | .fail s => s = .BUFFER_TOO_SMALL ∨ s = .MALFORMED_NAME ∨ s = .COMPRESSION_FORWARD_POINTER
    | .pointer t => c + 2 ≤ b.length ∧ t < c ∧ 192 ≤ (byteAt b c).toNat ∧
        t = (byteAt b c).toNat % 64 * 256 + (byteAt b (c + 1)).toNat
    | .terminator => c < b.length ∧ (byteAt b c).toNat = 0
    | .label l => 1 ≤ (byteAt b c).toNat ∧ (byteAt b c).toNat < 64 ∧
        c + 1 + (byteAt b c).toNat ≤ b.length ∧ l = bytesFrom b (c + 1) (byteAt b c).toNat := by
  rw [readTurn_eq]
  split_ifs
  · exact Or.inl rfl
  · exact Or.inl rfl
  · exact Or.inr (Or.inr rfl)
  · exact ⟨by omega, by omega, by omega, rfl⟩
  · exact ⟨by omega, by omega⟩
  · exact Or.inr (Or.inl rfl)
  · exact Or.inl rfl
  · exact ⟨by omega, by omega, by omega, rfl⟩

theorem readTurn_eq_terminator_iff : readTurn b c = .terminator ↔ Sits b c [0] := by
  rw [sits_singleton_iff_byteAt, ← UInt8.toNat_inj]
  constructor
  · intro h
    have hspec := readTurn_spec b c
    rw [h] at hspec
    obtain ⟨hin, hzero⟩ := hspec
    exact ⟨by omega, hzero⟩
  · intro ⟨hin, hzero⟩
    have hzero : (byteAt b c).toNat = 0 := hzero
    rw [readTurn_eq, if_neg (by omega), if_neg (by omega), if_pos hzero]

theorem sits_pair_iff_byteAt {x y : UInt8} :
    Sits b c [x, y] ↔ c + 2 ≤ b.length ∧ byteAt b c = x ∧ byteAt b (c + 1) = y := by
  have window : Sits b c [x, y] ↔ c + 2 ≤ b.length ∧ [byteAt b c, byteAt b (c + 1)] = [x, y] :=
    sits_iff_bytesFrom (by simp)
  simpa using window

theorem readTurn_eq_pointer_iff :
    readTurn b c = .pointer t ↔
      t < 2 ^ 14 ∧ t < c ∧ Sits b c [UInt8.ofNat (192 + t / 2 ^ 8), UInt8.ofNat t] := by
  have hhi := (byteAt b c).toNat_lt
  have hlo := (byteAt b (c + 1)).toNat_lt
  rw [sits_pair_iff_byteAt, ← UInt8.toNat_inj, ← UInt8.toNat_inj, UInt8.toNat_ofNat',
    UInt8.toNat_ofNat']
  constructor
  · intro h
    have hspec := readTurn_spec b c
    rw [h] at hspec
    obtain ⟨hin, hback, hmask, htarget⟩ := hspec
    omega
  · intro ⟨ht, htc, hin, hx, hy⟩
    rw [readTurn_eq, if_neg (by omega), if_pos (by omega), if_neg (by omega), if_neg (by omega)]
    congr 1
    omega

theorem readTurn_eq_label_iff :
    readTurn b c = .label l ↔
      1 ≤ l.length ∧ l.length ≤ 63 ∧ Sits b c (UInt8.ofNat l.length :: l) := by
  constructor
  · intro h
    have hspec := readTurn_spec b c
    rw [h] at hspec
    obtain ⟨hpos, hshort, hin, hbytes⟩ := hspec
    have hlength : l.length = (byteAt b c).toNat := by rw [hbytes, length_bytesFrom]
    refine ⟨by omega, by omega, ?_⟩
    rw [hlength, UInt8.ofNat_toNat, ← List.singleton_append, sits_append_iff]
    refine ⟨sits_singleton_iff_byteAt.mpr ⟨by omega, rfl⟩, ?_⟩
    rw [hbytes]
    exact sits_bytesFrom (by simp; omega)
  · intro ⟨h1, h63, hs⟩
    rw [← List.singleton_append, sits_append_iff] at hs
    obtain ⟨hin, hbyte⟩ := sits_singleton_iff_byteAt.mp hs.1
    have hne : l ≠ [] := List.ne_nil_of_length_pos h1
    obtain ⟨hle, heq⟩ := (sits_iff_bytesFrom hne).mp hs.2
    simp only [List.length_singleton] at hle heq
    have hlen : (byteAt b c).toNat = l.length := by
      rw [hbyte, UInt8.toNat_ofNat']
      omega
    rw [readTurn_eq, hlen, if_neg (by omega), if_neg (by omega), if_neg (by omega),
      if_neg (by omega), if_neg (by omega), heq]

/-- The failures of a turn; running out of steps is not one of them. -/
theorem readTurn_fail_ne_loop {s : Status} (h : readTurn b c = .fail s) :
    s ≠ .COMPRESSION_LOOP ∧ s ≠ .OK := by
  have hspec := readTurn_spec b c
  rw [h] at hspec
  rcases hspec with rfl | rfl | rfl
  · exact ⟨nofun, nofun⟩
  · exact ⟨nofun, nofun⟩
  · exact ⟨nofun, nofun⟩

theorem lt_length_of_readTurn (h : ∀ s, readTurn b c ≠ .fail s) : c < b.length := by
  by_contra hge
  apply h .BUFFER_TOO_SMALL
  rw [readTurn_eq, if_pos (by omega)]

end Turn

/-! ### The walk over cursors -/

/-- Where the loop goes from a cursor, step counter left aside; `none` where the name ends, well
or badly. -/
def nextCursor (b : Buffer) (c : Nat) : Option Nat :=
  match readTurn b c with
  | .pointer t => some t
  | .label l => some (c + 1 + l.length)
  | .terminator => none
  | .fail _ => none

section Next
variable {b : Buffer} {c t : Nat} {l : Label}

theorem nextCursor_fail {s : Status} (h : readTurn b c = .fail s) : nextCursor b c = none := by
  rw [nextCursor, h]

theorem nextCursor_terminator (h : readTurn b c = .terminator) : nextCursor b c = none := by
  rw [nextCursor, h]

theorem nextCursor_pointer (h : readTurn b c = .pointer t) : nextCursor b c = some t := by
  rw [nextCursor, h]

theorem nextCursor_label (h : readTurn b c = .label l) :
    nextCursor b c = some (c + 1 + l.length) := by
  rw [nextCursor, h]

end Next

section Loop
variable {b : Buffer}

theorem lt_length_of_nextCursor {c c' : Nat} (h : nextCursor b c = some c') : c < b.length := by
  apply lt_length_of_readTurn
  intro s hs
  rw [nextCursor_fail hs] at h
  cases h

/-- The budget of `parseName` covers every walk that stops. -/
theorem after_budget {c : Nat} (h : Orbit.Stops (nextCursor b) c) :
    Orbit.after (nextCursor b) (b.length + 1) c = none := by
  have := h.within (Finset.range b.length)
    fun i j hij => Finset.mem_range.mpr (lt_length_of_nextCursor hij)
  rwa [Finset.card_range] at this

/-- The counter is what stops the loop exactly when the walk would go on. -/
theorem parseNameLoop_status_loop_iff (n : Nat) (w : Walk) :
    (parseNameLoop b n w).1 = .COMPRESSION_LOOP ↔
      Orbit.after (nextCursor b) n w.cursor ≠ none := by
  induction n generalizing w with
  | zero => simp [parseNameLoop]
  | succ n ih =>
    rw [Orbit.after_succ]
    cases hturn : readTurn b w.cursor with
    | fail s =>
      have := (readTurn_fail_ne_loop hturn).1
      simp [parseNameLoop, nextCursor, hturn, this]
    | pointer t =>
      simp only [parseNameLoop, nextCursor, hturn]
      exact ih (w.jump t)
    | terminator => simp [parseNameLoop, nextCursor, hturn]
    | label l =>
      simp only [parseNameLoop, nextCursor, hturn]
      exact ih (w.push l)

/-- Where the caller resumes if the name itself ends at `e`. -/
def resumeAt (w : Walk) (e : Nat) : Nat :=
  if w.jumped then w.resumeOffset else e

theorem resumeAt_jump (w : Walk) (t e : Nat) :
    resumeAt (w.jump t) e = resumeAt w (w.cursor + 2) := by
  simp [resumeAt, Walk.jump]

theorem resumeAt_push (w : Walk) (l : Label) (e : Nat) :
    resumeAt (w.push l) e = resumeAt w e := rfl

theorem endOffset_finish (w : Walk) : w.finish.endOffset = resumeAt w (w.cursor + 1) := rfl

/-- A loop that ends well has read an encoding in the sense of the grammar. -/
theorem encName_of_parseNameLoop {n : Nat} {w w' : Walk} (h : parseNameLoop b n w = (.OK, w')) :
    ∃ ls e, EncName b w.cursor ls e ∧ w'.labels = w.labels ++ ls ∧
      w'.endOffset = resumeAt w e := by
  induction n generalizing w with
  | zero => cases h
  | succ n ih =>
    cases hturn : readTurn b w.cursor with
    | fail s =>
      simp only [parseNameLoop, hturn] at h
      cases h
      exact absurd rfl (readTurn_fail_ne_loop hturn).2
    | pointer t =>
      simp only [parseNameLoop, hturn] at h
      obtain ⟨ls, e, henc, hlabels, hend⟩ := ih h
      obtain ⟨ht, hback, hs⟩ := readTurn_eq_pointer_iff.mp hturn
      rw [resumeAt_jump] at hend
      exact ⟨ls, w.cursor + 2, .pointer ht hback hs henc, hlabels, hend⟩
    | terminator =>
      simp only [parseNameLoop, hturn] at h
      cases h
      refine ⟨[], w.cursor + 1, .root (readTurn_eq_terminator_iff.mp hturn), ?_, ?_⟩
      · simp [Walk.finish]
      · rw [endOffset_finish]
    | label l =>
      simp only [parseNameLoop, hturn] at h
      obtain ⟨ls, e, henc, hlabels, hend⟩ := ih h
      obtain ⟨h1, h63, hs⟩ := readTurn_eq_label_iff.mp hturn
      refine ⟨l :: ls, e, .label h1 h63 hs henc, ?_, ?_⟩
      · simpa [Walk.push] using hlabels
      · rwa [resumeAt_push] at hend

theorem EncName.stops {o e : Nat} {ls : List Label} (h : EncName b o ls e) :
    Orbit.Stops (nextCursor b) o := by
  induction h with
  | root hs =>
    exact Orbit.stops_of_next_none (nextCursor_terminator (readTurn_eq_terminator_iff.mpr hs))
  | label h1 h63 hs _ ih =>
    exact .of_next (nextCursor_label (readTurn_eq_label_iff.mpr ⟨h1, h63, hs⟩)) ih
  | pointer ht hback hs _ ih =>
    exact .of_next (nextCursor_pointer (readTurn_eq_pointer_iff.mpr ⟨ht, hback, hs⟩)) ih

/-- From an encoding the loop either runs out of steps or decodes it. -/
theorem parseNameLoop_of_encName {o e : Nat} {ls : List Label} (h : EncName b o ls e)
    (n : Nat) (w : Walk) (hw : w.cursor = o)
    (hbudget : (parseNameLoop b n w).1 ≠ .COMPRESSION_LOOP) :
    ∃ w', parseNameLoop b n w = (.OK, w') ∧ w'.labels = w.labels ++ ls ∧
      w'.endOffset = resumeAt w e := by
  induction h generalizing n w with
  | root hs =>
    subst hw
    cases n with
    | zero => exact absurd rfl hbudget
    | succ n =>
      refine ⟨w.finish, ?_, ?_, endOffset_finish w⟩
      · simp only [parseNameLoop, readTurn_eq_terminator_iff.mpr hs]
      · simp [Walk.finish]
  | label h1 h63 hs _ ih =>
    subst hw
    cases n with
    | zero => exact absurd rfl hbudget
    | succ n =>
      have hturn := readTurn_eq_label_iff.mpr ⟨h1, h63, hs⟩
      simp only [parseNameLoop, hturn] at hbudget ⊢
      obtain ⟨w', hok, hlabels, hend⟩ := ih n (w.push _) rfl hbudget
      refine ⟨w', hok, ?_, ?_⟩
      · simpa [Walk.push] using hlabels
      · rwa [resumeAt_push] at hend
  | pointer ht hback hs _ ih =>
    subst hw
    cases n with
    | zero => exact absurd rfl hbudget
    | succ n =>
      have hturn := readTurn_eq_pointer_iff.mpr ⟨ht, hback, hs⟩
      simp only [parseNameLoop, hturn] at hbudget ⊢
      obtain ⟨w', hok, hlabels, hend⟩ := ih n (w.jump _) rfl hbudget
      rw [resumeAt_jump] at hend
      exact ⟨w', hok, hlabels, hend⟩

end Loop

/-! ### `parseName` -/

section ParseName
variable {b : Buffer} {o e : Nat}

/-- `parseName` accepts exactly the encodings of the grammar, whatever `out` held before. -/
theorem parseName_eq_ok_iff {out name : Name} :
    parseName b o out = (.OK, e, name) ↔ EncName b o name.labels e := by
  constructor
  · intro h
    unfold parseName at h
    split at h
    · rename_i w hloop
      obtain ⟨ls, e', henc, hlabels, hend⟩ := encName_of_parseNameLoop hloop
      cases h
      rw [hend, hlabels]
      simpa [Walk.start, resumeAt] using henc
    · rename_i s w hne hloop
      cases h
      exact absurd rfl hne
  · intro henc
    have hbudget : (parseNameLoop b (b.length + 1) (Walk.start o)).1 ≠ .COMPRESSION_LOOP := by
      rw [Ne, parseNameLoop_status_loop_iff, not_not]
      exact after_budget henc.stops
    obtain ⟨w', hok, hlabels, hend⟩ :=
      parseNameLoop_of_encName henc _ (Walk.start o) rfl hbudget
    have hlabels : w'.labels = name.labels := by simpa [Walk.start] using hlabels
    have hend : w'.endOffset = e := by simpa [Walk.start, resumeAt] using hend
    unfold parseName
    rw [hok]
    simp only [hlabels, hend]

theorem EncName.unique {e' : Nat} {ls ls' : List Label} (h : EncName b o ls e)
    (h' : EncName b o ls' e') : ls = ls' ∧ e = e' := by
  have hok : parseName b o ⟨[]⟩ = (.OK, e, ⟨ls⟩) := parseName_eq_ok_iff.mpr h
  have hok' : parseName b o ⟨[]⟩ = (.OK, e', ⟨ls'⟩) := parseName_eq_ok_iff.mpr h'
  rw [hok] at hok'
  cases hok'
  exact ⟨rfl, rfl⟩

theorem readName_eq_ok_iff {name : Name} :
    readName b o = .ok (name, e) ↔ EncName b o name.labels e := by
  have hspec : parseName b o ⟨[]⟩ = (.OK, e, name) ↔ _ := parseName_eq_ok_iff
  rw [← hspec]
  unfold readName
  split
  · rename_i h
    rw [h]
    simp [and_comm]
  · rename_i s o' n hne h
    constructor
    · intro hbad
      cases hbad
    · intro hok
      rw [h] at hok
      cases hok
      exact absurd rfl hne

end ParseName

end DnsPro.Wire
