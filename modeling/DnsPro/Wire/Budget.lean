import DnsPro.Wire.NameSpec

/-!
# The name loop without its step counter

`Ends` is the walk of `parseName` with nothing to stop it but its own turns. The counter of the
source is exact: it changes no walk that ends, and it stops precisely the walks that come back to
a cursor, which a label and a pointer back to it can do.
-/

namespace DnsPro.Wire

open Packet DnsPro.Parser

set_option autoImplicit false

/-- The walk from `w` ends with a status, leaving the locals as they are in the last argument. -/
inductive Ends (b : Buffer) : Walk → Status → Walk → Prop where
  | fail {w : Walk} {status : Status} : readTurn b w.cursor = .fail status → Ends b w status w
  | terminator {w : Walk} : readTurn b w.cursor = .terminator → Ends b w .OK w.finish
  | pointer {w w' : Walk} {status : Status} {t : Nat} : readTurn b w.cursor = .pointer t →
      Ends b (w.jump t) status w' → Ends b w status w'
  | label {w w' : Walk} {status : Status} {l : Label} : readTurn b w.cursor = .label l →
      Ends b (w.push l) status w' → Ends b w status w'

section Uncounted
variable {b : Buffer} {w w' : Walk} {status : Status}

theorem Ends.status_ne_loop (h : Ends b w status w') : status ≠ .COMPRESSION_LOOP := by
  induction h with
  | fail hturn => exact (readTurn_fail_ne_loop hturn).1
  | terminator => nofun
  | pointer _ _ ih => exact ih
  | label _ _ ih => exact ih

theorem Ends.stops (h : Ends b w status w') : Orbit.Stops (nextCursor b) w.cursor := by
  induction h with
  | fail hturn => exact Orbit.stops_of_next_none (nextCursor_fail hturn)
  | terminator hturn => exact Orbit.stops_of_next_none (nextCursor_terminator hturn)
  | pointer hturn _ ih => exact .of_next (nextCursor_pointer hturn) ih
  | label hturn _ ih => exact .of_next (nextCursor_label hturn) ih

/-- The loop stops by itself within the steps that the walk over cursors takes. -/
theorem ends_of_after {n : Nat} (h : Orbit.after (nextCursor b) n w.cursor = none) :
    ∃ status w', Ends b w status w' := by
  induction n generalizing w with
  | zero => cases h
  | succ n ih =>
    rw [Orbit.after_succ] at h
    cases hturn : readTurn b w.cursor with
    | fail s => exact ⟨s, w, .fail hturn⟩
    | terminator => exact ⟨.OK, w.finish, .terminator hturn⟩
    | pointer t =>
      rw [nextCursor_pointer hturn] at h
      obtain ⟨s, w', hends⟩ := ih (w := w.jump t) h
      exact ⟨s, w', .pointer hturn hends⟩
    | label l =>
      rw [nextCursor_label hturn] at h
      obtain ⟨s, w', hends⟩ := ih (w := w.push l) h
      exact ⟨s, w', .label hturn hends⟩

theorem exists_ends_iff : (∃ status w', Ends b w status w') ↔
    Orbit.Stops (nextCursor b) w.cursor := by
  constructor
  · intro ⟨_, _, hends⟩
    exact hends.stops
  · intro ⟨n, hn⟩
    exact ends_of_after hn

/-- With a counter, a walk that ends either runs out of steps or ends in the same way. -/
theorem Ends.parseNameLoop (h : Ends b w status w') (n : Nat)
    (hbudget : (parseNameLoop b n w).1 ≠ .COMPRESSION_LOOP) :
    parseNameLoop b n w = (status, w') := by
  induction h generalizing n with
  | fail hturn =>
    cases n with
    | zero => exact absurd rfl hbudget
    | succ n => simp only [Parser.parseNameLoop, hturn]
  | terminator hturn =>
    cases n with
    | zero => exact absurd rfl hbudget
    | succ n => simp only [Parser.parseNameLoop, hturn]
  | pointer hturn _ ih =>
    cases n with
    | zero => exact absurd rfl hbudget
    | succ n =>
      simp only [Parser.parseNameLoop, hturn] at hbudget ⊢
      exact ih n hbudget
  | label hturn _ ih =>
    cases n with
    | zero => exact absurd rfl hbudget
    | succ n =>
      simp only [Parser.parseNameLoop, hturn] at hbudget ⊢
      exact ih n hbudget

/-- The budget of the source is enough for every walk that ends. -/
theorem Ends.parseNameLoop_budget (h : Ends b w status w') :
    Parser.parseNameLoop b (b.length + 1) w = (status, w') := by
  apply h.parseNameLoop
  rw [Ne, parseNameLoop_status_loop_iff, not_not]
  exact after_budget h.stops

end Uncounted

/-! ### `parseName` -/

section ParseName
variable {b : Buffer} {offset : Nat}

theorem parseName_of_ends {status : Status} {w : Walk} (h : Ends b (Walk.start offset) status w)
    (out : Name) :
    parseName b offset out = (status, if status = .OK then w.endOffset else offset,
      { out with labels := w.labels }) := by
  unfold parseName
  rw [h.parseNameLoop_budget]
  split
  · rename_i heq
    cases heq
    rfl
  · rename_i s w' hne heq
    cases heq
    rw [if_neg hne]

theorem parseName_status_loop_iff (out : Name) :
    (parseName b offset out).1 = .COMPRESSION_LOOP ↔
      ∀ status w, ¬ Ends b (Walk.start offset) status w := by
  constructor
  · intro hloop status w hends
    rw [parseName_of_ends hends] at hloop
    exact hends.status_ne_loop hloop
  · intro hnever
    have hafter : Orbit.after (nextCursor b) (b.length + 1) offset ≠ none := by
      intro hnone
      obtain ⟨s, w, hends⟩ := ends_of_after (w := Walk.start offset) hnone
      exact hnever s w hends
    have hloop := (parseNameLoop_status_loop_iff (b.length + 1) (Walk.start offset)).mpr hafter
    unfold parseName
    split
    · rename_i heq
      rw [heq] at hloop
      cases hloop
    · rename_i heq
      rw [heq] at hloop
      exact hloop

theorem parseName_failed_offset {out : Name} (h : (parseName b offset out).1 ≠ .OK) :
    (parseName b offset out).2.1 = offset := by
  unfold parseName at h ⊢
  split
  · rename_i heq
    rw [heq] at h
    exact absurd rfl h
  · rfl

/-- The step budget is exact: a walk that ends by itself gives its own status, labels and offset,
and `COMPRESSION_LOOP` is the answer for the walks that never end, which are those that come back
to a cursor. A failure leaves the offset alone. -/
theorem step_budget_exact (b : Buffer) (offset : Nat) (out : Name) :
    (∀ status w, Ends b (Walk.start offset) status w →
      parseName b offset out = (status, if status = .OK then w.endOffset else offset,
        { out with labels := w.labels })) ∧
    ((parseName b offset out).1 = .COMPRESSION_LOOP ↔
      ∀ status w, ¬ Ends b (Walk.start offset) status w) ∧
    ((∀ status w, ¬ Ends b (Walk.start offset) status w) ↔
      Orbit.Revisits (nextCursor b) offset) ∧
    ((parseName b offset out).1 ≠ .OK → (parseName b offset out).2.1 = offset) := by
  refine ⟨fun _ _ h => parseName_of_ends h out, parseName_status_loop_iff out, ?_,
    parseName_failed_offset⟩
  rw [← Orbit.not_stops_iff_revisits (Finset.range b.length)
    fun i j hij => Finset.mem_range.mpr (lt_length_of_nextCursor hij)]
  have hstops := exists_ends_iff (b := b) (w := Walk.start offset)
  constructor
  · intro hnever hstop
    obtain ⟨s, w, hends⟩ := hstops.mpr hstop
    exact hnever s w hends
  · intro hnot s w hends
    exact hnot hends.stops

/-- A label and a pointer back to it: the walk is at its first cursor again after two turns. -/
theorem oscillation_reported :
    (parseName [1, 97, 0xC0, 0, 0] 2 ⟨[]⟩).1 = .COMPRESSION_LOOP := by
  have hexact := step_budget_exact [1, 97, 0xC0, 0, 0] 2 ⟨[]⟩
  apply hexact.2.1.mpr
  apply hexact.2.2.1.mpr
  exact ⟨0, 2, 2, by decide, by decide +kernel, by decide +kernel⟩

end ParseName

end DnsPro.Wire
