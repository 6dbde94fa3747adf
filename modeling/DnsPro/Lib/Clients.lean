import DnsPro.Lib.Locking
import Mathlib.Data.List.Induction

/-!
# Programs of several calls

A client makes one call after the other, each depending on what the ones before returned. Between
its calls other threads make theirs. `Client.Plays` picks the calls of one client out of what all
threads have called.
-/

namespace Locking

set_option autoImplicit false

variable {τ O S R A : Type}

inductive Client (O R A : Type) where
  | done (a : A)
  | ask (o : O) (next : R → Client O R A)

/-- All calls in a row, with nobody else around. -/
def Client.alone (apply : O → S → R × S) : Client O R A → S → A × S
  | done a, s => (a, s)
  | ask o next, s => (next (apply o s).1).alone apply (apply o s).2

/-- The calls of thread `i` in the list are those of the client from its first to its last, and
make it end with `a`. -/
inductive Client.Plays (i : τ) : Client O R A → List (τ × O × R) → A → Prop where
  | done (a : A) : Plays i (.done a) [] a
  | ask {o : O} {next : R → Client O R A} {r : R} {calls : List (τ × O × R)} {a : A} :
      Plays i (next r) calls a → Plays i (.ask o next) ((i, o, r) :: calls) a
  | wait {p : Client O R A} {e : τ × O × R} {calls : List (τ × O × R)} {a : A} :
      e.1 ≠ i → Plays i p calls a → Plays i p (e :: calls) a

section Plays
variable {i : τ} {a a' : A} {o : O} {next : R → Client O R A} {calls : List (τ × O × R)}

theorem Client.Plays.of_done (h : Plays i (.done a) calls a') : a' = a := by
  generalize hp : Client.done a = p at h
  induction h with
  | done => exact (Client.done.inj hp).symm
  | ask => cases hp
  | wait _ _ ih => exact ih hp

theorem Client.Plays.of_ask (h : Plays i (.ask o next) calls a) :
    ∃ waited r rest, calls = waited ++ (i, o, r) :: rest ∧ Plays i (next r) rest a := by
  generalize hp : Client.ask o next = p at h
  induction h with
  | done => cases hp
  | @ask _ _ r rest _ hrest =>
    cases hp
    exact ⟨[], r, rest, rfl, hrest⟩
  | @wait _ e _ _ _ _ ih =>
    obtain ⟨waited, r, rest, hcalls, hrest⟩ := ih hp
    exact ⟨e :: waited, r, rest, by rw [hcalls, List.cons_append], hrest⟩

end Plays

section Sequential
variable {apply : O → S → R × S} {start now : S} {calls calls' : List (τ × O × R)}

theorem Sequential.append {mid : S} (h : Sequential apply start calls mid)
    (h' : Sequential apply mid calls' now) : Sequential apply start (calls ++ calls') now := by
  induction h' with
  | nil => simpa using h
  | snoc i o _ ih =>
    rw [← List.append_assoc]
    exact .snoc i o ih

theorem Sequential.of_nil (h : Sequential apply start ([] : List (τ × O × R)) now) :
    now = start := by
  generalize hnil : [] = calls at h
  cases h with
  | nil => rfl
  | snoc => exact absurd hnil.symm (List.append_ne_nil_of_right_ne_nil _ (List.cons_ne_nil _ _))

theorem Sequential.of_snoc {e : τ × O × R} (h : Sequential apply start (calls ++ [e]) now) :
    ∃ mid, Sequential apply start calls mid ∧ (e.2.2, now) = apply e.2.1 mid := by
  generalize hall : calls ++ [e] = all at h
  cases h with
  | nil => exact absurd hall (List.append_ne_nil_of_right_ne_nil _ (List.cons_ne_nil _ _))
  | @snoc history mid i o hhistory =>
    obtain ⟨hfront, hlast⟩ := List.append_inj' hall rfl
    cases hlast
    rw [hfront]
    exact ⟨mid, hhistory, rfl⟩

theorem Sequential.split (h : Sequential apply start (calls ++ calls') now) :
    ∃ mid, Sequential apply start calls mid ∧ Sequential apply mid calls' now := by
  induction calls' using List.reverseRecOn generalizing now with
  | nil =>
    rw [List.append_nil] at h
    exact ⟨now, h, .nil⟩
  | append_singleton calls' e ih =>
    rw [← List.append_assoc] at h
    obtain ⟨last, hfront, hlast⟩ := h.of_snoc
    obtain ⟨mid, hmid, hrest⟩ := ih hfront
    refine ⟨mid, hmid, ?_⟩
    have hsnoc := Sequential.snoc e.1 e.2.1 hrest
    rwa [← hlast] at hsnoc

theorem Sequential.split_cons {e : τ × O × R} (h : Sequential apply start (e :: calls) now) :
    ∃ mid, (e.2.2, mid) = apply e.2.1 start ∧ Sequential apply mid calls now := by
  rw [← List.singleton_append] at h
  obtain ⟨mid, hfirst, hrest⟩ := h.split
  rw [← List.nil_append [e]] at hfirst
  obtain ⟨first, hnil, hone⟩ := hfirst.of_snoc
  rw [hnil.of_nil] at hone
  exact ⟨mid, hone, hrest⟩

/-- What every call of some kind keeps, a sequence of such calls keeps. -/
theorem Sequential.keeps {P : S → Prop} {K : O → Prop}
    (hcall : ∀ o s, K o → P s → P (apply o s).2) (h : Sequential apply start calls now)
    (hkind : ∀ e ∈ calls, K e.2.1) (hstart : P start) : P now := by
  induction h with
  | nil => exact hstart
  | @snoc history now i o _ ih =>
    have hlast := hkind _ (List.mem_append_right history (List.mem_singleton_self _))
    exact hcall o now hlast (ih fun e he => hkind e (List.mem_append_left _ he))

end Sequential

end Locking
