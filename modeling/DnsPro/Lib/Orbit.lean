import Mathlib.Data.Finset.Card
import Mathlib.Logic.Relation

/-!
# Deterministic walks that may stop

`next` moves from a position to the next one or stops. A walk that stops at all never visits a
position twice, so it stops after at most as many moves as there are positions to move from.
Costs of moves add up along a walk.
-/

namespace Orbit

set_option autoImplicit false

universe u
variable {κ : Type u} (next : κ → Option κ)

/-- The position after `n` moves; `none` once the walk has stopped before that. -/
def after : Nat → κ → Option κ
  | 0, k => some k
  | n + 1, k => (next k).bind (after n)

/-- The walk from `k` comes to an end. -/
def Stops (k : κ) : Prop := ∃ n, after next n k = none

/-- The walk from `k` is at one position at two different times. -/
def Revisits (k : κ) : Prop :=
  ∃ i j x, i < j ∧ after next i k = some x ∧ after next j k = some x

variable {next} {k x : κ} {m n : Nat}

@[simp] theorem after_zero : after next 0 k = some k := rfl

theorem after_succ : after next (n + 1) k = (next k).bind (after next n) := rfl

theorem after_add (m n : Nat) (k : κ) :
    after next (m + n) k = (after next m k).bind (after next n) := by
  induction m generalizing k with
  | zero => simp
  | succ m ih =>
    rw [Nat.succ_add, after_succ, after_succ]
    cases next k with
    | none => rfl
    | some k' => exact ih k'

theorem after_none_of_le (h : after next m k = none) (hle : m ≤ n) : after next n k = none := by
  obtain ⟨d, rfl⟩ := Nat.exists_eq_add_of_le hle
  rw [after_add, h]
  rfl

theorem Stops.of_next {k' : κ} (hk : next k = some k') (h : Stops next k') : Stops next k := by
  obtain ⟨n, hn⟩ := h
  exact ⟨n + 1, by rw [after_succ, hk]; exact hn⟩

theorem stops_of_next_none (hk : next k = none) : Stops next k :=
  ⟨1, by rw [after_succ, hk]; rfl⟩

theorem after_mul_of_cycle {d : Nat} (h : after next d x = some x) (m : Nat) :
    after next (m * d) x = some x := by
  induction m with
  | zero => simp
  | succ m ih => rw [Nat.succ_mul, after_add, ih]; exact h

theorem not_stops_of_cycle {d : Nat} (hd : 0 < d) (h : after next d x = some x) :
    ¬ Stops next x := by
  intro ⟨n, hn⟩
  have hle : n ≤ n * d := Nat.le_mul_of_pos_right n hd
  have := after_none_of_le hn hle
  rw [after_mul_of_cycle h] at this
  exact absurd this (by simp)

theorem Stops.of_after (h : Stops next k) (hx : after next m k = some x) : Stops next x := by
  obtain ⟨n, hn⟩ := h
  refine ⟨n, ?_⟩
  have := after_none_of_le hn (Nat.le_add_left n m)
  rwa [after_add, hx] at this

theorem Revisits.not_stops (h : Revisits next k) : ¬ Stops next k := by
  intro hstops
  obtain ⟨i, j, x, hij, hi, hj⟩ := h
  obtain ⟨d, rfl⟩ := Nat.exists_eq_add_of_lt hij
  rw [Nat.add_assoc, after_add, hi] at hj
  exact not_stops_of_cycle (Nat.succ_pos d) hj (hstops.of_after hi)

/-- Pigeonhole: a walk that moves from `S` only and makes more moves than that has positions to
move from comes back to one of them. -/
theorem revisits_of_long (S : Finset κ) (hS : ∀ i j, next i = some j → i ∈ S)
    (hlong : after next (S.card + 1) k ≠ none) : Revisits next k := by
  obtain ⟨y, hy⟩ := Option.ne_none_iff_exists'.mp hlong
  have visited : ∀ i, i ≤ S.card → ∃ x, after next i k = some x ∧ x ∈ S := by
    intro i hi
    obtain ⟨d, hd⟩ := Nat.exists_eq_add_of_le hi
    rw [hd, Nat.add_assoc, after_add] at hy
    obtain ⟨x, hx, hxy⟩ := Option.bind_eq_some_iff.mp hy
    rw [after_succ] at hxy
    obtain ⟨x', hx', _⟩ := Option.bind_eq_some_iff.mp hxy
    exact ⟨x, hx, hS x x' hx'⟩
  obtain ⟨i, hi, j, hj, hij, heq⟩ := Finset.exists_ne_map_eq_of_card_lt_of_maps_to
    (s := Finset.range (S.card + 1)) (t := S) (f := fun i => (after next i k).getD k)
    (by simp) (by
      intro i hi
      obtain ⟨x, hx, hxS⟩ := visited i (Nat.lt_succ_iff.mp (Finset.mem_range.mp hi))
      simpa [hx] using hxS)
  obtain ⟨x, hx, _⟩ := visited i (Nat.lt_succ_iff.mp (Finset.mem_range.mp hi))
  obtain ⟨x', hx', _⟩ := visited j (Nat.lt_succ_iff.mp (Finset.mem_range.mp hj))
  have hxx : x = x' := by simpa [hx, hx'] using heq
  subst hxx
  rcases Nat.lt_or_gt_of_ne hij with hlt | hgt
  · exact ⟨i, j, x, hlt, hx, hx'⟩
  · exact ⟨j, i, x, hgt, hx', hx⟩

/-- If every move starts in `S`, a walk that stops makes at most `S.card` moves. -/
theorem Stops.within (S : Finset κ) (hS : ∀ i j, next i = some j → i ∈ S) (h : Stops next k) :
    after next (S.card + 1) k = none := by
  by_contra hlong
  exact (revisits_of_long S hS hlong).not_stops h

theorem not_stops_iff_revisits (S : Finset κ) (hS : ∀ i j, next i = some j → i ∈ S) :
    ¬ Stops next k ↔ Revisits next k := by
  constructor
  · intro h
    apply revisits_of_long S hS
    intro hnone
    exact h ⟨_, hnone⟩
  · intro h
    exact h.not_stops

/-! ### Walks as paths -/

theorem reflTransGen_iff_after :
    Relation.ReflTransGen (fun i j => next i = some j) k x ↔ ∃ n, after next n k = some x := by
  constructor
  · intro h
    induction h with
    | refl => exact ⟨0, rfl⟩
    | @tail y z _ hstep ih =>
      obtain ⟨n, hn⟩ := ih
      refine ⟨n + 1, ?_⟩
      rw [after_add, hn, Option.bind_some, after_succ, hstep]
      rfl
  · intro ⟨n, hn⟩
    induction n generalizing k with
    | zero =>
      cases hn
      exact .refl
    | succ n ih =>
      rw [after_succ] at hn
      obtain ⟨k', hk, hrest⟩ := Option.bind_eq_some_iff.mp hn
      exact .head hk (ih hrest)

theorem transGen_iff_after :
    Relation.TransGen (fun i j => next i = some j) k x ↔ ∃ n, after next (n + 1) k = some x := by
  rw [Relation.TransGen.head'_iff]
  constructor
  · intro ⟨k', hk, hpath⟩
    obtain ⟨n, hn⟩ := reflTransGen_iff_after.mp hpath
    exact ⟨n, by rw [after_succ, hk]; exact hn⟩
  · intro ⟨n, hn⟩
    rw [after_succ] at hn
    obtain ⟨k', hk, hrest⟩ := Option.bind_eq_some_iff.mp hn
    exact ⟨k', hk, reflTransGen_iff_after.mpr ⟨n, hrest⟩⟩

/-- Being at one position twice is reaching a position that lies on a cycle. -/
theorem revisits_iff_cycle : Revisits next k ↔
    ∃ x, Relation.ReflTransGen (fun i j => next i = some j) k x ∧
      Relation.TransGen (fun i j => next i = some j) x x := by
  constructor
  · intro ⟨i, j, x, hij, hi, hj⟩
    obtain ⟨d, hd⟩ := Nat.exists_eq_add_of_lt hij
    rw [hd, Nat.add_assoc, after_add, hi] at hj
    exact ⟨x, reflTransGen_iff_after.mpr ⟨i, hi⟩, transGen_iff_after.mpr ⟨d, hj⟩⟩
  · intro ⟨x, hpath, hcycle⟩
    obtain ⟨i, hi⟩ := reflTransGen_iff_after.mp hpath
    obtain ⟨d, hd⟩ := transGen_iff_after.mp hcycle
    refine ⟨i, i + (d + 1), x, by omega, hi, ?_⟩
    rw [after_add, hi]
    exact hd

/-! ### What the moves add up to -/

section Sums

/-- The cost of the first `n` moves together. -/
def total (next : κ → Option κ) (cost : κ → κ → Nat) : Nat → κ → Nat
  | 0, _ => 0
  | n + 1, k =>
    match next k with
    | none => 0
    | some k' => cost k k' + total next cost n k'

variable {cost : κ → κ → Nat}

theorem total_of_none (hk : next k = none) : total next cost (n + 1) k = 0 := by
  rw [total, hk]

theorem total_of_some {k' : κ} (hk : next k = some k') :
    total next cost (n + 1) k = cost k k' + total next cost n k' := by
  rw [total, hk]

/-- A walk of at most `m` moves costs at most `m` times the dearest move. -/
theorem total_le {B : Nat} (hcost : ∀ i j, next i = some j → cost i j ≤ B)
    (h : after next (m + 1) k = none) (n : Nat) : total next cost n k ≤ m * B := by
  induction n generalizing m k with
  | zero => exact Nat.zero_le _
  | succ n ih =>
    cases hk : next k with
    | none =>
      rw [total_of_none hk]
      exact Nat.zero_le _
    | some k' =>
      rw [after_succ, hk] at h
      cases m with
      | zero => cases h
      | succ m =>
        rw [total_of_some hk, Nat.succ_mul, Nat.add_comm]
        exact Nat.add_le_add (ih h) (hcost k k' hk)

end Sums

end Orbit
