import Mathlib.Algebra.GroupWithZero.Nat
import Mathlib.Data.List.Basic

/-!
# Data laid out in a list

`Sits b o xs`: the elements `xs` stand in `b` from position `o` on. `Chain E o as o'`: the
entries `as` follow one another without a gap from `o` to `o'`, where `E i a j` says that one
entry `a` occupies the positions from `i` to `j`.
-/

namespace Layout

set_option autoImplicit false

universe u v
variable {α : Type u} {β : Type v}

def Sits (b : List α) (o : Nat) (xs : List α) : Prop := xs <+: b.drop o

section Sits
variable {b xs ys : List α} {o : Nat}

@[simp] theorem sits_nil : Sits b o [] := List.nil_prefix

theorem sits_iff_take : Sits b o xs ↔ (b.drop o).take xs.length = xs :=
  List.prefix_iff_eq_take.trans eq_comm

theorem sits_append_iff : Sits b o (xs ++ ys) ↔ Sits b o xs ∧ Sits b (o + xs.length) ys := by
  unfold Sits
  constructor
  · intro ⟨t, ht⟩
    refine ⟨⟨ys ++ t, by simpa using ht⟩, t, ?_⟩
    rw [← List.drop_drop, ← ht, List.append_assoc, List.drop_left]
  · intro ⟨⟨t, ht⟩, ⟨t', ht'⟩⟩
    rw [← List.drop_drop, ← ht, List.drop_left] at ht'
    exact ⟨t', by rw [List.append_assoc, ht', ht]⟩

theorem sits_singleton_iff {x : α} : Sits b o [x] ↔ b[o]? = some x := by
  rw [sits_iff_take, ← List.head?_drop]
  cases b.drop o <;> simp

theorem sits_cons_iff {x : α} : Sits b o (x :: xs) ↔ b[o]? = some x ∧ Sits b (o + 1) xs := by
  rw [← sits_singleton_iff, ← List.singleton_append, sits_append_iff]
  rfl

theorem Sits.end_le_of_le (h : Sits b o xs) (ho : o ≤ b.length) : o + xs.length ≤ b.length := by
  have := List.IsPrefix.length_le h
  rw [List.length_drop] at this
  omega

theorem Sits.end_le (h : Sits b o xs) (hne : xs ≠ []) : o + xs.length ≤ b.length := by
  have hpos := List.length_pos_of_ne_nil hne
  have := List.IsPrefix.length_le h
  rw [List.length_drop] at this
  omega

theorem sits_iff_getElem? : Sits b o xs ↔ ∀ j < xs.length, b[o + j]? = xs[j]? := by
  induction xs generalizing o with
  | nil => simp
  | cons x xs ih =>
    rw [sits_cons_iff, ih]
    constructor
    · intro ⟨hx, hxs⟩ j hj
      cases j with
      | zero => simpa using hx
      | succ j =>
        have := hxs j (by simpa using hj)
        rwa [Nat.add_right_comm] at this
    · intro h
      refine ⟨by simpa using h 0 (by simp), fun j hj => ?_⟩
      have := h (j + 1) (by simpa using hj)
      rwa [Nat.add_right_comm]

/-- A stretch moves along with the elements it consists of. -/
theorem Sits.move {d : List α} {i : Nat} (h : Sits b o xs)
    (hcopy : ∀ j < xs.length, d[i + j]? = b[o + j]?) : Sits d i xs := by
  rw [sits_iff_getElem?] at h ⊢
  intro j hj
  rw [hcopy j hj, h j hj]

theorem sits_zero_iff : Sits b 0 xs ↔ b.take xs.length = xs := sits_iff_take

theorem Sits.append_right (h : Sits b o xs) (back : List α) : Sits (b ++ back) o xs := by
  cases xs with
  | nil => exact sits_nil
  | cons x xs =>
    have hle : o ≤ b.length := by
      have := h.end_le (by simp)
      omega
    unfold Sits
    rw [List.drop_append_of_le_length hle]
    exact h.trans (List.prefix_append _ _)

theorem Sits.of_take {p : Nat} (h : Sits (b.take p) o xs) : Sits b o xs := by
  have := h.append_right (b.drop p)
  rwa [List.take_append_drop] at this

theorem Sits.take {p : Nat} (h : Sits b o xs) (hp : o + xs.length ≤ p) :
    Sits (b.take p) o xs := by
  apply h.move
  intro j hj
  exact List.getElem?_take_of_lt (by omega)

theorem sits_take_iff {p : Nat} (hne : xs ≠ []) :
    Sits (b.take p) o xs ↔ Sits b o xs ∧ o + xs.length ≤ p := by
  constructor
  · intro h
    have hle := h.end_le hne
    rw [List.length_take] at hle
    exact ⟨h.of_take, by omega⟩
  · intro ⟨h, hp⟩
    exact h.take hp

end Sits

inductive Chain (E : Nat → β → Nat → Prop) : Nat → List β → Nat → Prop where
  | nil (o : Nat) : Chain E o [] o
  | cons {o o' o'' : Nat} {a : β} {as : List β} :
      E o a o' → Chain E o' as o'' → Chain E o (a :: as) o''

section Chain
variable {E E' : Nat → β → Nat → Prop} {o o' o'' : Nat} {as bs : List β}

@[simp] theorem chain_nil_iff : Chain E o [] o' ↔ o' = o := by
  constructor
  · intro h
    cases h
    rfl
  · rintro rfl
    exact .nil _

theorem chain_cons_iff {a : β} :
    Chain E o (a :: as) o'' ↔ ∃ o', E o a o' ∧ Chain E o' as o'' := by
  constructor
  · intro h
    cases h with
    | cons ha has => exact ⟨_, ha, has⟩
  · intro ⟨o', ha, has⟩
    exact .cons ha has

theorem chain_append_iff :
    Chain E o (as ++ bs) o'' ↔ ∃ o', Chain E o as o' ∧ Chain E o' bs o'' := by
  induction as generalizing o with
  | nil => simp
  | cons a as ih =>
    simp only [List.cons_append, chain_cons_iff, ih]
    constructor
    · intro ⟨o₁, ha, o₂, has, hbs⟩
      exact ⟨o₂, ⟨o₁, ha, has⟩, hbs⟩
    · intro ⟨o₂, ⟨o₁, ha, has⟩, hbs⟩
      exact ⟨o₁, ha, o₂, has, hbs⟩

theorem Chain.imp (himp : ∀ i a j, a ∈ as → E i a j → E' i a j) (h : Chain E o as o') :
    Chain E' o as o' := by
  induction h with
  | nil => exact .nil _
  | cons ha _ ih =>
    exact .cons (himp _ _ _ List.mem_cons_self ha)
      (ih fun i a j hm => himp i a j (List.mem_cons_of_mem _ hm))

theorem Chain.unique (hE : ∀ i a j j', E i a j → E i a j' → j = j') (h : Chain E o as o')
    (h' : Chain E o as o'') : o' = o'' := by
  induction h with
  | nil => exact (chain_nil_iff.mp h').symm
  | cons ha _ ih =>
    obtain ⟨i, ha', has'⟩ := chain_cons_iff.mp h'
    rw [← hE _ _ _ _ ha ha'] at has'
    exact ih has'

theorem Chain.forall_mem {P : β → Prop} (hE : ∀ i a j, E i a j → P a) (h : Chain E o as o') :
    ∀ a ∈ as, P a := by
  induction h with
  | nil => simp
  | cons ha _ ih =>
    intro x hx
    rcases List.mem_cons.mp hx with rfl | hx
    · exact hE _ _ _ ha
    · exact ih x hx

/-! ### Sizes and positions along a chain -/

theorem Chain.end_le {n : Nat} (hE : ∀ i a j, E i a j → j ≤ n) (h : Chain E o as o')
    (ho : o ≤ n) : o' ≤ n := by
  induction h with
  | nil => exact ho
  | cons ha _ ih => exact ih (hE _ _ _ ha)

theorem Chain.le (hE : ∀ i a j, E i a j → i ≤ j) (h : Chain E o as o') : o ≤ o' := by
  induction h with
  | nil => exact Nat.le_refl _
  | cons ha _ ih => exact Nat.le_trans (hE _ _ _ ha) ih

/-- Every entry of a chain lies in front of the end of the chain. -/
theorem Chain.imp_within {n : Nat} (hE : ∀ i a j, E i a j → i ≤ j)
    (himp : ∀ i a j, j ≤ n → E i a j → E' i a j) (h : Chain E o as o') (hn : o' ≤ n) :
    Chain E' o as o' := by
  induction h with
  | nil => exact .nil _
  | cons ha hrest ih =>
    have hle := hrest.le hE
    exact .cons (himp _ _ _ (by omega) ha) (ih hn)

/-- Entries take together at least what each of them takes. -/
theorem Chain.cost_le (base : Nat) (cost : β → Nat)
    (hE : ∀ i a j, E i a j → i + base + cost a ≤ j) (h : Chain E o as o') :
    o + base * as.length + (as.map cost).sum ≤ o' := by
  induction h with
  | nil => simp
  | cons ha _ ih =>
    have := hE _ _ _ ha
    rw [List.length_cons, Nat.mul_add, List.map_cons, List.sum_cons]
    omega

/-- Entries cost together at most what they take and `slack` more for each. -/
theorem Chain.cost_le_add (slack : Nat) (cost : β → Nat)
    (hE : ∀ i a j, E i a j → i + cost a ≤ j + slack) (h : Chain E o as o') :
    o + (as.map cost).sum ≤ o' + slack * as.length := by
  induction h with
  | nil => simp
  | cons ha _ ih =>
    have := hE _ _ _ ha
    rw [List.length_cons, Nat.mul_add, List.map_cons, List.sum_cons]
    omega

/-- Entries take together at most what they cost and `slack` more for each. -/
theorem Chain.le_cost_add (slack : Nat) (cost : β → Nat)
    (hE : ∀ i a j, E i a j → j ≤ i + cost a + slack) (h : Chain E o as o') :
    o' ≤ o + (as.map cost).sum + slack * as.length := by
  induction h with
  | nil => simp
  | cons ha _ ih =>
    have := hE _ _ _ ha
    rw [List.length_cons, Nat.mul_add, List.map_cons, List.sum_cons]
    omega

/-- The same elements over and over carry the same entry over and over. -/
theorem chain_replicate {b xs : List α} {a : β} {start : Nat}
    (hE : ∀ i, start ≤ i → Sits b i xs → E i a (i + xs.length)) (n : Nat) (ho : start ≤ o)
    (h : Sits b o (List.replicate n xs).flatten) :
    Chain E o (List.replicate n a) (o + n * xs.length) := by
  induction n generalizing o with
  | zero => simp
  | succ n ih =>
    rw [List.replicate_succ, List.flatten_cons, sits_append_iff] at h
    have hrest := ih (Nat.le_add_right_of_le ho) h.2
    rw [List.replicate_succ, Nat.succ_mul, Nat.add_comm (n * xs.length), ← Nat.add_assoc]
    exact .cons (hE o ho h.1) hrest

/-- If something inside every entry begins at least `gap` after the entry does, the things of
different entries are in order with that gap between them. -/
theorem Chain.pairwise (first last : β → Nat) {gap : Nat}
    (hE : ∀ i a j, E i a j → i + gap ≤ first a ∧ first a ≤ last a ∧ last a ≤ j)
    (h : Chain E o as o') :
    (∀ a ∈ as, o + gap ≤ first a) ∧ as.Pairwise fun a a' => last a + gap ≤ first a' := by
  induction h with
  | nil => exact ⟨by simp, .nil⟩
  | cons ha _ ih =>
    obtain ⟨hfirst, horder, hlast⟩ := hE _ _ _ ha
    obtain ⟨hbehind, hpairs⟩ := ih
    constructor
    · intro x hx
      rcases List.mem_cons.mp hx with rfl | hx
      · exact hfirst
      · have := hbehind x hx
        omega
    · apply List.pairwise_cons.mpr
      refine ⟨?_, hpairs⟩
      intro x hx
      have := hbehind x hx
      omega

end Chain

end Layout
