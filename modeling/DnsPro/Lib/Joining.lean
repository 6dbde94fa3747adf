import Mathlib.Algebra.GroupWithZero.Nat
import Mathlib.Data.List.Basic

/-!
# Lists joined with a separator

A join is determined by the pieces between the separators, wherever these come from. What it
forgets is which separators were inside the joined lists; `eq_iff_pieces` says that nothing else
is lost.
-/

namespace Joining

set_option autoImplicit false

variable {α : Type*} [BEq α] [LawfulBEq α] {x : α}

theorem splitOn_intercalate_flatMap {ls : List (List α)} (hne : ls ≠ []) :
    ([x].intercalate ls).splitOn x = ls.flatMap (List.splitOn x) := by
  induction ls with
  | nil => exact absurd rfl hne
  | cons l ls ih =>
    cases ls with
    | nil => simp
    | cons l' ls =>
      rw [List.intercalate_cons_cons, List.flatMap_cons, List.append_assoc, List.singleton_append,
        List.splitOn_append_cons_self, ih (by simp)]

/-- Equal joins are equal pieces. -/
theorem intercalate_eq_iff {ls ls' : List (List α)} (hne : ls ≠ []) (hne' : ls' ≠ []) :
    [x].intercalate ls = [x].intercalate ls' ↔
      ls.flatMap (List.splitOn x) = ls'.flatMap (List.splitOn x) := by
  rw [← splitOn_intercalate_flatMap hne, ← splitOn_intercalate_flatMap hne']
  constructor
  · intro h
    rw [h]
  · intro h
    have hsame := congrArg [x].intercalate h
    rwa [List.intercalate_splitOn, List.intercalate_splitOn] at hsame

omit [LawfulBEq α] in
theorem length_splitOn (l : List α) : (l.splitOn x).length = l.count x + 1 := by
  induction l with
  | nil => simp
  | cons a l ih =>
    rw [List.splitOn_cons_eq_if_modifyHead, List.count_cons]
    by_cases ha : (a == x) = true
    · rw [if_pos ha, if_pos ha, List.length_cons, ih]
    · rw [if_neg ha, if_neg ha, List.length_modifyHead, ih, Nat.add_zero]

/-- The pieces together with the number of separators in each list give the lists back. -/
theorem eq_iff_pieces {ls ls' : List (List α)} :
    ls = ls' ↔ ls.flatMap (List.splitOn x) = ls'.flatMap (List.splitOn x) ∧
      ls.map (List.count x) = ls'.map (List.count x) := by
  constructor
  · intro h
    rw [h]
    exact ⟨rfl, rfl⟩
  · intro ⟨hpieces, hcounts⟩
    have hlengths : ∀ ls : List (List α), (ls.map (List.splitOn x)).map List.length =
        (ls.map (List.count x)).map (· + 1) := by
      intro ls
      rw [List.map_map, List.map_map]
      exact List.map_congr_left fun l _ => length_splitOn l
    have hsplit : ls.map (List.splitOn x) = ls'.map (List.splitOn x) := by
      apply List.eq_iff_flatten_eq.mpr
      refine ⟨hpieces, ?_⟩
      rw [hlengths, hlengths, hcounts]
    have hjoin : ∀ ls : List (List α), (ls.map (List.splitOn x)).map [x].intercalate = ls := by
      intro ls
      rw [List.map_map]
      exact List.map_id'' (fun l => List.intercalate_splitOn x) ls
    rw [← hjoin ls, hsplit, hjoin]

end Joining
