import DnsPro.ZoneStore
import DnsPro.Lib.Word

/-!
# Canonical names

A key is the labels in lower case, joined with dots. Names that agree label by label up to the
case of ASCII letters have the same key; the converse fails for labels that contain a dot themselves
and for the single empty label, whose key is the root's.
-/

namespace DnsPro

open Packet ZoneStore

set_option autoImplicit false

/-- Equal label by label, up to the case of ASCII letters. -/
def SameUpToCase (n n' : Name) : Prop :=
  List.Forall₂ (fun l l' : Label => l.map tolower = l'.map tolower) n.labels n'.labels

theorem sameUpToCase_iff {n n' : Name} :
    SameUpToCase n n' ↔
      n.labels.map (List.map tolower) = n'.labels.map (List.map tolower) := by
  rw [SameUpToCase, ← List.forall₂_map_left_iff (R := fun x (l' : Label) => x = l'.map tolower),
    ← List.forall₂_map_right_iff (R := fun x y => x = y), List.forall₂_eq_eq_eq]

instance (n n' : Name) : Decidable (SameUpToCase n n') :=
  decidable_of_iff _ sameUpToCase_iff.symm

/-! ### The key as a join -/

theorem canonicalizeLoop_succ (i : Nat) (ls : List Label) (key : Key) :
    canonicalizeLoop (i + 1) ls key = key ++ ls.flatMap fun l => 46 :: l.map tolower := by
  induction ls generalizing i key with
  | nil => simp [canonicalizeLoop]
  | cons l ls ih =>
    rw [canonicalizeLoop, ih, List.flatMap_cons, if_pos (by omega)]
    simp only [List.append_assoc, List.cons_append, List.nil_append]

theorem intercalate_cons_eq_flatMap (x : List UInt8) (xs : List (List UInt8)) :
    [46].intercalate (x :: xs) = x ++ xs.flatMap fun y => 46 :: y := by
  induction xs generalizing x with
  | nil => simp
  | cons y ys ih =>
    rw [List.intercalate_cons_cons, ih, List.flatMap_cons]
    simp only [List.append_assoc, List.cons_append, List.nil_append]

theorem canonicalize_eq_intercalate (n : Name) :
    canonicalize n = [46].intercalate (n.labels.map (List.map tolower)) := by
  unfold canonicalize
  cases n.labels with
  | nil => rfl
  | cons l ls =>
    rw [canonicalizeLoop, canonicalizeLoop_succ, List.map_cons, intercalate_cons_eq_flatMap,
      List.flatMap_map]
    rfl

/-! ### Names and keys -/

theorem SameUpToCase.canonicalize_eq {n n' : Name} (h : SameUpToCase n n') :
    canonicalize n = canonicalize n' := by
  rw [canonicalize_eq_intercalate, canonicalize_eq_intercalate, sameUpToCase_iff.mp h]

/-- Only the root and the single empty label have the empty key. -/
theorem canonicalize_eq_nil_iff {n : Name} :
    canonicalize n = [] ↔ n.labels = [] ∨ n.labels = [[]] := by
  rw [canonicalize_eq_intercalate]
  rcases n.labels with _ | ⟨l, _ | ⟨l', ls⟩⟩
  · simp
  · simp
  · simp [List.intercalate_cons_cons]

end DnsPro
