import Mathlib.Data.List.AList

/-!
# Finite maps as an interface

What a program may rely on when it keeps its data in a map container whose code is not at hand:
each operation is described by what `find?` returns afterwards. Nothing is assumed about the
order of entries, and two maps that answer alike need not be equal: a cleared map may differ from
a fresh one.
-/

namespace Container

set_option autoImplicit false

/-- A map container with value semantics. `moved` is what is left of a map whose contents were
moved out of it. -/
class FiniteMap (M : Type → Type → Type) where
  empty : {K V : Type} → M K V
  find? : {K V : Type} → [DecidableEq K] → M K V → K → Option V
  insert : {K V : Type} → [DecidableEq K] → M K V → K → V → M K V
  erase : {K V : Type} → [DecidableEq K] → M K V → K → M K V
  isEmpty : {K V : Type} → M K V → Bool
  clear : {K V : Type} → M K V → M K V
  moved : {K V : Type} → M K V → M K V
  find?_empty : ∀ {K V : Type} [DecidableEq K] (k : K), find? (empty : M K V) k = none
  find?_insert : ∀ {K V : Type} [DecidableEq K] (m : M K V) (k k' : K) (v : V),
    find? (insert m k v) k' = if k' = k then some v else find? m k'
  find?_erase : ∀ {K V : Type} [DecidableEq K] (m : M K V) (k k' : K),
    find? (erase m k) k' = if k' = k then none else find? m k'
  isEmpty_iff : ∀ {K V : Type} [DecidableEq K] (m : M K V),
    isEmpty m = true ↔ ∀ k, find? m k = none
  find?_clear : ∀ {K V : Type} [DecidableEq K] (m : M K V) (k : K), find? (clear m) k = none
  find?_moved : ∀ {K V : Type} [DecidableEq K] (m : M K V) (k : K), find? (moved m) k = none

export FiniteMap (empty find? insert erase isEmpty clear moved find?_empty find?_insert
  find?_erase isEmpty_iff find?_clear find?_moved)

attribute [simp] find?_empty find?_insert find?_erase find?_clear find?_moved

section Access

variable {M : Type → Type → Type} [FiniteMap M] {K V : Type} [DecidableEq K]

def contains (m : M K V) (k : K) : Bool :=
  (find? m k).isSome

/-- The value under a key, or the given one when a missing entry is created on access. -/
def slot (m : M K V) (k : K) (fresh : V) : V :=
  (find? m k).getD fresh

theorem isEmpty_eq_false_iff (m : M K V) :
    isEmpty m = false ↔ ∃ k v, find? m k = some v := by
  rw [← Bool.not_eq_true, isEmpty_iff]
  simp [Option.ne_none_iff_exists']

theorem contains_insert (m : M K V) (k k' : K) (v : V) :
    contains (insert m k v) k' = (decide (k' = k) || contains m k') := by
  unfold contains
  rw [find?_insert]
  by_cases hk : k' = k
  · simp [hk]
  · simp [hk]

end Access

/-- Association lists without repeated keys, an instance that can be evaluated. -/
def AssocMap (K V : Type) : Type :=
  AList fun _ : K => V

namespace AssocMap

variable {K V : Type}

def empty : AssocMap K V :=
  (∅ : AList fun _ : K => V)

def find? [DecidableEq K] (m : AssocMap K V) (k : K) : Option V :=
  AList.lookup k m

def insert [DecidableEq K] (m : AssocMap K V) (k : K) (v : V) : AssocMap K V :=
  AList.insert k v m

def erase [DecidableEq K] (m : AssocMap K V) (k : K) : AssocMap K V :=
  AList.erase k m

def isEmpty (m : AssocMap K V) : Bool :=
  m.entries.isEmpty

variable [DecidableEq K] (m : AssocMap K V) (k k' : K)

theorem find?_empty : (empty : AssocMap K V).find? k = none :=
  AList.lookup_empty k

theorem find?_insert (v : V) :
    (m.insert k v).find? k' = if k' = k then some v else m.find? k' := by
  by_cases h : k' = k
  · subst h
    rw [if_pos rfl]
    exact AList.lookup_insert m
  · rw [if_neg h]
    exact AList.lookup_insert_ne h

theorem find?_erase : (m.erase k).find? k' = if k' = k then none else m.find? k' := by
  by_cases h : k' = k
  · subst h
    rw [if_pos rfl]
    exact AList.lookup_erase k' m
  · rw [if_neg h]
    exact AList.lookup_erase_ne h

theorem isEmpty_iff : m.isEmpty = true ↔ ∀ k, m.find? k = none := by
  unfold isEmpty find?
  rw [List.isEmpty_iff]
  constructor
  · intro h k
    apply AList.lookup_eq_none.mpr
    intro hk
    have := AList.mem_keys.mp hk
    simp [AList.keys, h] at this
  · intro h
    rw [List.eq_nil_iff_forall_not_mem]
    intro entry hentry
    have hkey : entry.1 ∈ m.keys := List.mem_map_of_mem hentry
    exact AList.lookup_eq_none.mp (h entry.1) (AList.mem_keys.mpr hkey)

end AssocMap

instance : FiniteMap AssocMap where
  empty := AssocMap.empty
  find? := AssocMap.find?
  insert := AssocMap.insert
  erase := AssocMap.erase
  isEmpty := AssocMap.isEmpty
  clear _ := AssocMap.empty
  moved _ := AssocMap.empty
  find?_empty := AssocMap.find?_empty
  find?_insert := AssocMap.find?_insert
  find?_erase := AssocMap.find?_erase
  isEmpty_iff := AssocMap.isEmpty_iff
  find?_clear _ := AssocMap.find?_empty
  find?_moved _ := AssocMap.find?_empty

end Container
