import DnsPro.Wire.Placement
import DnsPro.Wire.Rejection
import DnsPro.Zone.Canonical
import DnsPro.Lib.Joining

/-!
# The length of whole names

RFC 1035 gives a name 255 octets. Labels are checked on both sides, whole names on neither. The
octets of a decoded name are the ascents of the cursor: a label moves it over itself, a pointer
moves it back for free, and what was passed before can be passed again. So a name is as long as
its terminator is far from the start, plus all the way back that its pointers take.
-/

namespace DnsPro.Wire

open Packet DnsPro.Parser DnsPro.Builder ZoneStore Layout

set_option autoImplicit false

/-- Octets of a name that is written out: its labels, a length byte for each, and the root. -/
def wireLength (ls : List Label) : Nat :=
  (ls.map List.length).sum + ls.length + 1

theorem wireLength_cons (l : Label) (ls : List Label) :
    wireLength (l :: ls) = 1 + l.length + wireLength ls := by
  simp only [wireLength, List.map_cons, List.sum_cons, List.length_cons]
  omega

theorem length_nameBytes (ls : List Label) : (nameBytes ls).length = wireLength ls := by
  induction ls with
  | nil => rfl
  | cons l ls ih =>
    rw [nameBytes, wireLength_cons, List.length_append, List.length_cons, ih]
    omega

/-! ### The walk of a name -/

/-- The walk from an offset comes to rest at the root byte `t`, and its pointers lead back by `d`
all together. -/
inductive Walks (b : Buffer) : Nat → Nat → Nat → Prop where
  | rest {t : Nat} : Sits b t [0] → Walks b t t 0
  | move {c c' t d : Nat} : Leads b c c' → Walks b c' t d → Walks b c t (d + (c - c'))

section Walks
variable {b : Buffer} {o e n t d : Nat} {ls : List Label}

/-- What a name comes to on the wire, read off the two ends of its walk and its pointers: a label
costs what the cursor rises, a pointer nothing, and the root byte comes on top. -/
theorem EncName.walks (h : EncName b o ls e) :
    ∃ t d, Walks b o t d ∧ o + wireLength ls = t + d + 1 := by
  induction h with
  | @root o hs => exact ⟨o, 0, .rest hs, rfl⟩
  | label h1 h63 hs _ ih =>
    obtain ⟨t, d, hwalks, hlength⟩ := ih
    refine ⟨t, _, .move (.label h1 h63 hs) hwalks, ?_⟩
    rw [wireLength_cons]
    omega
  | pointer ht hback hs _ ih =>
    obtain ⟨t, d, hwalks, hlength⟩ := ih
    refine ⟨t, _, .move (.pointer ht hback hs) hwalks, ?_⟩
    omega

/-- A walk that comes to rest at a root byte reads a name. -/
theorem Walks.encName (h : Walks b o t d) :
    ∃ ls e, EncName b o ls e ∧ o + wireLength ls = t + d + 1 := by
  induction h with
  | @rest t hs => exact ⟨[], t + 1, .root hs, rfl⟩
  | @move c c' t d hleads _ ih =>
    obtain ⟨ls, e, henc, hlength⟩ := ih
    cases hleads with
    | @label l h1 h63 hs =>
      refine ⟨l :: ls, e, .label h1 h63 hs henc, ?_⟩
      rw [wireLength_cons]
      omega
    | pointer ht hback hs =>
      refine ⟨ls, c + 2, .pointer ht hback hs henc, ?_⟩
      omega

theorem Walks.sits_root (h : Walks b o t d) : Sits b t [0] := by
  induction h with
  | rest hs => exact hs
  | move _ _ ih => exact ih

/-- The octets of a name are the ascents of its walk. -/
theorem EncName.ascents (h : EncName b o ls e) (hn : Orbit.after (nextCursor b) n o = none) :
    wireLength ls = Orbit.total (nextCursor b) (fun c c' => c' - c) n o + 1 := by
  induction h generalizing n with
  | root hs =>
    have hnext := nextCursor_terminator (readTurn_eq_terminator_iff.mpr hs)
    cases n with
    | zero => cases hn
    | succ n =>
      rw [Orbit.total_of_none hnext]
      rfl
  | label h1 h63 hs _ ih =>
    have hnext := nextCursor_eq_some_iff.mpr (.label h1 h63 hs)
    cases n with
    | zero => cases hn
    | succ n =>
      rw [Orbit.after_succ, hnext] at hn
      rw [Orbit.total_of_some hnext, wireLength_cons, ih hn]
      omega
  | pointer ht hback hs _ ih =>
    have hnext := nextCursor_eq_some_iff.mpr (.pointer ht hback hs)
    cases n with
    | zero => cases hn
    | succ n =>
      rw [Orbit.after_succ, hnext] at hn
      rw [Orbit.total_of_some hnext, ih hn]
      omega

theorem Leads.le {c c' : Nat} (h : Leads b c c') : c' ≤ c + 64 := by
  cases h with
  | label _ h63 _ => omega
  | pointer _ hback _ => omega

/-- The bound that the loop does give: 64 octets for every cursor but the last. -/
theorem EncName.wireLength_le (h : EncName b o ls e) :
    wireLength ls ≤ (b.length - 1) * 64 + 1 := by
  obtain ⟨t, d, hwalks, _⟩ := h.walks
  have hturn := readTurn_eq_terminator_iff.mpr hwalks.sits_root
  have hlast : t ∈ Finset.range b.length := by
    apply Finset.mem_range.mpr
    apply lt_length_of_readTurn
    rw [hturn]
    nofun
  have hmoves : ∀ i j, nextCursor b i = some j → i ∈ (Finset.range b.length).erase t := by
    intro i j hij
    apply Finset.mem_erase.mpr
    refine ⟨?_, Finset.mem_range.mpr (lt_length_of_nextCursor hij)⟩
    intro hsame
    rw [hsame, nextCursor_terminator hturn] at hij
    cases hij
  have hwithin := h.stops.within _ hmoves
  rw [Finset.card_erase_of_mem hlast, Finset.card_range] at hwithin
  rw [h.ascents hwithin]
  apply Nat.succ_le_succ
  apply Orbit.total_le _ hwithin
  intro i j hij
  have hrise := (nextCursor_eq_some_iff.mp hij).le
  omega

end Walks

/-! ### The limit at the parser -/

end DnsPro.Wire
