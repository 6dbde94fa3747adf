import Mathlib.Data.List.Basic

/-!
# Interleavings of independent clients

Clients run their own sequences of atomic actions on a shared state, in any interleaving. The
state is observed cell by cell; an action reads and changes one cell. Where no two clients touch
the same cell, a client cannot tell an interleaving from running alone, and the final contents of
every cell do not depend on the interleaving.
-/

namespace Schedule

set_option autoImplicit false

variable {ι A S R C V : Type} [DecidableEq ι]

/-- The actions of one client, in order. -/
def actionsOf (i : ι) (schedule : List (ι × A)) : List A :=
  (schedule.filter fun event => event.1 = i).map Prod.snd

/-- The schedule runs every client's sequence, and nothing else. -/
def Interleaves (schedule : List (ι × A)) (clients : ι → List A) : Prop :=
  ∀ i, actionsOf i schedule = clients i

def Disjoint (cellOf : A → C) (clients : ι → List A) : Prop :=
  ∀ i j, i ≠ j → ∀ a ∈ clients i, ∀ b ∈ clients j, cellOf a ≠ cellOf b

/-- The clients in the given order, each to its end before the next one starts. -/
def oneAfterAnother (order : List ι) (clients : ι → List A) : List (ι × A) :=
  order.flatMap fun i => (clients i).map fun a => (i, a)

section Runs
variable (step : A → S → S) (result : A → S → R)

def run (actions : List A) (s : S) : S :=
  actions.foldl (fun s a => step a s) s

/-- What the actions return, each in the state it finds. -/
def results : List A → S → List R
  | [], _ => []
  | a :: actions, s => result a s :: results actions (step a s)

def runAll (schedule : List (ι × A)) (s : S) : S :=
  run step (schedule.map Prod.snd) s

/-- What the actions of one client return. -/
def resultsOf (i : ι) : List (ι × A) → S → List R
  | [], _ => []
  | (j, a) :: schedule, s =>
    if j = i then result a s :: resultsOf i schedule (step a s)
    else resultsOf i schedule (step a s)

end Runs

/-- An action depends on the cell it names, and leaves all others alone. -/
structure Local (step : A → S → S) (result : A → S → R) (cellOf : A → C) (view : S → C → V) :
    Prop where
  frame : ∀ a s c, c ≠ cellOf a → view (step a s) c = view s c
  step_congr : ∀ a s t, view s (cellOf a) = view t (cellOf a) →
    view (step a s) (cellOf a) = view (step a t) (cellOf a)
  result_congr : ∀ a s t, view s (cellOf a) = view t (cellOf a) → result a s = result a t

/-! ### Schedules -/

section Schedules
variable {schedule : List (ι × A)} {clients : ι → List A}

theorem mem_actionsOf {i : ι} {a : A} : a ∈ actionsOf i schedule ↔ (i, a) ∈ schedule := by
  simp [actionsOf]

theorem Interleaves.mem_iff (h : Interleaves schedule clients) {i : ι} {a : A} :
    (i, a) ∈ schedule ↔ a ∈ clients i := by
  rw [← h i, mem_actionsOf]

theorem actionsOf_cons (i j : ι) (a : A) :
    actionsOf i ((j, a) :: schedule) =
      if j = i then a :: actionsOf i schedule else actionsOf i schedule := by
  unfold actionsOf
  by_cases hj : j = i
  · simp [hj]
  · simp [hj]

theorem actionsOf_append (i : ι) (xs ys : List (ι × A)) :
    actionsOf i (xs ++ ys) = actionsOf i xs ++ actionsOf i ys := by
  simp [actionsOf]

theorem actionsOf_client (i j : ι) (as : List A) :
    actionsOf i (as.map fun a => (j, a)) = if j = i then as else [] := by
  induction as with
  | nil => simp [actionsOf]
  | cons a as ih =>
    rw [List.map_cons, actionsOf_cons, ih]
    by_cases hj : j = i
    · simp [hj]
    · simp [hj]

theorem actionsOf_oneAfterAnother {order : List ι} (hnodup : order.Nodup) (i : ι) :
    actionsOf i (oneAfterAnother order clients) = if i ∈ order then clients i else [] := by
  unfold oneAfterAnother
  induction order with
  | nil => rfl
  | cons j order ih =>
    obtain ⟨hj, hrest⟩ := List.nodup_cons.mp hnodup
    rw [List.flatMap_cons, actionsOf_append, actionsOf_client, ih hrest]
    by_cases hi : j = i
    · subst hi
      rw [if_pos rfl, if_neg hj, if_pos List.mem_cons_self, List.append_nil]
    · have hmem : i ∈ j :: order ↔ i ∈ order := by simp [Ne.symm hi]
      simp only [if_neg hi, List.nil_append, hmem]

theorem interleaves_oneAfterAnother {order : List ι} (hnodup : order.Nodup)
    (hall : ∀ i, clients i ≠ [] → i ∈ order) :
    Interleaves (oneAfterAnother order clients) clients := by
  intro i
  rw [actionsOf_oneAfterAnother hnodup]
  by_cases hi : i ∈ order
  · rw [if_pos hi]
  · rw [if_neg hi]
    by_contra hne
    exact hi (hall i fun h => hne h.symm)

end Schedules

/-! ### Running together and running alone -/

section Independence
variable {step : A → S → S} {result : A → S → R} {cellOf : A → C} {view : S → C → V}

theorem Local.view_untouched (h : Local step result cellOf view) {actions : List A} {s : S} {c : C}
    (hc : ∀ a ∈ actions, c ≠ cellOf a) : view (run step actions s) c = view s c := by
  induction actions generalizing s with
  | nil => rfl
  | cons a actions ih =>
    have hrest := ih (s := step a s) fun b hb => hc b (List.mem_cons_of_mem _ hb)
    rw [← h.frame a s c (hc a List.mem_cons_self), ← hrest]
    rfl

/-- A client that owns the cells `P` gets the results it gets alone, and leaves these cells as it
leaves them alone: the two states agree on `P` throughout. -/
theorem Local.alone (h : Local step result cellOf view) {i : ι} {P : C → Prop}
    {schedule : List (ι × A)} (hown : ∀ j a, (j, a) ∈ schedule → (P (cellOf a) ↔ j = i)) {s t : S}
    (hst : ∀ c, P c → view s c = view t c) :
    resultsOf step result i schedule s = results step result (actionsOf i schedule) t ∧
      ∀ c, P c → view (runAll step schedule s) c = view (run step (actionsOf i schedule) t) c := by
  induction schedule generalizing s t with
  | nil => exact ⟨rfl, hst⟩
  | cons event schedule ih =>
    obtain ⟨j, a⟩ := event
    have hrest : ∀ k b, (k, b) ∈ schedule → (P (cellOf b) ↔ k = i) :=
      fun k b hb => hown k b (List.mem_cons_of_mem _ hb)
    have hhere := hown j a List.mem_cons_self
    rw [actionsOf_cons, resultsOf]
    by_cases hj : j = i
    · have hcell := hst _ (hhere.mpr hj)
      have hnext : ∀ c, P c → view (step a s) c = view (step a t) c := by
        intro c hc
        by_cases hca : c = cellOf a
        · rw [hca]
          exact h.step_congr a s t hcell
        · rw [h.frame a s c hca, h.frame a t c hca]
          exact hst c hc
      obtain ⟨hresults, hviews⟩ := ih hrest hnext
      rw [if_pos hj, if_pos hj, h.result_congr a s t hcell, hresults]
      exact ⟨rfl, hviews⟩
    · have hnext : ∀ c, P c → view (step a s) c = view t c := by
        intro c hc
        have hca : c ≠ cellOf a := by
          intro heq
          rw [heq] at hc
          exact hj (hhere.mp hc)
        rw [h.frame a s c hca]
        exact hst c hc
      rw [if_neg hj, if_neg hj]
      exact ih hrest hnext

section Clients
variable {clients : ι → List A} {schedule schedule' : List (ι × A)}

/-- Among independent clients each gets the results it gets alone, and so do its cells. -/
theorem Local.client_alone (h : Local step result cellOf view)
    (hdisjoint : Disjoint cellOf clients) (hs : Interleaves schedule clients) (i : ι) (s : S) :
    resultsOf step result i schedule s = results step result (clients i) s ∧
      ∀ c, (∃ a ∈ clients i, cellOf a = c) →
        view (runAll step schedule s) c = view (run step (clients i) s) c := by
  have hown : ∀ j a, (j, a) ∈ schedule → ((∃ b ∈ clients i, cellOf b = cellOf a) ↔ j = i) := by
    intro j a ha
    constructor
    · intro ⟨b, hb, hcell⟩
      by_contra hj
      exact hdisjoint i j (Ne.symm hj) b hb a (hs.mem_iff.mp ha) hcell
    · intro hj
      rw [hj] at ha
      exact ⟨a, hs.mem_iff.mp ha, rfl⟩
  have halone := h.alone (P := fun c => ∃ a ∈ clients i, cellOf a = c) hown (s := s) fun _ _ => rfl
  rwa [hs i] at halone

theorem Local.view_unowned (h : Local step result cellOf view) (hs : Interleaves schedule clients)
    {c : C} (hc : ∀ i, ∀ a ∈ clients i, cellOf a ≠ c) (s : S) :
    view (runAll step schedule s) c = view s c := by
  apply h.view_untouched
  intro a ha
  obtain ⟨⟨i, b⟩, hmem, rfl⟩ := List.mem_map.mp ha
  exact (hc i b (hs.mem_iff.mp hmem)).symm

/-- Independent clients: no interleaving can be told from any other, neither by a client nor by
the final contents of any cell. -/
theorem Local.interleavings_agree (h : Local step result cellOf view)
    (hdisjoint : Disjoint cellOf clients) (hs : Interleaves schedule clients)
    (hs' : Interleaves schedule' clients) (s : S) :
    (∀ i, resultsOf step result i schedule s = resultsOf step result i schedule' s) ∧
      ∀ c, view (runAll step schedule s) c = view (runAll step schedule' s) c := by
  have halone := h.client_alone hdisjoint hs
  have halone' := h.client_alone hdisjoint hs'
  refine ⟨fun i => ?_, fun c => ?_⟩
  · rw [(halone i s).1, (halone' i s).1]
  · by_cases howned : ∃ i, ∃ a ∈ clients i, cellOf a = c
    · obtain ⟨i, hi⟩ := howned
      rw [(halone i s).2 c hi, (halone' i s).2 c hi]
    · have hc : ∀ i, ∀ a ∈ clients i, cellOf a ≠ c :=
        fun i a ha heq => howned ⟨i, a, ha, heq⟩
      rw [h.view_unowned hs hc, h.view_unowned hs' hc]

end Clients

end Independence

end Schedule
