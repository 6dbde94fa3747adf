import DnsPro.Lib.Locking

/-!
# Deadlocks

A thread that waits in a guard of one lock, and has taken no other guard before, has no lock; one
that waits in a guard of several gives back what it has when it does not get the others. Where no
call takes a second guard, therefore, all calls can always return. Where two calls take two guards
in opposite order they may wait for each other for ever.
-/

namespace Locking

set_option autoImplicit false

/-- The call that a thread is busy with. -/
def Thread.Calls {O ι σ R : Type} : Thread O ι σ R → O → Prop
  | .idle, _ => False
  | .locking o _, o' => o = o'
  | .running o _, o' => o = o'
  | .leaving o _ _, o' => o = o'

section Progress
variable {τ O ι σ R : Type} [DecidableEq τ] [DecidableEq ι] {call : O → Call ι σ R}
  {spurious : Prop}
variable {s s' s'' : State τ O ι σ R} {i j : τ} {o o' : O} {held held' : List ι}
  {rest : Body ι σ R} {t t' : Thread O ι σ R} {g : Guard ι} {x y : ι} {r : R}

/-- The state once a thread has gone through the rest of its call and returned. -/
def State.finish (s : State τ O ι σ R) (i : τ) (o : O) (rest : Body ι σ R) : State τ O ι σ R :=
  { s.set i .idle with
    shared := (rest.run s.shared).2
    released := s.released ++ [(i, o, (rest.run s.shared).1)]
    returned := s.returned ++ [(i, o, (rest.run s.shared).1)] }

omit [DecidableEq ι] in
theorem set_set : (s.set i t).set i t' = s.set i t' := by
  rw [State.set, State.set, State.set, Function.update_idem]

omit [DecidableEq ι] in
theorem set_eq_self (h : s.threads i = t) : s.set i t = s := by
  rw [State.set, ← h, Function.update_eq_self]

theorem set_finish : (s.set i t).finish i o rest = s.finish i o rest := by
  rw [State.finish, set_set]
  rfl

theorem finish_of_ne (h : j ≠ i) : (s.finish i o rest).threads j = s.threads j :=
  set_of_ne h

omit [DecidableEq ι] in
/-- What holds of all threads still does after one has changed. -/
theorem forall_set {P : Thread O ι σ R → Prop} (h : ∀ j, P (s.threads j)) (ht : P t) :
    ∀ j, P ((s.set i t).threads j) := by
  intro j
  by_cases hj : j = i
  · rw [hj, set_self]
    exact ht
  · rw [set_of_ne hj]
    exact h j

omit [DecidableEq ι] in
/-- The others decide whether a lock is granted. -/
theorem granted_set : Granted call (s.set i t) i o x ↔ Granted call s i o x := by
  constructor
  · intro h j hj
    have hgranted := h j hj
    rwa [set_of_ne hj] at hgranted
  · intro h j hj
    rw [set_of_ne hj]
    exact h j hj

omit [DecidableEq τ] [DecidableEq ι] in
theorem granted_of_free (h : ∀ j, j ≠ i → ∀ x, ¬ (s.threads j).Holds call x) :
    Granted call s i o x :=
  fun j hj => ⟨fun howns => h j hj x howns.holds, fun _ => h j hj x⟩

omit [DecidableEq τ] [DecidableEq ι] in
theorem Thread.Calls.unique (h : t.Calls o) (h' : t.Calls o') : o = o' := by
  cases t with
  | idle => exact h.elim
  | locking | running | leaving => exact Eq.trans (Eq.symm h) h'

/-! ### One thread -/

variable (call spurious) in
/-- A run in which calls only ever return, and none is dropped. -/
structure Advances (s s' : State τ O ι σ R) : Prop where
  reaches : Reaches call spurious s s'
  returned : ∃ returned, s'.returned = s.returned ++ returned ∧
    ∀ i o, (s.threads i).Calls o → (s'.threads i).Calls o ∨ ∃ r, (i, o, r) ∈ returned

theorem Advances.refl (s : State τ O ι σ R) : Advances call spurious s s :=
  ⟨.refl, [], by simp, fun _ _ => Or.inl⟩

theorem Advances.trans (h : Advances call spurious s s') (h' : Advances call spurious s' s'') :
    Advances call spurious s s'' := by
  obtain ⟨hreaches, returned, hreturned, hcalls⟩ := h
  obtain ⟨hreaches', returned', hreturned', hcalls'⟩ := h'
  refine ⟨hreaches.trans hreaches', returned ++ returned', ?_, fun i o hcall => ?_⟩
  · rw [hreturned', hreturned, List.append_assoc]
  · rcases hcalls i o hcall with hstill | ⟨r, hr⟩
    · rcases hcalls' i o hstill with hstill' | ⟨r, hr⟩
      · exact Or.inl hstill'
      · exact Or.inr ⟨r, List.mem_append_right _ hr⟩
    · exact Or.inr ⟨r, List.mem_append_left _ hr⟩

/-- A step of one thread that goes on with its call. -/
theorem Advances.of_step (hstep : Step call spurious s s') (hreturned : s'.returned = s.returned)
    (hothers : ∀ j, j ≠ i → s'.threads j = s.threads j) (hi : (s.threads i).Calls o)
    (hi' : (s'.threads i).Calls o) : Advances call spurious s s' := by
  refine ⟨.single hstep, [], by simp [hreturned], fun j o' hcall => Or.inl ?_⟩
  by_cases hj : j = i
  · rw [hj] at hcall ⊢
    rwa [← hi.unique hcall]
  · rwa [hothers j hj]

theorem Advances.of_set (hstep : Step call spurious s (s.set i t)) (hi : (s.threads i).Calls o)
    (ht : t.Calls o) : Advances call spurious s (s.set i t) := by
  refine .of_step hstep rfl (fun j => set_of_ne) hi ?_
  rwa [set_self]

omit [DecidableEq τ] [DecidableEq ι] in
theorem calls_of_locking (h : s.threads i = .locking o held) : (s.threads i).Calls o := by
  rw [h]
  exact rfl

omit [DecidableEq τ] [DecidableEq ι] in
theorem calls_of_running (h : s.threads i = .running o rest) : (s.threads i).Calls o := by
  rw [h]
  exact rfl

omit [DecidableEq τ] [DecidableEq ι] in
theorem calls_of_leaving (h : s.threads i = .leaving o r held) : (s.threads i).Calls o := by
  rw [h]
  exact rfl

variable (call spurious) in
/-- A call that is over gives back its locks and returns. -/
theorem give_back (hi : s.threads i = .leaving o r held) :
    Advances call spurious s { s.set i .idle with returned := s.returned ++ [(i, o, r)] } := by
  induction held generalizing s with
  | nil =>
    refine ⟨.single (.leave hi), [(i, o, r)], rfl, fun j o' hcall => ?_⟩
    by_cases hj : j = i
    · rw [hj] at hcall
      rw [hj, hcall.unique (calls_of_leaving hi)]
      exact Or.inr ⟨r, List.mem_singleton_self _⟩
    · refine Or.inl ?_
      show ((s.set i .idle).threads j).Calls o'
      rwa [set_of_ne hj]
  | cons x held ih =>
    have hstep : Step call spurious s (s.set i (.leaving o r ((x :: held).erase x))) :=
      .unlock hi List.mem_cons_self
    rw [List.erase_cons_head] at hstep
    have hrest := ih (s := s.set i (.leaving o r held)) set_self
    rw [set_set] at hrest
    exact .trans (.of_set hstep (calls_of_leaving hi) rfl) hrest

variable (call spurious) in
/-- A running call can always go on to its end. -/
theorem finish_running (hi : s.threads i = .running o rest) :
    Advances call spurious s (s.finish i o rest) := by
  have hcalls := calls_of_running hi
  induction rest generalizing s with
  | ret r =>
    let ended : State τ O ι σ R := { s.set i (.leaving o r (lockedBy (call o).guards)) with
      released := s.released ++ [(i, o, r)] }
    have hended : ended.threads i = .leaving o r (lockedBy (call o).guards) :=
      set_self (s := s) (i := i)
    have hfinish : ({ ended.set i .idle with returned := ended.returned ++ [(i, o, r)] } :
        State τ O ι σ R) = s.finish i o (.ret r) := by
      simp only [ended, State.finish, State.set, Function.update_idem, Body.run]
    have hleft := give_back call spurious hended
    rw [hfinish] at hleft
    exact .trans (.of_step (.release hi) rfl (fun j => set_of_ne) hcalls
      (calls_of_leaving hended)) hleft
  | read x next ih =>
    have hnext : (s.set i (.running o (next (s.shared x)))).threads i = _ := set_self
    have hrest := ih _ hnext (calls_of_running hnext)
    rw [set_finish] at hrest
    exact .trans (.of_set (.read hi) hcalls rfl) hrest
  | write x f next ih =>
    have hnext : ({ s.set i (.running o next) with
        shared := Function.update s.shared x (f (s.shared x)) } : State τ O ι σ R).threads i =
          .running o next := set_self
    have hrest := ih hnext (calls_of_running hnext)
    rw [State.finish, State.set, State.set, Function.update_idem] at hrest
    exact .trans (.of_step (.write hi) rfl (fun j => set_of_ne) hcalls (calls_of_running hnext))
      hrest

variable (spurious) in
theorem finish_locked (hi : s.threads i = .locking o held) (hall : ∀ x, Needs call o x → x ∈ held) :
    Advances call spurious s (s.finish i o (call o).body) := by
  have hfinished := finish_running call spurious (set_self (s := s) (i := i)
    (t := .running o (call o).body))
  rw [set_finish] at hfinished
  exact .trans (.of_set (.enter hi hall) (calls_of_locking hi) rfl) hfinished

omit [DecidableEq ι] in
theorem Call.At.mono {c : Call ι σ R} (h : c.At held g) (hmore : ∀ x ∈ held, x ∈ held') :
    c.At held' g := by
  obtain ⟨done, todo, hguards, hdone⟩ := h
  exact ⟨done, todo, hguards, fun d hd x hx => hmore x (hdone d hd x hx)⟩

variable (spurious) in
/-- A guard gets the locks that are granted to it. -/
theorem lock_guard (hi : s.threads i = .locking o held) (hat : (call o).At held g) (todo : List ι)
    (htodo : ∀ x ∈ todo, x ∈ g.locks) (hgranted : ∀ x ∈ todo, x ∉ held → Granted call s i o x) :
    ∃ held', Advances call spurious s (s.set i (.locking o held')) ∧ (∀ x ∈ held, x ∈ held') ∧
      ∀ x ∈ todo, x ∈ held' := by
  induction todo generalizing s held with
  | nil =>
    refine ⟨held, ?_, fun x hx => hx, fun x hx => absurd hx List.not_mem_nil⟩
    rw [set_eq_self hi]
    exact .refl s
  | cons x todo ih =>
    obtain ⟨hxg, htodo⟩ := List.forall_mem_cons.mp htodo
    obtain ⟨hxgranted, hgranted⟩ := List.forall_mem_cons.mp hgranted
    by_cases hx : x ∈ held
    · obtain ⟨held', hadvances, hkept, hall⟩ := ih hi hat htodo hgranted
      exact ⟨held', hadvances, hkept, List.forall_mem_cons.mpr ⟨hkept x hx, hall⟩⟩
    · have hstep : Step call spurious s (s.set i (.locking o (x :: held))) :=
        .lock hi hat hxg hx (hxgranted hx)
      obtain ⟨held', hadvances, hkept, hall⟩ := ih (s := s.set i (.locking o (x :: held))) set_self
        (hat.mono fun y => List.mem_cons_of_mem x) htodo fun y hy hfree => granted_set.mpr
          (hgranted y hy fun hheld => hfree (List.mem_cons_of_mem x hheld))
      obtain ⟨hxheld, hkept⟩ := List.forall_mem_cons.mp hkept
      rw [set_set] at hadvances
      exact ⟨held', .trans (.of_set hstep (calls_of_locking hi) rfl) hadvances, hkept,
        List.forall_mem_cons.mpr ⟨hxheld, hall⟩⟩

variable (spurious) in
/-- While no other thread has a lock, a thread gets all its locks, guard after guard. -/
theorem lock_all (hfree : ∀ j, j ≠ i → ∀ x, ¬ (s.threads j).Holds call x)
    (hi : s.threads i = .locking o held) (done todo : List (Guard ι))
    (hguards : (call o).guards = done ++ todo) (hdone : ∀ d ∈ done, ∀ x ∈ d.locks, x ∈ held) :
    ∃ held', Advances call spurious s (s.set i (.locking o held')) ∧
      ∀ x, Needs call o x → x ∈ held' := by
  induction todo generalizing s held done with
  | nil =>
    refine ⟨held, ?_, fun x hx => ?_⟩
    · rw [set_eq_self hi]
      exact .refl s
    · have hmem : x ∈ lockedBy (call o).guards := mem_lockedBy.mpr hx
      rw [hguards, List.append_nil] at hmem
      obtain ⟨d, hd, hlock⟩ := List.mem_flatMap.mp hmem
      exact hdone d hd x hlock
  | cons g todo ih =>
    obtain ⟨held₁, hadvances, hkept, hall⟩ := lock_guard spurious hi ⟨done, todo, hguards, hdone⟩
      g.locks (fun x hx => hx) fun x _ _ => granted_of_free hfree
    have hfree' : ∀ j, j ≠ i → ∀ x, ¬ ((s.set i (.locking o held₁)).threads j).Holds call x := by
      intro j hj
      rw [set_of_ne hj]
      exact hfree j hj
    have hdone' : ∀ d ∈ done ++ [g], ∀ x ∈ d.locks, x ∈ held₁ := by
      intro d hd x hx
      rcases List.mem_append.mp hd with hd | hd
      · exact hkept x (hdone d hd x hx)
      · rw [List.mem_singleton.mp hd] at hx
        exact hall x hx
    obtain ⟨held₂, hadvances', hall'⟩ :=
      ih hfree' set_self (done ++ [g]) (by simp [hguards]) hdone'
    rw [set_set] at hadvances'
    exact ⟨held₂, hadvances.trans hadvances', hall'⟩

variable (spurious) in
/-- While no other thread has a lock, a call runs as if at once. -/
theorem complete (hfree : ∀ j, j ≠ i → ∀ x, ¬ (s.threads j).Holds call x)
    (hi : s.threads i = .locking o []) :
    Advances call spurious s (s.finish i o (call o).body) := by
  obtain ⟨held, hlocked, hall⟩ := lock_all spurious hfree hi []
    (call o).guards rfl fun d hd => absurd hd List.not_mem_nil
  have hfinished := finish_locked spurious (s := s.set i (.locking o held)) set_self
    hall
  rw [set_finish] at hfinished
  exact hlocked.trans hfinished

/-- A guard of several locks gives back what it has while another thread has one of them. -/
theorem back_off {xs : List ι} (hguards : (call o).guards = [.scopedLock xs])
    (hi : s.threads i = .locking o held) (hheld : ∀ x ∈ held, x ∈ xs) (hy : y ∈ xs)
    (hmissing : y ∉ held) (hblocked : ¬ Granted call s i o y) :
    Advances call spurious s (s.set i (.locking o [])) := by
  induction held generalizing s with
  | nil =>
    rw [set_eq_self hi]
    exact .refl s
  | cons x held ih =>
    have hat := Call.at_first hguards (x :: held)
    have hstep : Step call spurious s (s.set i (.locking o ((x :: held).erase x))) :=
      .retreat hi hat (hheld x List.mem_cons_self) List.mem_cons_self hy hmissing (Or.inr hblocked)
    rw [List.erase_cons_head] at hstep
    have hrest := ih (s := s.set i (.locking o held)) set_self
      (fun z hz => hheld z (List.mem_cons_of_mem x hz))
      (fun hmem => hmissing (List.mem_cons_of_mem x hmem))
      (fun hgranted => hblocked (granted_set.mp hgranted))
    rw [set_set] at hrest
    exact .trans (.of_set hstep (calls_of_locking hi) rfl) hrest

/-! ### What a thread has while it waits -/

variable (call) in
/-- The thread has no locks but those of its call. -/
def Thread.Fits (t : Thread O ι σ R) : Prop :=
  ∀ o held, t = .locking o held → ∀ x ∈ held, Needs call o x

omit [DecidableEq τ] [DecidableEq ι] in
theorem fits_of_mem (h : ∀ x ∈ held, Needs call o x) :
    (Thread.locking o held : Thread O ι σ R).Fits call := by
  intro o' held' heq
  cases heq
  exact h

omit [DecidableEq ι] [DecidableEq τ] in
theorem Call.At.needs (h : (call o).At held g) (hx : x ∈ g.locks) : Needs call o x := by
  obtain ⟨done, todo, hguards, _⟩ := h
  apply mem_lockedBy.mp
  rw [hguards]
  exact List.mem_flatMap.mpr ⟨g, by simp, hx⟩

theorem Step.fits (hstep : Step call spurious s s') (h : ∀ i, (s.threads i).Fits call) :
    ∀ i, (s'.threads i).Fits call := by
  cases hstep with
  | invoke o _ => exact forall_set h (fits_of_mem fun x hx => absurd hx List.not_mem_nil)
  | lock hi hat hx =>
    apply forall_set h (fits_of_mem fun y hy => ?_)
    rcases List.mem_cons.mp hy with hsame | hy
    · rw [hsame]
      exact hat.needs hx
    · exact h _ _ _ hi y hy
  | retreat hi =>
    exact forall_set h (fits_of_mem fun y hy => h _ _ _ hi y (List.mem_of_mem_erase hy))
  | enter | read | unlock => exact forall_set h nofun
  | write | release | leave => exact forall_set (s := s) h nofun

theorem Reaches.fits {objects : ι → σ} (h : Reaches call spurious (start objects) s) :
    ∀ i, (s.threads i).Fits call := by
  induction h with
  | refl => exact fun i => nofun
  | tail _ hstep ih => exact hstep.fits ih

omit [DecidableEq τ] [DecidableEq ι] in
theorem needs_of_sole (hguards : (call o).guards = [g]) : Needs call o x ↔ x ∈ g.locks := by
  rw [Needs, ← mem_lockedBy, hguards, lockedBy, List.flatMap_singleton]

omit [DecidableEq τ] [DecidableEq ι] in
theorem sole_guard (hone : (call o).guards.length ≤ 1) (hx : Needs call o x) :
    ∃ g, (call o).guards = [g] := by
  cases hguards : (call o).guards with
  | nil =>
    rw [Needs, ← mem_lockedBy, hguards] at hx
    exact absurd hx List.not_mem_nil
  | cons g todo =>
    rw [hguards, List.length_cons] at hone
    rw [List.eq_nil_of_length_eq_zero (by omega : todo.length = 0)]
    exact ⟨g, rfl⟩

omit [DecidableEq τ] [DecidableEq ι] in
/-- Only a guard of several locks waits for one while it has another. -/
theorem scoped_of_waiting (hone : (call o).guards.length ≤ 1)
    (hfits : (Thread.locking o held : Thread O ι σ R).Fits call) (hheld : held ≠ [])
    (hy : Needs call o y) (hmissing : y ∉ held) : ∃ xs, (call o).guards = [.scopedLock xs] := by
  obtain ⟨g, hguards⟩ := sole_guard hone hy
  obtain ⟨x, hx⟩ := List.exists_mem_of_ne_nil held hheld
  have hx' := (needs_of_sole hguards).mp (hfits o held rfl x hx)
  have hy' := (needs_of_sole hguards).mp hy
  cases g with
  | scopedLock xs => exact ⟨xs, hguards⟩
  | sharedLock z | uniqueLock z =>
    rw [List.mem_singleton.mp hy', ← List.mem_singleton.mp hx'] at hmissing
    exact absurd hx hmissing

/-! ### All threads -/

/-- What can be reached for one thread at a time can be reached for all of a list, if it is kept
meanwhile. -/
theorem one_by_one {P Q : Thread O ι σ R → Prop} (hPQ : ∀ t, P t → Q t)
    (hone : ∀ (s : State τ O ι σ R) i, (∀ j, Q (s.threads j)) →
      ∃ s', Advances call spurious s s' ∧ P (s'.threads i) ∧
        ∀ j, j ≠ i → s'.threads j = s.threads j)
    (threads : List τ) (hs : ∀ j, Q (s.threads j)) :
    ∃ s', Advances call spurious s s' ∧ (∀ i ∈ threads, P (s'.threads i)) ∧
      ∀ j, Q (s'.threads j) := by
  induction threads with
  | nil => exact ⟨s, .refl s, fun _ hi => absurd hi List.not_mem_nil, hs⟩
  | cons i threads ih =>
    obtain ⟨s₁, hadvances, hdone, hkept⟩ := ih
    obtain ⟨s₂, hadvances', hi, hothers⟩ := hone s₁ i hkept
    refine ⟨s₂, hadvances.trans hadvances', fun j hj => ?_, fun j => ?_⟩
    · by_cases hji : j = i
      · rw [hji]
        exact hi
      · rw [hothers j hji]
        rcases List.mem_cons.mp hj with hsame | hj
        · exact absurd hsame hji
        · exact hdone j hj
    · by_cases hji : j = i
      · rw [hji]
        exact hPQ _ hi
      · rw [hothers j hji]
        exact hkept j

/-- The thread has no lock, and no access under way. -/
def Thread.Calm (t : Thread O ι σ R) : Prop := t = .idle ∨ ∃ o, t = .locking o []

omit [DecidableEq τ] [DecidableEq ι] in
theorem Thread.Calm.free (h : t.Calm) (x : ι) : ¬ t.Holds call x := by
  rcases h with rfl | ⟨o, rfl⟩
  · exact id
  · exact List.not_mem_nil

omit [DecidableEq τ] [DecidableEq ι] in
theorem Thread.Calm.fits (h : t.Calm) : t.Fits call := by
  rcases h with rfl | ⟨o, rfl⟩
  · nofun
  · exact fits_of_mem fun x hx => absurd hx List.not_mem_nil

variable (spurious) in
/-- A thread that waits returns if it can, and else is left without a lock. -/
theorem calm_locking (hone : (call o).guards.length ≤ 1) (hi : s.threads i = .locking o held)
    (hfits : (s.threads i).Fits call) :
    Advances call spurious s (s.finish i o (call o).body) ∨
      Advances call spurious s (s.set i (.locking o [])) := by
  by_cases hall : ∀ x, Needs call o x → x ∈ held
  · exact Or.inl (finish_locked spurious hi hall)
  · simp only [not_forall] at hall
    obtain ⟨y, hy, hmissing⟩ := hall
    by_cases hnone : held = []
    · rw [hnone] at hi
      rw [set_eq_self hi]
      exact Or.inr (.refl s)
    · rw [hi] at hfits
      obtain ⟨xs, hguards⟩ := scoped_of_waiting hone hfits hnone hy hmissing
      have hlocks : ∀ x, Needs call o x ↔ x ∈ xs := fun x => needs_of_sole hguards
      -- one of the locks is another thread's, or all are there to be taken
      by_cases hblocked : ∃ z ∈ xs, z ∉ held ∧ ¬ Granted call s i o z
      · obtain ⟨z, hz, hzmissing, hzblocked⟩ := hblocked
        refine Or.inr (back_off hguards hi ?_ hz hzmissing hzblocked)
        exact fun x hx => (hlocks x).mp (hfits o held rfl x hx)
      · have hgranted : ∀ x ∈ xs, x ∉ held → Granted call s i o x := by
          intro x hx hxmissing
          by_contra hx'
          exact hblocked ⟨x, hx, hxmissing, hx'⟩
        obtain ⟨held', hlocked, _, hall⟩ := lock_guard spurious hi (Call.at_first hguards held)
          xs (fun x hx => hx) hgranted
        have hfinished := finish_locked spurious (s := s.set i (.locking o held'))
          set_self fun x hx => hall x ((hlocks x).mp hx)
        rw [set_finish] at hfinished
        exact Or.inl (hlocked.trans hfinished)

variable (spurious) in
theorem calm_one (hone : ∀ o, (call o).guards.length ≤ 1) (s : State τ O ι σ R) (i : τ)
    (hfits : ∀ j, (s.threads j).Fits call) :
    ∃ s', Advances call spurious s s' ∧ (s'.threads i).Calm ∧
      ∀ j, j ≠ i → s'.threads j = s.threads j := by
  cases hi : s.threads i with
  | idle => exact ⟨s, .refl s, Or.inl hi, fun _ _ => rfl⟩
  | locking o held =>
    rcases calm_locking spurious (hone o) hi (hfits i) with hfinished | hcalm
    · exact ⟨_, hfinished, Or.inl set_self, fun j => finish_of_ne⟩
    · exact ⟨_, hcalm, Or.inr ⟨o, set_self⟩, fun j => set_of_ne⟩
  | running o rest =>
    exact ⟨_, finish_running call spurious hi, Or.inl set_self, fun j => finish_of_ne⟩
  | leaving o r held =>
    exact ⟨_, give_back call spurious hi, Or.inl (set_self (s := s)), fun j => set_of_ne⟩

variable (call spurious) in
theorem drain_one (s : State τ O ι σ R) (i : τ) (hcalm : ∀ j, (s.threads j).Calm) :
    ∃ s', Advances call spurious s s' ∧ s'.threads i = .idle ∧
      ∀ j, j ≠ i → s'.threads j = s.threads j := by
  rcases hcalm i with hi | ⟨o, hi⟩
  · exact ⟨s, .refl s, hi, fun _ _ => rfl⟩
  · exact ⟨_, complete spurious (fun j _ => (hcalm j).free) hi, set_self, fun j => finish_of_ne⟩

variable (spurious) in
/-- Where no call takes a second guard there is no deadlock: whatever the threads are doing, all
their calls can still return. -/
theorem exists_quiescent (hone : ∀ o, (call o).guards.length ≤ 1) {threads : List τ}
    (hall : ∀ i, i ∈ threads) (hfits : ∀ i, (s.threads i).Fits call) :
    ∃ s', Advances call spurious s s' ∧ ∀ i, s'.threads i = .idle := by
  -- first all calls that can return do, and the others are left without a lock; then these run
  obtain ⟨s₁, hadvances, hcalm, _⟩ :=
    one_by_one (P := Thread.Calm) (Q := Thread.Fits call) (fun _ hcalm => hcalm.fits)
      (calm_one spurious hone) threads hfits
  obtain ⟨s₂, hadvances', hidle, _⟩ :=
    one_by_one (P := (· = .idle)) (Q := Thread.Calm) (fun _ => Or.inl)
      (drain_one call spurious) threads fun i => hcalm i (hall i)
  exact ⟨s₂, hadvances.trans hadvances', fun i => hidle i (hall i)⟩

/-! ### Two guards in opposite order -/

section Crossed
variable {rest : List (Guard ι)}

omit [DecidableEq τ] [DecidableEq ι] in
theorem Call.At.of_pair (hguards : (call o).guards = .uniqueLock x :: .uniqueLock y :: rest)
    (hxy : x ≠ y) (hat : (call o).At [x] g) : g = .uniqueLock x ∨ g = .uniqueLock y := by
  obtain ⟨done, todo, hsplit, hdone⟩ := hat
  rw [hguards] at hsplit
  rcases done with _ | ⟨d, _ | ⟨d', done⟩⟩
  · exact Or.inl (List.cons.inj hsplit).1.symm
  · exact Or.inr (List.cons.inj (List.cons.inj hsplit).2).1.symm
  · have hd' : Guard.uniqueLock y = d' := (List.cons.inj (List.cons.inj hsplit).2).1
    have hy := hdone d' (by simp) y (by rw [← hd']; exact List.mem_singleton_self y)
    exact absurd (List.mem_singleton.mp hy).symm hxy

/-- A thread with the first of two locks stays where it is while another one has the second. -/
theorem Step.stuck (hstep : Step call spurious s s')
    (hguards : (call o).guards = .uniqueLock x :: .uniqueLock y :: rest) (hxy : x ≠ y)
    (hi : s.threads i = .locking o [x]) (hji : j ≠ i) (hj : (s.threads j).Holds call y) :
    s'.threads i = .locking o [x] := by
  have howns : y ∈ (call o).owns := by
    show y ∈ ownedBy (call o).guards
    rw [hguards]
    exact List.mem_cons_of_mem x List.mem_cons_self
  have hmissing : y ∉ [x] := fun hy => hxy (List.mem_singleton.mp hy).symm
  have hother : ∀ {k : τ} {t' : Thread O ι σ R}, s.threads k = t' → t' ≠ .locking o [x] →
      ∀ t, (s.set k t).threads i = .locking o [x] := by
    rintro k t' hk hne t
    have hik : i ≠ k := by
      rintro rfl
      exact hne (hk.symm.trans hi)
    rw [set_of_ne hik, hi]
  cases hstep with
  | invoke _ h | read h | unlock h => exact hother h nofun _
  | write h | release h | leave h => exact hother h nofun _
  | @lock k o' held g z h hat hz hnew hgranted =>
    by_cases hik : i = k
    · subst hik
      rw [hi] at h
      cases h
      -- it has the first lock, and is not granted the second
      rcases hat.of_pair hguards hxy with rfl | rfl
      · exact absurd hz hnew
      · rw [List.mem_singleton.mp hz] at hgranted
        exact absurd hj ((hgranted j hji).2 howns)
    · rw [set_of_ne hik, hi]
  | @retreat k o' held xs z z' h hat _ _ _ _ _ =>
    apply hother h
    intro hsame
    cases hsame
    rcases hat.of_pair hguards hxy with hg | hg
    · cases hg
    · cases hg
  | @enter k o' held h hall =>
    apply hother h
    intro hsame
    cases hsame
    exact hmissing (hall y (Or.inr howns))

/-- Two calls that take the same two locks one by one, in opposite order, may never return. -/
theorem crossed_guards_deadlock {rest' : List (Guard ι)}
    (hguards : (call o).guards = .uniqueLock x :: .uniqueLock y :: rest)
    (hguards' : (call o').guards = .uniqueLock y :: .uniqueLock x :: rest') (hxy : x ≠ y)
    (hij : i ≠ j) (objects : ι → σ) :
    ∃ s, Reaches call spurious (start objects) s ∧ ∀ s', Reaches call spurious s s' →
      s'.threads i = .locking o [x] ∧ s'.threads j = .locking o' [y] := by
  let asked : State τ O ι σ R := (start objects).set i (.locking o [])
  let one : State τ O ι σ R := asked.set i (.locking o [x])
  let other : State τ O ι σ R := one.set j (.locking o' [])
  let both : State τ O ι σ R := other.set j (.locking o' [y])
  have hone : Step call spurious asked one := by
    refine .lock set_self (Call.at_first hguards []) (List.mem_singleton_self x) List.not_mem_nil ?_
    apply granted_of_free
    intro k hk z
    rw [set_of_ne hk]
    exact id
  have hboth : Step call spurious other both := by
    refine .lock set_self (Call.at_first hguards' []) (List.mem_singleton_self y)
      List.not_mem_nil ?_
    intro k hk
    have hfree : ¬ (other.threads k).Holds call y := by
      rw [set_of_ne hk]
      by_cases hki : k = i
      · rw [hki, set_self]
        exact fun hy => hxy (List.mem_singleton.mp hy).symm
      · rw [set_of_ne hki, set_of_ne hki]
        exact id
    exact ⟨fun howns => hfree howns.holds, fun _ => hfree⟩
  have hi : both.threads i = .locking o [x] := by
    rw [set_of_ne hij, set_of_ne hij, set_self]
  refine ⟨both, ?_, fun s' hs' => ?_⟩
  · have hinvoke : Step call spurious (start objects) asked := .invoke o rfl
    have hinvoke' : Step call spurious one other := by
      apply Step.invoke
      rw [set_of_ne hij.symm, set_of_ne hij.symm]
      rfl
    exact .tail (.tail (.tail (.tail .refl hinvoke) hone) hinvoke') hboth
  · induction hs' with
    | refl => exact ⟨hi, set_self⟩
    | tail _ hstep ih =>
      obtain ⟨hi, hj⟩ := ih
      refine ⟨hstep.stuck hguards hxy hi hij.symm ?_, hstep.stuck hguards' hxy.symm hj hij ?_⟩
      · rw [hj]
        exact List.mem_singleton_self y
      · rw [hi]
        exact List.mem_singleton_self x

end Crossed

variable (spurious) in
/-- Every sequence of calls is what some run looks like. -/
theorem Sequential.reached {objects now : ι → σ} {history : List (τ × O × R)}
    (h : Sequential (fun o => (call o).body.run) objects history now) :
    Reaches call spurious (start objects) ⟨now, fun _ => .idle, history, history⟩ := by
  induction h with
  | nil => exact .refl
  | @snoc history now i o _ ih =>
    let quiet : State τ O ι σ R := ⟨now, fun _ => .idle, history, history⟩
    have hinvoke : Step call spurious quiet (quiet.set i (.locking o [])) := .invoke o rfl
    have hfree : ∀ j, j ≠ i → ∀ x, ¬ ((quiet.set i (.locking o [])).threads j).Holds call x := by
      intro j hj x
      rw [set_of_ne hj]
      exact id
    have hreturned := (complete spurious hfree set_self).reaches
    rw [set_finish, State.finish, set_eq_self rfl] at hreturned
    exact (ih.tail hinvoke).trans hreturned

end Progress

end Locking
