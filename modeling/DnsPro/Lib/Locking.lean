import Mathlib.Data.List.Nodup
import Mathlib.Logic.Function.Basic
import Mathlib.Logic.Relation

/-!
# Critical sections under reader-writer locks

Objects of one type, each behind its own reader-writer lock. A call takes the locks its guards name,
guard after guard; only a guard of several locks may give some back and try again. Holding all of
them the call runs its body, one access at a time, then gives them back one by one and returns.
Accesses of different threads interleave freely, and yet every run looks as if each call had
happened at once when it began to give back its locks.
-/

namespace Locking

set_option autoImplicit false

/-! ### Bodies -/

/-- What a call does with the objects, one access after the other. -/
inductive Body (ι σ R : Type) where
  | ret (r : R)
  | read (x : ι) (next : σ → Body ι σ R)
  | write (x : ι) (f : σ → σ) (next : Body ι σ R)

namespace Body
variable {ι σ R : Type}

/-- All accesses at once: the result, and the objects afterwards. -/
def run [DecidableEq ι] : Body ι σ R → (ι → σ) → R × (ι → σ)
  | ret r, objects => (r, objects)
  | read x next, objects => (next (objects x)).run objects
  | write x f next, objects => next.run (Function.update objects x (f (objects x)))

/-- Every access is to an object of the lists, every write to one of the second list. -/
inductive Within (shares owns : List ι) : Body ι σ R → Prop where
  | ret (r : R) : Within shares owns (.ret r)
  | read {x : ι} {next : σ → Body ι σ R} : x ∈ shares ∨ x ∈ owns →
      (∀ v, Within shares owns (next v)) → Within shares owns (.read x next)
  | write {x : ι} {f : σ → σ} {next : Body ι σ R} : x ∈ owns →
      Within shares owns next → Within shares owns (.write x f next)

section Footprint
variable [DecidableEq ι] {shares owns : List ι} {body : Body ι σ R}

theorem Within.frame (h : body.Within shares owns) {x : ι} (hx : x ∉ owns) (objects : ι → σ) :
    (body.run objects).2 x = objects x := by
  induction h generalizing objects with
  | ret => rfl
  | read _ _ ih => exact ih _ objects
  | @write y f next hy _ ih =>
    rw [run, ih]
    apply Function.update_of_ne
    intro hsame
    rw [hsame] at hx
    exact hx hy

/-- A body depends only on the objects it may touch. -/
theorem Within.congr (h : body.Within shares owns) {objects objects' : ι → σ}
    (hsame : ∀ x, x ∈ shares ∨ x ∈ owns → objects x = objects' x) :
    (body.run objects).1 = (body.run objects').1 ∧
      ∀ x ∈ owns, (body.run objects).2 x = (body.run objects').2 x := by
  induction h generalizing objects objects' with
  | ret => exact ⟨rfl, fun x hx => hsame x (Or.inr hx)⟩
  | read hx _ ih =>
    rw [run, run, hsame _ hx]
    exact ih _ hsame
  | @write y f next hy _ ih =>
    rw [run, run]
    apply ih
    intro x hx
    rw [hsame y (Or.inr hy)]
    by_cases hxy : x = y
    · rw [hxy, Function.update_self, Function.update_self]
    · rw [Function.update_of_ne hxy, Function.update_of_ne hxy]
      exact hsame x hx

end Footprint

end Body

/-! ### Guards -/

/-- What is locked by one guard: an object in shared or in exclusive mode, or several objects in
exclusive mode, in any order. -/
inductive Guard (ι : Type) where
  | sharedLock (x : ι)
  | uniqueLock (x : ι)
  | scopedLock (xs : List ι)

section Guards
variable {ι : Type}

def Guard.shares : Guard ι → List ι
  | sharedLock x => [x]
  | uniqueLock _ | scopedLock _ => []

def Guard.owns : Guard ι → List ι
  | sharedLock _ => []
  | uniqueLock x => [x]
  | scopedLock xs => xs

def Guard.locks : Guard ι → List ι
  | sharedLock x | uniqueLock x => [x]
  | scopedLock xs => xs

def sharedBy (guards : List (Guard ι)) : List ι := guards.flatMap Guard.shares

def ownedBy (guards : List (Guard ι)) : List ι := guards.flatMap Guard.owns

def lockedBy (guards : List (Guard ι)) : List ι := guards.flatMap Guard.locks

theorem Guard.mem_locks {g : Guard ι} {x : ι} : x ∈ g.locks ↔ x ∈ g.shares ∨ x ∈ g.owns := by
  cases g with
  | sharedLock y => simp [locks, shares, owns]
  | uniqueLock y => simp [locks, shares, owns]
  | scopedLock ys => simp [locks, shares, owns]

theorem mem_lockedBy {guards : List (Guard ι)} {x : ι} :
    x ∈ lockedBy guards ↔ x ∈ sharedBy guards ∨ x ∈ ownedBy guards := by
  simp only [lockedBy, sharedBy, ownedBy, List.mem_flatMap, Guard.mem_locks]
  constructor
  · rintro ⟨g, hg, hx | hx⟩
    · exact Or.inl ⟨g, hg, hx⟩
    · exact Or.inr ⟨g, hg, hx⟩
  · rintro (⟨g, hg, hx⟩ | ⟨g, hg, hx⟩)
    · exact ⟨g, hg, Or.inl hx⟩
    · exact ⟨g, hg, Or.inr hx⟩

end Guards

/-- A body together with the guards it runs under; no lock is asked for twice. -/
structure Call (ι σ R : Type) where
  guards : List (Guard ι)
  body : Body ι σ R
  distinct : (lockedBy guards).Nodup
  within : body.Within (sharedBy guards) (ownedBy guards)

namespace Call
variable {ι σ R : Type}

abbrev shares (c : Call ι σ R) : List ι := sharedBy c.guards

abbrev owns (c : Call ι σ R) : List ι := ownedBy c.guards

/-- With these locks the call is at guard `g`: it has all those of the guards before. -/
def At (c : Call ι σ R) (held : List ι) (g : Guard ι) : Prop :=
  ∃ done todo, c.guards = done ++ g :: todo ∧ ∀ d ∈ done, ∀ x ∈ d.locks, x ∈ held

theorem at_first {c : Call ι σ R} {g : Guard ι} {todo : List (Guard ι)}
    (h : c.guards = g :: todo) (held : List ι) : c.At held g :=
  ⟨[], todo, h, fun _ hd => absurd hd List.not_mem_nil⟩

end Call

/-! ### Calls at once -/

/-- Calls that happen at once, one after the other: what they return, and the state at the end. -/
inductive Sequential {τ O S R : Type} (apply : O → S → R × S) (start : S) :
    List (τ × O × R) → S → Prop where
  | nil : Sequential apply start [] start
  | snoc {history : List (τ × O × R)} {now : S} (i : τ) (o : O) :
      Sequential apply start history now →
      Sequential apply start (history ++ [(i, o, (apply o now).1)]) (apply o now).2

/-- The same call of the same thread, with a related result. -/
def SameReturn {τ O R R' : Type} (related : R → R' → Prop) (e : τ × O × R) (e' : τ × O × R') :
    Prop :=
  e.1 = e'.1 ∧ e.2.1 = e'.2.1 ∧ related e.2.2 e'.2.2

/-- Where every call keeps a relation between two kinds of states, sequences of calls do. -/
theorem Sequential.simulate {τ O S S' R R' : Type} {apply : O → S → R × S}
    {apply' : O → S' → R' × S'} {related : S → S' → Prop} {answers : R → R' → Prop}
    (hcall : ∀ o s s', related s s' →
      answers (apply o s).1 (apply' o s').1 ∧ related (apply o s).2 (apply' o s').2)
    {s now : S} {s' : S'} {history : List (τ × O × R)} (hs : related s s')
    (h : Sequential apply s history now) :
    ∃ history' now', Sequential apply' s' history' now' ∧ related now now' ∧
      List.Forall₂ (SameReturn answers) history history' := by
  induction h with
  | nil => exact ⟨[], s', .nil, hs, .nil⟩
  | @snoc history now i o _ ih =>
    obtain ⟨history', now', hsequential, hnow, hsame⟩ := ih
    obtain ⟨hanswer, hnext⟩ := hcall o now now' hnow
    exact ⟨_, _, .snoc i o hsequential, hnext,
      List.rel_append hsame (.cons ⟨rfl, rfl, hanswer⟩ .nil)⟩

/-! ### Threads -/

inductive Thread (O ι σ R : Type) where
  | idle
  | locking (o : O) (held : List ι)
  | running (o : O) (rest : Body ι σ R)
  | leaving (o : O) (r : R) (held : List ι)

/-- Objects, threads, and the calls with their results: those that have begun to give back their
locks, and those that have returned. -/
structure State (τ O ι σ R : Type) where
  shared : ι → σ
  threads : τ → Thread O ι σ R
  released : List (τ × O × R)
  returned : List (τ × O × R)

section Machine
variable {τ O ι σ R : Type} (call : O → Call ι σ R) (spurious : Prop)

def Needs (o : O) (x : ι) : Prop := x ∈ (call o).shares ∨ x ∈ (call o).owns

/-- The thread has the lock of the object, in either mode. -/
def Thread.Holds : Thread O ι σ R → ι → Prop
  | .idle, _ => False
  | .locking _ held, x => x ∈ held
  | .running o _, x => Needs call o x
  | .leaving _ _ held, x => x ∈ held

/-- The thread has the lock of the object exclusively. -/
def Thread.Owns : Thread O ι σ R → ι → Prop
  | .idle, _ => False
  | .locking o held, x => x ∈ held ∧ x ∈ (call o).owns
  | .running o _, x => x ∈ (call o).owns
  | .leaving o _ held, x => x ∈ held ∧ x ∈ (call o).owns

variable [DecidableEq τ] [DecidableEq ι]

def State.set (s : State τ O ι σ R) (i : τ) (t : Thread O ι σ R) : State τ O ι σ R :=
  { s with threads := Function.update s.threads i t }

/-- A lock is granted when no other thread owns it, and in exclusive mode when no other thread
has it at all. -/
def Granted (s : State τ O ι σ R) (i : τ) (o : O) (x : ι) : Prop :=
  ∀ j, j ≠ i → ¬ (s.threads j).Owns call x ∧
    (x ∈ (call o).owns → ¬ (s.threads j).Holds call x)

/-- A guard of one lock waits until it is granted. A guard of several locks that does not get one of
them may give back those it has, and with `spurious` also for no reason. -/
inductive Step : State τ O ι σ R → State τ O ι σ R → Prop where
  | invoke {s : State τ O ι σ R} {i : τ} (o : O) : s.threads i = .idle →
      Step s (s.set i (.locking o []))
  | lock {s : State τ O ι σ R} {i : τ} {o : O} {held : List ι} {g : Guard ι} {x : ι} :
      s.threads i = .locking o held → (call o).At held g → x ∈ g.locks → x ∉ held →
      Granted call s i o x → Step s (s.set i (.locking o (x :: held)))
  | retreat {s : State τ O ι σ R} {i : τ} {o : O} {held xs : List ι} {x y : ι} :
      s.threads i = .locking o held → (call o).At held (.scopedLock xs) → x ∈ xs → x ∈ held →
      y ∈ xs → y ∉ held → spurious ∨ ¬ Granted call s i o y →
      Step s (s.set i (.locking o (held.erase x)))
  | enter {s : State τ O ι σ R} {i : τ} {o : O} {held : List ι} :
      s.threads i = .locking o held → (∀ x, Needs call o x → x ∈ held) →
      Step s (s.set i (.running o (call o).body))
  | read {s : State τ O ι σ R} {i : τ} {o : O} {x : ι} {next : σ → Body ι σ R} :
      s.threads i = .running o (.read x next) → Step s (s.set i (.running o (next (s.shared x))))
  | write {s : State τ O ι σ R} {i : τ} {o : O} {x : ι} {f : σ → σ} {next : Body ι σ R} :
      s.threads i = .running o (.write x f next) →
      Step s { s.set i (.running o next) with
        shared := Function.update s.shared x (f (s.shared x)) }
  | release {s : State τ O ι σ R} {i : τ} {o : O} {r : R} :
      s.threads i = .running o (.ret r) →
      Step s { s.set i (.leaving o r (lockedBy (call o).guards)) with
        released := s.released ++ [(i, o, r)] }
  | unlock {s : State τ O ι σ R} {i : τ} {o : O} {r : R} {held : List ι} {x : ι} :
      s.threads i = .leaving o r held → x ∈ held → Step s (s.set i (.leaving o r (held.erase x)))
  | leave {s : State τ O ι σ R} {i : τ} {o : O} {r : R} :
      s.threads i = .leaving o r [] →
      Step s { s.set i .idle with returned := s.returned ++ [(i, o, r)] }

def start (objects : ι → σ) : State τ O ι σ R := ⟨objects, fun _ => .idle, [], []⟩

abbrev Reaches (s s' : State τ O ι σ R) : Prop := Relation.ReflTransGen (Step call spurious) s s'

/-- A running call is on its way to the result and the effect that its whole body has on `now`. -/
structure OnTrack (now shared : ι → σ) (o : O) (rest : Body ι σ R) : Prop where
  within : rest.Within (call o).shares (call o).owns
  result : ((call o).body.run now).1 = (rest.run shared).1
  effect : ∀ x ∈ (call o).owns, ((call o).body.run now).2 x = (rest.run shared).2 x

/-- What every run keeps: `now` is what the objects would be had the calls that are over, returned
or giving back their locks, happened at once and the others not begun. -/
structure Legal (objects : ι → σ) (s : State τ O ι σ R) (now : ι → σ) : Prop where
  sequential : Sequential (fun o => (call o).body.run) objects s.released now
  exclusive : ∀ i j, i ≠ j → ∀ x, (s.threads i).Owns call x → ¬ (s.threads j).Holds call x
  settled : ∀ x, (∀ i o rest, s.threads i = .running o rest → x ∉ (call o).owns) →
    s.shared x = now x
  running : ∀ i o rest, s.threads i = .running o rest → OnTrack call now s.shared o rest

end Machine

section Invariant
variable {τ O ι σ R : Type} [DecidableEq τ] [DecidableEq ι] {call : O → Call ι σ R}
  {spurious : Prop}
variable {objects now now' shared shared' : ι → σ} {s s' : State τ O ι σ R} {i j : τ} {o : O}
  {rest : Body ι σ R} {t : Thread O ι σ R} {x : ι}

omit [DecidableEq ι] in
theorem Thread.Owns.holds (h : t.Owns call x) : t.Holds call x := by
  cases t with
  | idle => exact h
  | locking o held => exact h.1
  | running o rest => exact Or.inr h
  | leaving o r held => exact h.1

omit [DecidableEq ι] in
theorem set_self : (s.set i t).threads i = t := Function.update_self ..

omit [DecidableEq ι] in
theorem set_of_ne (h : j ≠ i) : (s.set i t).threads j = s.threads j := Function.update_of_ne h ..

omit [DecidableEq ι] in
@[simp]
theorem set_released : (s.set i t).released = s.released := rfl

omit [DecidableEq ι] in
@[simp]
theorem set_returned : (s.set i t).returned = s.returned := rfl

/-- Running calls are on track after one thread has changed: the new one, and the others. -/
theorem onTrack_set (hi : ∀ o rest, t = .running o rest → OnTrack call now shared o rest)
    (hothers : ∀ j, j ≠ i → ∀ o rest, s.threads j = .running o rest →
      OnTrack call now shared o rest) :
    ∀ j o rest, (s.set i t).threads j = .running o rest → OnTrack call now shared o rest := by
  intro j o rest hj
  by_cases hji : j = i
  · rw [hji, set_self] at hj
    exact hi o rest hj
  · rw [set_of_ne hji] at hj
    exact hothers j hji o rest hj

theorem OnTrack.congr (h : OnTrack call now shared o rest)
    (hnow : ∀ x, Needs call o x → now' x = now x)
    (hshared : ∀ x, Needs call o x → shared' x = shared x) :
    OnTrack call now' shared' o rest := by
  obtain ⟨hresult, heffect⟩ := (call o).within.congr hnow
  obtain ⟨hresult', heffect'⟩ := h.within.congr hshared
  refine ⟨h.within, ?_, fun x hx => ?_⟩
  · rw [hresult, hresult', h.result]
  · rw [heffect x hx, heffect' x hx, h.effect x hx]

omit [DecidableEq τ] in
theorem legal_start (objects : ι → σ) : Legal call objects (start (τ := τ) objects) objects where
  sequential := .nil
  exclusive i j _ x h := h.elim
  settled x _ := rfl
  running i o rest h := by cases h

variable (call) in
/-- Thread `i` could be `t` as far as the locks of the other threads are concerned. -/
def Excludes (s : State τ O ι σ R) (i : τ) (t : Thread O ι σ R) : Prop :=
  ∀ j, j ≠ i → ∀ x, (t.Owns call x → ¬ (s.threads j).Holds call x) ∧
    ((s.threads j).Owns call x → ¬ t.Holds call x)

omit [DecidableEq ι] in
theorem exclusive_set
    (h : ∀ j k, j ≠ k → ∀ x, (s.threads j).Owns call x → ¬ (s.threads k).Holds call x)
    (hnew : Excludes call s i t) :
    ∀ j k, j ≠ k → ∀ x, ((s.set i t).threads j).Owns call x →
      ¬ ((s.set i t).threads k).Holds call x := by
  intro j k hjk x
  by_cases hj : j = i
  · subst hj
    rw [set_self, set_of_ne (Ne.symm hjk)]
    exact (hnew k (Ne.symm hjk) x).1
  · by_cases hk : k = i
    · subst hk
      rw [set_self, set_of_ne hjk]
      exact (hnew j hjk x).2
    · rw [set_of_ne hj, set_of_ne hk]
      exact h j k hjk x

omit [DecidableEq τ] in
/-- A thread that has no more locks than before. -/
theorem Legal.excludes (h : Legal call objects s now)
    (hholds : ∀ x, t.Holds call x → (s.threads i).Holds call x)
    (howns : ∀ x, t.Owns call x → (s.threads i).Owns call x) : Excludes call s i t := by
  intro j hj x
  refine ⟨fun hx => h.exclusive i j (Ne.symm hj) x (howns x hx), fun hx hholding => ?_⟩
  exact h.exclusive j i hj x hx (hholds x hholding)

omit [DecidableEq τ] in
/-- A running call keeps its locks from one access to the next. -/
theorem Legal.excludes_running (h : Legal call objects s now)
    (hi : s.threads i = .running o rest) (rest' : Body ι σ R) :
    Excludes call s i (.running o rest') := by
  apply h.excludes
  · intro x hx
    rwa [hi]
  · intro x hx
    rwa [hi]

omit [DecidableEq ι] in
theorem unowned_of_set
    (hx : ∀ j o rest, (s.set i t).threads j = .running o rest → x ∉ (call o).owns)
    (hi : ∀ o rest, s.threads i = .running o rest → x ∉ (call o).owns) :
    ∀ j o rest, s.threads j = .running o rest → x ∉ (call o).owns := by
  intro j o rest hj
  by_cases hji : j = i
  · rw [hji] at hj
    exact hi o rest hj
  · exact hx j o rest ((set_of_ne hji).trans hj)

/-- A step that changes one thread and no object. -/
theorem Legal.set (h : Legal call objects s now)
    (hexcludes : Excludes call s i t)
    (hkept : ∀ o rest, s.threads i = .running o rest → ∃ rest', t = .running o rest')
    (hrunning : ∀ o rest, t = .running o rest → OnTrack call now s.shared o rest) :
    Legal call objects (s.set i t) now where
  sequential := h.sequential
  exclusive := exclusive_set h.exclusive hexcludes
  settled x hx := by
    apply h.settled x
    apply unowned_of_set hx
    intro o rest hi
    obtain ⟨rest', ht⟩ := hkept o rest hi
    exact hx i o rest' (set_self.trans ht)
  running := onTrack_set hrunning fun j _ => h.running j

/-- A thread that has not begun to access objects, and does not begin now. -/
theorem Legal.set_waiting (h : Legal call objects s now) (hexcludes : Excludes call s i t)
    (hi : ∀ o rest, s.threads i ≠ .running o rest) (ht : ∀ o rest, t ≠ .running o rest) :
    Legal call objects (s.set i t) now :=
  h.set hexcludes (fun o rest hrest => absurd hrest (hi o rest))
    fun o rest hrest => absurd hrest (ht o rest)

/-- A thread that runs neither before nor after, and has no locks that it had not. -/
theorem Legal.set_fewer (h : Legal call objects s now) {t₀ : Thread O ι σ R}
    (hi : s.threads i = t₀) (ht₀ : ∀ o rest, t₀ ≠ .running o rest)
    (ht : ∀ o rest, t ≠ .running o rest) (hholds : ∀ x, t.Holds call x → t₀.Holds call x)
    (howns : ∀ x, t.Owns call x → t₀.Owns call x) : Legal call objects (s.set i t) now := by
  subst hi
  exact h.set_waiting (h.excludes hholds howns) ht₀ ht

omit [DecidableEq τ] in
/-- Before its first access a call finds the objects it may touch as they are for it. -/
theorem Legal.settled_of_holds (h : Legal call objects s now)
    (hidle : ∀ o rest, s.threads i ≠ .running o rest) (hx : (s.threads i).Holds call x) :
    s.shared x = now x := by
  apply h.settled x
  intro j o rest hj howns
  have hij : j ≠ i := by
    intro hsame
    rw [hsame] at hj
    exact hidle o rest hj
  apply h.exclusive j i hij x _ hx
  rw [hj]
  exact howns

theorem Legal.read (h : Legal call objects s now) {next : σ → Body ι σ R}
    (hi : s.threads i = .running o (.read x next)) :
    Legal call objects (s.set i (.running o (next (s.shared x)))) now := by
  have htrack := h.running i o _ hi
  refine h.set (h.excludes_running hi _) ?_ ?_
  · intro o' rest hrest
    rw [hi] at hrest
    cases hrest
    exact ⟨_, rfl⟩
  · intro o' rest hrest
    cases hrest
    cases htrack.within with
    | read _ hnext => exact ⟨hnext _, htrack.result, htrack.effect⟩

/-- A write concerns an object that no other running call may touch. -/
theorem Legal.write (h : Legal call objects s now) {f : σ → σ} {next : Body ι σ R}
    (hi : s.threads i = .running o (.write x f next)) :
    Legal call objects { s.set i (.running o next) with
      shared := Function.update s.shared x (f (s.shared x)) } now := by
  have htrack := h.running i o _ hi
  cases htrack.within with
  | write hx hnext =>
    have howns : (s.threads i).Owns call x := by rwa [hi]
    refine ⟨h.sequential, exclusive_set h.exclusive (h.excludes_running hi next), ?_, ?_⟩
    · intro y hy
      have hunowned : y ∉ (call o).owns := hy i o next set_self
      have hyx : y ≠ x := by
        intro hsame
        rw [hsame] at hunowned
        exact hunowned hx
      show Function.update s.shared x (f (s.shared x)) y = now y
      rw [Function.update_of_ne hyx]
      apply h.settled y
      apply unowned_of_set hy
      intro o' rest hrest
      rw [hi] at hrest
      cases hrest
      exact hunowned
    · refine onTrack_set ?_ fun j hj o' rest hrest => ?_
      · intro o' rest hrest
        cases hrest
        exact ⟨hnext, htrack.result, htrack.effect⟩
      · apply (h.running j o' rest hrest).congr (fun y _ => rfl)
        intro y hy
        apply Function.update_of_ne
        intro hsame
        rw [hsame] at hy
        apply h.exclusive i j (Ne.symm hj) x howns
        rw [hrest]
        exact hy

/-- When a call begins to give back its locks, all it did is there, and it is as if it had happened
just now. -/
theorem Legal.release (h : Legal call objects s now) {r : R}
    (hi : s.threads i = .running o (.ret r)) :
    Legal call objects { s.set i (.leaving o r (lockedBy (call o).guards)) with
      released := s.released ++ [(i, o, r)] } ((call o).body.run now).2 := by
  have htrack := h.running i o _ hi
  have hframe : ∀ x, x ∉ (call o).owns → ((call o).body.run now).2 x = now x :=
    fun x hx => (call o).within.frame hx now
  have hexcludes : Excludes call s i (.leaving o r (lockedBy (call o).guards)) := by
    apply h.excludes
    · intro x hx
      rw [hi]
      exact mem_lockedBy.mp hx
    · intro x hx
      rw [hi]
      exact hx.2
  refine ⟨?_, exclusive_set h.exclusive hexcludes, ?_, ?_⟩
  · have hresult : ((call o).body.run now).1 = r := htrack.result
    have hsnoc := Sequential.snoc i o h.sequential
    rwa [hresult] at hsnoc
  · intro x hx
    show s.shared x = _
    by_cases howned : x ∈ (call o).owns
    · exact (htrack.effect x howned).symm
    · rw [hframe x howned]
      apply h.settled x
      apply unowned_of_set hx
      intro o' rest hrest
      rw [hi] at hrest
      cases hrest
      exact howned
  · refine onTrack_set (fun o' rest hrest => by cases hrest) fun j hj o' rest hrest => ?_
    apply (h.running j o' rest hrest).congr _ (fun x _ => rfl)
    intro x hx
    apply hframe x
    intro howned
    apply h.exclusive i j (Ne.symm hj) x
    · rw [hi]
      exact howned
    · rw [hrest]
      exact hx

theorem Legal.lock (h : Legal call objects s now) {held : List ι}
    (hi : s.threads i = .locking o held) (hgranted : Granted call s i o x) :
    Legal call objects (s.set i (.locking o (x :: held))) now := by
  have hheld := h.excludes (i := i) (t := .locking o held) (fun y hy => by rwa [hi])
    fun y hy => by rwa [hi]
  refine h.set_waiting (fun j hj y => ⟨?_, ?_⟩) (by rw [hi]; nofun) nofun
  · intro ⟨hmem, howns⟩
    rcases List.mem_cons.mp hmem with hsame | hmem
    · rw [hsame] at howns ⊢
      exact (hgranted j hj).2 howns
    · exact (hheld j hj y).1 ⟨hmem, howns⟩
  · intro howns hmem
    rcases List.mem_cons.mp hmem with hsame | hmem
    · rw [hsame] at howns
      exact (hgranted j hj).1 howns
    · exact (hheld j hj y).2 howns hmem

/-- With all its locks, a call finds everything as it is for the calls that are over. -/
theorem Legal.enter (h : Legal call objects s now) {held : List ι}
    (hi : s.threads i = .locking o held) (hall : ∀ x, Needs call o x → x ∈ held) :
    Legal call objects (s.set i (.running o (call o).body)) now := by
  have hwaits : ∀ o rest, s.threads i ≠ .running o rest := by
    rw [hi]
    nofun
  have hheld : ∀ y, Needs call o y → (s.threads i).Holds call y := by
    intro y hy
    rw [hi]
    exact hall y hy
  refine h.set (h.excludes hheld ?_) (fun o rest hrest => absurd hrest (hwaits o rest)) ?_
  · intro y hy
    rw [hi]
    exact ⟨hall y (Or.inr hy), hy⟩
  · intro o' rest hrest
    cases hrest
    have hsettled : ∀ y, Needs call o y → now y = s.shared y :=
      fun y hy => (h.settled_of_holds hwaits (hheld y hy)).symm
    obtain ⟨hresult, heffect⟩ := (call o).within.congr hsettled
    exact ⟨(call o).within, hresult, heffect⟩

theorem Legal.step (h : Legal call objects s now) (hstep : Step call spurious s s') :
    ∃ now', Legal call objects s' now' := by
  cases hstep with
  | invoke o hi =>
    refine ⟨now, h.set_waiting (fun j _ x => ⟨fun hnone => ?_, fun _ => ?_⟩) ?_ nofun⟩
    · exact absurd hnone.1 List.not_mem_nil
    · exact List.not_mem_nil
    · rw [hi]
      nofun
  | lock hi _ _ _ hgranted => exact ⟨now, h.lock hi hgranted⟩
  | retreat hi =>
    refine ⟨now, h.set_fewer hi nofun nofun (fun y hy => List.mem_of_mem_erase hy) fun y hy => ?_⟩
    exact ⟨List.mem_of_mem_erase hy.1, hy.2⟩
  | enter hi hall => exact ⟨now, h.enter hi hall⟩
  | read hi => exact ⟨now, h.read hi⟩
  | write hi => exact ⟨now, h.write hi⟩
  | release hi => exact ⟨_, h.release hi⟩
  | unlock hi =>
    refine ⟨now, h.set_fewer hi nofun nofun (fun y hy => List.mem_of_mem_erase hy) fun y hy => ?_⟩
    exact ⟨List.mem_of_mem_erase hy.1, hy.2⟩
  | leave hi =>
    have hset : Legal call objects (s.set _ .idle) now :=
      h.set_fewer hi nofun nofun (fun _ => False.elim) fun _ => False.elim
    exact ⟨now, hset.sequential, hset.exclusive, hset.settled, hset.running⟩

theorem Reaches.legal (h : Reaches call spurious (start objects) s) :
    ∃ now, Legal call objects s now := by
  induction h with
  | refl => exact ⟨objects, legal_start objects⟩
  | tail _ hstep ih =>
    obtain ⟨now, hlegal⟩ := ih
    exact hlegal.step hstep

end Invariant

/-! ### Returning -/

/-- The call that a thread has to return from, once it is over. -/
def Thread.unreturned {τ O ι σ R : Type} (i : τ) : Thread O ι σ R → List (τ × O × R)
  | .leaving o r _ => [(i, o, r)]
  | _ => []

section Returns
variable {τ O ι σ R : Type} [DecidableEq τ] [DecidableEq ι] {call : O → Call ι σ R}
  {spurious : Prop}
variable {objects : ι → σ} {s s' : State τ O ι σ R} {i : τ} {t : Thread O ι σ R}

/-- Each thread has returned from its calls that are over, except the one it is leaving. -/
def InOrder (s : State τ O ι σ R) : Prop :=
  ∀ i, s.released.filter (·.1 = i) = s.returned.filter (·.1 = i) ++ (s.threads i).unreturned i

omit [DecidableEq ι] in
theorem InOrder.set (h : InOrder s) (ht : t.unreturned i = (s.threads i).unreturned i) :
    InOrder (s.set i t) := by
  intro j
  by_cases hj : j = i
  · subst hj
    rw [set_self, ht]
    exact h j
  · rw [set_of_ne hj]
    exact h j

theorem InOrder.step (h : InOrder s) (hstep : Step call spurious s s') : InOrder s' := by
  cases hstep with
  | invoke o hi | lock hi | retreat hi | enter hi | read hi | unlock hi =>
    apply h.set
    rw [hi]
    rfl
  | write hi =>
    apply h.set
    rw [hi]
    rfl
  | @release i o r hi =>
    intro j
    have hj := h j
    by_cases hji : j = i
    · subst hji
      rw [hi] at hj
      simp [Thread.unreturned, set_self, hj]
    · simp [set_of_ne hji, hj, Ne.symm hji]
  | @leave i o r hi =>
    intro j
    have hj := h j
    by_cases hji : j = i
    · subst hji
      rw [hi] at hj
      simp [Thread.unreturned, set_self, hj]
    · simp [set_of_ne hji, hj, Ne.symm hji]

theorem Reaches.inOrder (h : Reaches call spurious (start objects) s) : InOrder s := by
  induction h with
  | refl => exact fun i => rfl
  | tail _ hstep ih => exact ih.step hstep

theorem Reaches.released_prefix (h : Reaches call spurious s s') : s.released <+: s'.released := by
  induction h with
  | refl => exact List.prefix_rfl
  | tail _ hstep ih =>
    apply ih.trans
    cases hstep with
    | release => exact List.prefix_append ..
    | _ => exact List.prefix_rfl

end Returns

/-! ### Races -/

/-- The object that a body touches next. -/
def Body.Touches {ι σ R : Type} : Body ι σ R → ι → Prop
  | .ret _, _ => False
  | .read x _, y => x = y
  | .write x _ _, y => x = y

section Races
variable {τ O ι σ R : Type} [DecidableEq τ] [DecidableEq ι] {call : O → Call ι σ R}
variable {objects now : ι → σ} {s : State τ O ι σ R} {i j : τ} {o o' : O} {rest : Body ι σ R}
  {x : ι}

omit [DecidableEq ι] in
theorem Body.Within.needs (h : rest.Within (call o).shares (call o).owns) (hx : rest.Touches x) :
    Needs call o x := by
  cases h with
  | ret => exact hx.elim
  | read hy _ => rwa [← hx]
  | write hy _ => rw [← hx]; exact Or.inr hy

omit [DecidableEq τ] in
/-- While one thread is about to write an object, no other is about to touch it. -/
theorem Legal.no_race (h : Legal call objects s now) {f : σ → σ} {next : Body ι σ R}
    (hi : s.threads i = .running o (.write x f next)) (hij : i ≠ j)
    (hj : s.threads j = .running o' rest) : ¬ rest.Touches x := by
  intro htouches
  apply h.exclusive i j hij x
  · rw [hi]
    cases (h.running i o _ hi).within with
    | write hx _ => exact hx
  · rw [hj]
    exact (h.running j o' rest hj).within.needs htouches

end Races

end Locking
