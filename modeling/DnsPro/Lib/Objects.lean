import Mathlib.Data.List.Forall2

/-!
# Programs over objects of one class

A program constructs objects, calls updating members on them, and copies and moves them around;
objects are named by the order of their construction. `Simulates` is what two classes have to
satisfy for every program to keep their objects related, whatever the programs do.
-/

namespace Objects

set_option autoImplicit false

variable {U S L : Type}

/-- The special members of a class and its updating calls. An assignment is given two objects, or
the one that is on both sides; a move returns the new value and what is left behind. -/
structure ValueClass (U S : Type) where
  construct : S
  call : U → S → S
  copyConstruct : S → S
  copyAssign : S → S → S
  copyAssignSelf : S → S
  moveConstruct : S → S × S
  moveAssign : S → S → S × S
  moveAssignSelf : S → S

inductive Instr (U : Type) where
  | construct
  | call (target : Nat) (update : U)
  | copyConstruct (source : Nat)
  | copyAssign (target source : Nat)
  | moveConstruct (source : Nat)
  | moveAssign (target source : Nat)

/-- One instruction; there is no result when it names an object that was never constructed. -/
def step (C : ValueClass U S) : Instr U → List S → Option (List S)
  | .construct, objects => some (objects ++ [C.construct])
  | .call target update, objects => do
    let object ← objects[target]?
    some (objects.set target (C.call update object))
  | .copyConstruct source, objects => do
    let other ← objects[source]?
    some (objects ++ [C.copyConstruct other])
  | .copyAssign target source, objects => do
    let object ← objects[target]?
    if target = source then some (objects.set target (C.copyAssignSelf object))
    else
      let other ← objects[source]?
      some (objects.set target (C.copyAssign object other))
  | .moveConstruct source, objects => do
    let other ← objects[source]?
    some (objects.set source (C.moveConstruct other).2 ++ [(C.moveConstruct other).1])
  | .moveAssign target source, objects => do
    let object ← objects[target]?
    if target = source then some (objects.set target (C.moveAssignSelf object))
    else
      let other ← objects[source]?
      let moved := C.moveAssign object other
      some ((objects.set source moved.2).set target moved.1)

def run (C : ValueClass U S) : List (Instr U) → List S → Option (List S)
  | [], objects => some objects
  | instr :: program, objects => (step C instr objects).bind (run C program)

/-- The existing objects an instruction may change. -/
def Instr.touched : Instr U → List Nat
  | .construct => []
  | .call target _ => [target]
  | .copyConstruct _ => []
  | .copyAssign target _ => [target]
  | .moveConstruct source => [source]
  | .moveAssign target source => [target, source]

/-! ### What a step needs and does -/

section Step

variable (C : ValueClass U S) (objects objects' : List S) (target source : Nat)

theorem step_call_iff (update : U) :
    step C (.call target update) objects = some objects' ↔
      ∃ object, objects[target]? = some object ∧
        objects.set target (C.call update object) = objects' := by
  simp [step, Option.bind_eq_some_iff]

theorem step_copyConstruct_iff :
    step C (.copyConstruct source) objects = some objects' ↔
      ∃ other, objects[source]? = some other ∧
        objects ++ [C.copyConstruct other] = objects' := by
  simp [step, Option.bind_eq_some_iff]

theorem step_copyAssignSelf_iff :
    step C (.copyAssign target target) objects = some objects' ↔
      ∃ object, objects[target]? = some object ∧
        objects.set target (C.copyAssignSelf object) = objects' := by
  simp [step, Option.bind_eq_some_iff]

variable {target source} in
theorem step_copyAssign_iff (hne : target ≠ source) :
    step C (.copyAssign target source) objects = some objects' ↔
      ∃ object, objects[target]? = some object ∧ ∃ other, objects[source]? = some other ∧
        objects.set target (C.copyAssign object other) = objects' := by
  simp [step, hne, Option.bind_eq_some_iff]

theorem step_moveConstruct_iff :
    step C (.moveConstruct source) objects = some objects' ↔
      ∃ other, objects[source]? = some other ∧
        objects.set source (C.moveConstruct other).2 ++ [(C.moveConstruct other).1] =
          objects' := by
  simp [step, Option.bind_eq_some_iff]

theorem step_moveAssignSelf_iff :
    step C (.moveAssign target target) objects = some objects' ↔
      ∃ object, objects[target]? = some object ∧
        objects.set target (C.moveAssignSelf object) = objects' := by
  simp [step, Option.bind_eq_some_iff]

variable {target source} in
theorem step_moveAssign_iff (hne : target ≠ source) :
    step C (.moveAssign target source) objects = some objects' ↔
      ∃ object, objects[target]? = some object ∧ ∃ other, objects[source]? = some other ∧
        (objects.set source (C.moveAssign object other).2).set target
          (C.moveAssign object other).1 = objects' := by
  simp [step, hne, Option.bind_eq_some_iff]

end Step

theorem run_calls (C : ValueClass U S) (updates : List U) (object : S) :
    run C (updates.map (.call 0)) [object] =
      some [updates.foldl (fun object update => C.call update object) object] := by
  induction updates generalizing object with
  | nil => rfl
  | cons update updates ih => exact ih (C.call update object)

/-! ### Frame -/

theorem step_frame {C : ValueClass U S} {instr : Instr U} {objects objects' : List S}
    (h : step C instr objects = some objects') {n : Nat} (hn : n < objects.length)
    (huntouched : n ∉ instr.touched) : objects'[n]? = objects[n]? := by
  cases instr with
  | construct =>
    cases h
    exact List.getElem?_append_left hn
  | call target update =>
    rw [step_call_iff] at h
    obtain ⟨object, -, rfl⟩ := h
    apply List.getElem?_set_ne
    simp only [Instr.touched, List.mem_singleton] at huntouched
    exact Ne.symm huntouched
  | copyConstruct source =>
    rw [step_copyConstruct_iff] at h
    obtain ⟨other, -, rfl⟩ := h
    exact List.getElem?_append_left hn
  | copyAssign target source =>
    simp only [Instr.touched, List.mem_singleton] at huntouched
    by_cases hsame : target = source
    · subst hsame
      rw [step_copyAssignSelf_iff] at h
      obtain ⟨object, -, rfl⟩ := h
      exact List.getElem?_set_ne (Ne.symm huntouched)
    · rw [step_copyAssign_iff C objects objects' hsame] at h
      obtain ⟨object, -, other, -, rfl⟩ := h
      exact List.getElem?_set_ne (Ne.symm huntouched)
  | moveConstruct source =>
    rw [step_moveConstruct_iff] at h
    obtain ⟨other, -, rfl⟩ := h
    simp only [Instr.touched, List.mem_singleton] at huntouched
    rw [List.getElem?_append_left (by simpa using hn)]
    exact List.getElem?_set_ne (Ne.symm huntouched)
  | moveAssign target source =>
    simp only [Instr.touched, List.mem_cons, List.not_mem_nil, or_false, not_or]
      at huntouched
    by_cases hsame : target = source
    · subst hsame
      rw [step_moveAssignSelf_iff] at h
      obtain ⟨object, -, rfl⟩ := h
      exact List.getElem?_set_ne (Ne.symm huntouched.1)
    · rw [step_moveAssign_iff C objects objects' hsame] at h
      obtain ⟨object, -, other, -, rfl⟩ := h
      rw [List.getElem?_set_ne (Ne.symm huntouched.1), List.getElem?_set_ne (Ne.symm huntouched.2)]

/-! ### Simulation -/

/-- Every member of one class does to related objects what its counterpart does. -/
structure Simulates (C : ValueClass U S) (A : ValueClass U L) (R : S → L → Prop) : Prop where
  construct : R C.construct A.construct
  call : ∀ {s l}, R s l → ∀ update, R (C.call update s) (A.call update l)
  copyConstruct : ∀ {s l}, R s l → R (C.copyConstruct s) (A.copyConstruct l)
  copyAssign : ∀ {s l s' l'}, R s l → R s' l' → R (C.copyAssign s s') (A.copyAssign l l')
  copyAssignSelf : ∀ {s l}, R s l → R (C.copyAssignSelf s) (A.copyAssignSelf l)
  moveConstruct : ∀ {s l}, R s l →
    R (C.moveConstruct s).1 (A.moveConstruct l).1 ∧
      R (C.moveConstruct s).2 (A.moveConstruct l).2
  moveAssign : ∀ {s l s' l'}, R s l → R s' l' →
    R (C.moveAssign s s').1 (A.moveAssign l l').1 ∧
      R (C.moveAssign s s').2 (A.moveAssign l l').2
  moveAssignSelf : ∀ {s l}, R s l → R (C.moveAssignSelf s) (A.moveAssignSelf l)

section Related

variable {R : S → L → Prop} {ss : List S} {ls : List L}

theorem forall₂_getElem? (h : List.Forall₂ R ss ls) {n : Nat} {s : S} (hs : ss[n]? = some s) :
    ∃ l, ls[n]? = some l ∧ R s l := by
  induction h generalizing n with
  | nil => cases hs
  | @cons s₀ l₀ _ _ hrel _ ih =>
    cases n with
    | zero =>
      cases hs
      exact ⟨l₀, rfl, hrel⟩
    | succ n => exact ih hs

theorem forall₂_set (h : List.Forall₂ R ss ls) (n : Nat) {s : S} {l : L} (hrel : R s l) :
    List.Forall₂ R (ss.set n s) (ls.set n l) := by
  induction h generalizing n with
  | nil => exact .nil
  | cons hhead htail ih =>
    cases n with
    | zero => exact .cons hrel htail
    | succ n => exact .cons hhead (ih n)

theorem forall₂_append_singleton (h : List.Forall₂ R ss ls) {s : S} {l : L} (hrel : R s l) :
    List.Forall₂ R (ss ++ [s]) (ls ++ [l]) :=
  List.rel_append h (.cons hrel .nil)

end Related

section Simulation

variable {C : ValueClass U S} {A : ValueClass U L} {R : S → L → Prop}
variable {ss ss' : List S} {ls : List L}

theorem Simulates.step (h : Simulates C A R) (hrel : List.Forall₂ R ss ls) {instr : Instr U}
    (hstep : step C instr ss = some ss') :
    ∃ ls', Objects.step A instr ls = some ls' ∧ List.Forall₂ R ss' ls' := by
  cases instr with
  | construct =>
    cases hstep
    exact ⟨_, rfl, forall₂_append_singleton hrel h.construct⟩
  | call target update =>
    simp only [step_call_iff] at hstep ⊢
    obtain ⟨s, hs, rfl⟩ := hstep
    obtain ⟨l, hl, hsl⟩ := forall₂_getElem? hrel hs
    exact ⟨_, ⟨l, hl, rfl⟩, forall₂_set hrel target (h.call hsl update)⟩
  | copyConstruct source =>
    simp only [step_copyConstruct_iff] at hstep ⊢
    obtain ⟨s, hs, rfl⟩ := hstep
    obtain ⟨l, hl, hsl⟩ := forall₂_getElem? hrel hs
    exact ⟨_, ⟨l, hl, rfl⟩, forall₂_append_singleton hrel (h.copyConstruct hsl)⟩
  | copyAssign target source =>
    by_cases hsame : target = source
    · subst hsame
      simp only [step_copyAssignSelf_iff] at hstep ⊢
      obtain ⟨s, hs, rfl⟩ := hstep
      obtain ⟨l, hl, hsl⟩ := forall₂_getElem? hrel hs
      exact ⟨_, ⟨l, hl, rfl⟩, forall₂_set hrel target (h.copyAssignSelf hsl)⟩
    · simp only [step_copyAssign_iff _ _ _ hsame] at hstep ⊢
      obtain ⟨s, hs, s', hs', rfl⟩ := hstep
      obtain ⟨l, hl, hsl⟩ := forall₂_getElem? hrel hs
      obtain ⟨l', hl', hsl'⟩ := forall₂_getElem? hrel hs'
      exact ⟨_, ⟨l, hl, l', hl', rfl⟩, forall₂_set hrel target (h.copyAssign hsl hsl')⟩
  | moveConstruct source =>
    simp only [step_moveConstruct_iff] at hstep ⊢
    obtain ⟨s, hs, rfl⟩ := hstep
    obtain ⟨l, hl, hsl⟩ := forall₂_getElem? hrel hs
    obtain ⟨hnew, hleft⟩ := h.moveConstruct hsl
    exact ⟨_, ⟨l, hl, rfl⟩, forall₂_append_singleton (forall₂_set hrel source hleft) hnew⟩
  | moveAssign target source =>
    by_cases hsame : target = source
    · subst hsame
      simp only [step_moveAssignSelf_iff] at hstep ⊢
      obtain ⟨s, hs, rfl⟩ := hstep
      obtain ⟨l, hl, hsl⟩ := forall₂_getElem? hrel hs
      exact ⟨_, ⟨l, hl, rfl⟩, forall₂_set hrel target (h.moveAssignSelf hsl)⟩
    · simp only [step_moveAssign_iff _ _ _ hsame] at hstep ⊢
      obtain ⟨s, hs, s', hs', rfl⟩ := hstep
      obtain ⟨l, hl, hsl⟩ := forall₂_getElem? hrel hs
      obtain ⟨l', hl', hsl'⟩ := forall₂_getElem? hrel hs'
      obtain ⟨hnew, hleft⟩ := h.moveAssign hsl hsl'
      exact ⟨_, ⟨l, hl, l', hl', rfl⟩, forall₂_set (forall₂_set hrel source hleft) target hnew⟩

theorem Simulates.run (h : Simulates C A R) {program : List (Instr U)}
    (hrel : List.Forall₂ R ss ls) (hrun : run C program ss = some ss') :
    ∃ ls', Objects.run A program ls = some ls' ∧ List.Forall₂ R ss' ls' := by
  induction program generalizing ss ls with
  | nil =>
    cases hrun
    exact ⟨ls, rfl, hrel⟩
  | cons instr program ih =>
    simp only [Objects.run, Option.bind_eq_some_iff] at hrun ⊢
    obtain ⟨ss₁, hstep, hrun⟩ := hrun
    obtain ⟨ls₁, hstep', hrel₁⟩ := h.step hrel hstep
    obtain ⟨ls', hrun', hrel'⟩ := ih hrel₁ hrun
    exact ⟨ls', ⟨ls₁, hstep', hrun'⟩, hrel'⟩

end Simulation

end Objects
