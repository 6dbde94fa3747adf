import DnsPro.Lib.FiniteMap

/-!
# A two-level index over a log

Records are filed under a key and, below the key, under a tag. The index is described by the log
of the records it holds: every bucket is the part of the log filed there, in log order, and there
is neither an empty bucket nor a key without buckets. `Indexes` says both, and each updating
operation comes with the rule that keeps it.
-/

namespace Container

set_option autoImplicit false

variable {M : Type → Type → Type} [FiniteMap M]
variable {K T R : Type} [DecidableEq K] [DecidableEq T]

def bucket? (m : M K (M T (List R))) (k : K) (t : T) : Option (List R) :=
  (find? m k).bind fun inner => find? inner t

def bucket (m : M K (M T (List R))) (k : K) (t : T) : List R :=
  (bucket? m k t).getD []

/-- Append a record, creating the levels that are missing. -/
def push (m : M K (M T (List R))) (k : K) (t : T) (r : R) : M K (M T (List R)) :=
  let inner := slot m k empty
  insert m k (insert inner t (slot inner t [] ++ [r]))

/-- Create a missing key, without buckets. -/
def openKey (m : M K (M T (List R))) (k : K) : M K (M T (List R)) :=
  if contains m k then m else insert m k empty

/-- Create a missing bucket, without records. -/
def openBucket (m : M K (M T (List R))) (k : K) (t : T) : M K (M T (List R)) :=
  let inner := slot m k empty
  if contains inner t then m else insert m k (insert inner t [])

/-- Delete a bucket of the inner map of a key, and the key when that was the last one. -/
def drop (m : M K (M T (List R))) (k : K) (inner : M T (List R)) (t : T) :
    M K (M T (List R)) :=
  let inner := erase inner t
  let m := insert m k inner
  if isEmpty inner then erase m k else m

/-- No key without buckets and no empty bucket. -/
structure Tight (m : M K (M T (List R))) : Prop where
  has_bucket : ∀ k inner, find? m k = some inner → ∃ t rs, find? inner t = some rs
  bucket_ne_nil : ∀ k t rs, bucket? m k t = some rs → rs ≠ []

/-! ### What the operations do to a bucket -/

section Buckets

variable (m : M K (M T (List R))) (k k' : K) (t t' : T)

theorem bucket?_eq_none_of_find?_none (h : find? m k = none) : bucket? m k t = none := by
  simp [bucket?, h]

theorem bucket?_of_find? {inner : M T (List R)} (h : find? m k = some inner) :
    bucket? m k t = find? inner t := by
  simp [bucket?, h]

theorem bucket?_push (r : R) :
    bucket? (push m k t r) k' t' =
      if k' = k ∧ t' = t then some (bucket m k t ++ [r]) else bucket? m k' t' := by
  unfold push
  by_cases hk : k' = k
  · subst hk
    by_cases ht : t' = t
    · subst ht
      cases hfind : find? m k' with
      | none => simp [bucket?, bucket, slot, hfind]
      | some inner => simp [bucket?, bucket, slot, hfind]
    · cases hfind : find? m k' with
      | none => simp [bucket?, slot, hfind, ht]
      | some inner => simp [bucket?, slot, hfind, ht]
  · simp [bucket?, hk]

theorem bucket?_drop {inner : M T (List R)} (h : find? m k = some inner) :
    bucket? (drop m k inner t) k' t' =
      if k' = k ∧ t' = t then none else bucket? m k' t' := by
  unfold drop
  by_cases hk : k' = k
  · subst hk
    by_cases hempty : isEmpty (erase inner t) = true
    · -- the whole key goes, so the inner map held nothing but the deleted bucket
      have hnone := (isEmpty_iff (erase inner t)).mp hempty t'
      rw [find?_erase] at hnone
      by_cases ht : t' = t
      · simp [bucket?, hempty, ht]
      · rw [if_neg ht] at hnone
        simp [bucket?, hempty, h, ht, hnone]
    · by_cases ht : t' = t
      · simp [bucket?, hempty, ht]
      · simp [bucket?, hempty, h, ht]
  · by_cases hempty : isEmpty (erase inner t) = true
    · simp [bucket?, hempty, hk]
    · simp [bucket?, hempty, hk]

end Buckets

/-! ### Opening in advance -/

section Opening

variable (m : M K (M T (List R))) (k k' : K) (t t' : T)

omit [DecidableEq T] in
theorem openKey_of_contains (h : contains m k = true) : openKey m k = m := if_pos h

omit [DecidableEq T] in
theorem contains_openKey : contains (openKey m k) k' = (decide (k' = k) || contains m k') := by
  by_cases h : contains m k = true
  · rw [openKey_of_contains m k h]
    by_cases hk : k' = k
    · simp [hk, h]
    · simp [hk]
  · rw [openKey, if_neg h, contains_insert]

theorem bucket?_openKey : bucket? (openKey m k) k' t = bucket? m k' t := by
  by_cases h : contains m k = true
  · rw [openKey_of_contains m k h]
  · have hfind : find? m k = none := by simpa [contains] using h
    rw [openKey, if_neg h]
    by_cases hk : k' = k
    · simp [bucket?, hk, hfind]
    · simp [bucket?, hk]

theorem contains_slot : contains (slot m k empty) t = (bucket? m k t).isSome := by
  cases hfind : find? m k with
  | none => simp [contains, slot, bucket?, hfind]
  | some inner => simp [contains, slot, bucket?, hfind]

theorem openBucket_of_bucket? (h : (bucket? m k t).isSome = true) : openBucket m k t = m := by
  rw [← contains_slot] at h
  exact if_pos h

theorem bucket?_openBucket :
    bucket? (openBucket m k t) k' t' =
      if k' = k ∧ t' = t then some (bucket m k t) else bucket? m k' t' := by
  by_cases h : (bucket? m k t).isSome = true
  · rw [openBucket_of_bucket? m k t h]
    by_cases hhere : k' = k ∧ t' = t
    · obtain ⟨rs, hrs⟩ := Option.isSome_iff_exists.mp h
      rw [if_pos hhere, hhere.1, hhere.2, bucket, hrs]
      rfl
    · rw [if_neg hhere]
  · have hnone : bucket? m k t = none := by simpa using h
    have hclosed : contains (slot m k empty) t = false := by
      rw [contains_slot, hnone]
      rfl
    rw [openBucket, hclosed, bucket, hnone]
    by_cases hk : k' = k
    · subst hk
      by_cases ht : t' = t
      · simp [bucket?, ht]
      · cases hfind : find? m k' with
        | none => simp [bucket?, slot, hfind, ht]
        | some inner => simp [bucket?, slot, hfind, ht]
    · simp [bucket?, hk]

theorem contains_openBucket (h : contains m k = true) :
    contains (openBucket m k t) k' = contains m k' := by
  unfold openBucket
  dsimp only
  split
  · rfl
  · rw [contains_insert]
    by_cases hk : k' = k
    · simp [hk, h]
    · simp [hk]

/-- Opening what a record needs before it is pushed makes no difference to the buckets. -/
theorem bucket?_push_opened (r : R) :
    bucket? (push (openBucket (openKey m k) k t) k t r) k' t' = bucket? (push m k t r) k' t' := by
  have hopened : bucket (openBucket (openKey m k) k t) k t = bucket m k t := by
    rw [bucket, bucket?_openBucket, if_pos ⟨rfl, rfl⟩, Option.getD_some, bucket, bucket?_openKey]
    rfl
  rw [bucket?_push, bucket?_push, hopened, bucket?_openBucket, bucket?_openKey]
  by_cases hhere : k' = k ∧ t' = t
  · rw [if_pos hhere, if_pos hhere]
  · rw [if_neg hhere, if_neg hhere, if_neg hhere]

theorem contains_push_opened (r : R) :
    contains (push (openBucket (openKey m k) k t) k t r) k' = contains (push m k t r) k' := by
  unfold push
  dsimp only
  rw [contains_insert, contains_insert, contains_openBucket, contains_openKey]
  · by_cases hk : k' = k
    · simp [hk]
    · simp [hk]
  · rw [contains_openKey]
    simp

end Opening

/-! ### Tightness -/

section Tightness

variable {m : M K (M T (List R))} {k : K} {t : T}

theorem tight_of_find?_none (h : ∀ k, find? m k = none) : Tight m := by
  refine ⟨fun k inner hfind => ?_, fun k t rs hbucket => ?_⟩
  · rw [h k] at hfind
    cases hfind
  · rw [bucket?_eq_none_of_find?_none m k t (h k)] at hbucket
    cases hbucket

theorem Tight.push (h : Tight m) (k : K) (t : T) (r : R) : Tight (push m k t r) := by
  refine ⟨fun k' inner hfind => ?_, fun k' t' rs hbucket => ?_⟩
  · by_cases hk : k' = k
    · subst hk
      refine ⟨t, bucket m k' t ++ [r], ?_⟩
      rw [← bucket?_of_find? _ _ t hfind, bucket?_push, if_pos ⟨rfl, rfl⟩]
    · apply h.has_bucket k'
      simpa [Container.push, hk] using hfind
  · rw [bucket?_push] at hbucket
    by_cases hhere : k' = k ∧ t' = t
    · rw [if_pos hhere] at hbucket
      cases hbucket
      simp
    · rw [if_neg hhere] at hbucket
      exact h.bucket_ne_nil k' t' rs hbucket

theorem Tight.drop (h : Tight m) {inner : M T (List R)} (hinner : find? m k = some inner)
    (t : T) : Tight (drop m k inner t) := by
  refine ⟨fun k' inner' hfind => ?_, fun k' t' rs hbucket => ?_⟩
  · by_cases hempty : isEmpty (erase inner t) = true
    · by_cases hk : k' = k
      · simp [Container.drop, hempty, hk] at hfind
      · apply h.has_bucket k'
        simpa [Container.drop, hempty, hk] using hfind
    · by_cases hk : k' = k
      · have hinner' : erase inner t = inner' := by
          simpa [Container.drop, hempty, hk] using hfind
        rw [← hinner']
        exact (isEmpty_eq_false_iff _).mp (Bool.eq_false_iff.mpr hempty)
      · apply h.has_bucket k'
        simpa [Container.drop, hempty, hk] using hfind
  · rw [bucket?_drop m k k' t t' hinner] at hbucket
    by_cases hhere : k' = k ∧ t' = t
    · rw [if_pos hhere] at hbucket
      cases hbucket
    · rw [if_neg hhere] at hbucket
      exact h.bucket_ne_nil k' t' rs hbucket

theorem Tight.congr (h : Tight m) {m' : M K (M T (List R))}
    (hbucket : ∀ k t, bucket? m' k t = bucket? m k t)
    (hcontains : ∀ k, contains m' k = contains m k) : Tight m' := by
  refine ⟨fun k inner hfind => ?_, fun k t rs hrs => ?_⟩
  · have hkey : contains m k = true := by
      rw [← hcontains, contains, hfind]
      rfl
    obtain ⟨inner', hfind'⟩ := Option.isSome_iff_exists.mp hkey
    obtain ⟨t, rs, hrs⟩ := h.has_bucket k inner' hfind'
    refine ⟨t, rs, ?_⟩
    rw [← bucket?_of_find? m' k t hfind, hbucket, bucket?_of_find? m k t hfind', hrs]
  · rw [hbucket] at hrs
    exact h.bucket_ne_nil k t rs hrs

theorem Tight.contains_iff (h : Tight m) :
    contains m k = true ↔ ∃ t, bucket m k t ≠ [] := by
  unfold contains
  constructor
  · intro hk
    obtain ⟨inner, hfind⟩ := Option.isSome_iff_exists.mp hk
    obtain ⟨t, rs, ht⟩ := h.has_bucket k inner hfind
    have hbucket : bucket? m k t = some rs := by rw [bucket?_of_find? _ _ _ hfind, ht]
    refine ⟨t, ?_⟩
    simpa [bucket, hbucket] using h.bucket_ne_nil k t rs hbucket
  · intro ⟨t, ht⟩
    by_contra hk
    have hfind : find? m k = none := by simpa using hk
    exact ht (by simp [bucket, bucket?_eq_none_of_find?_none m k t hfind])

theorem Tight.bucket?_isSome_iff (h : Tight m) :
    (bucket? m k t).isSome = true ↔ bucket m k t ≠ [] := by
  cases hbucket : bucket? m k t with
  | none => simp [bucket, hbucket]
  | some rs => simpa [bucket, hbucket] using h.bucket_ne_nil k t rs hbucket

end Tightness

/-! ### The index of a log -/

section Log

variable (keyOf : R → K) (tagOf : R → T)

def filed (k : K) (t : T) (log : List R) : List R :=
  log.filter fun r => keyOf r = k ∧ tagOf r = t

def unfiled (k : K) (t : T) (log : List R) : List R :=
  log.filter fun r => ¬(keyOf r = k ∧ tagOf r = t)

/-- The index holds exactly the records of the log. -/
structure Indexes (m : M K (M T (List R))) (log : List R) : Prop where
  tight : Tight m
  bucket_eq : ∀ k t, bucket m k t = filed keyOf tagOf k t log

variable {keyOf tagOf} {m : M K (M T (List R))} {log : List R}

theorem length_filed_add_length_unfiled (k : K) (t : T) (log : List R) :
    (filed keyOf tagOf k t log).length + (unfiled keyOf tagOf k t log).length = log.length := by
  unfold filed unfiled
  simpa using (List.length_eq_length_filter_add (l := log)
    fun r => decide (keyOf r = k ∧ tagOf r = t)).symm

theorem filed_unfiled (k k' : K) (t t' : T) (log : List R) :
    filed keyOf tagOf k' t' (unfiled keyOf tagOf k t log) =
      if k' = k ∧ t' = t then [] else filed keyOf tagOf k' t' log := by
  unfold filed unfiled
  rw [List.filter_filter]
  by_cases hhere : k' = k ∧ t' = t
  · rw [if_pos hhere, List.filter_eq_nil_iff, hhere.1, hhere.2]
    simp
  · rw [if_neg hhere]
    apply List.filter_congr
    intro r _
    rw [← Bool.decide_and, decide_eq_decide]
    constructor
    · intro h
      exact h.1
    · intro h
      refine ⟨h, fun h' => hhere ⟨?_, ?_⟩⟩
      · rw [← h.1, h'.1]
      · rw [← h.2, h'.2]

theorem indexes_nil (h : ∀ k, find? m k = none) : Indexes keyOf tagOf m [] := by
  refine ⟨tight_of_find?_none h, fun k t => ?_⟩
  rw [bucket, bucket?_eq_none_of_find?_none m k t (h k)]
  rfl

theorem bucket_push_eq (h : ∀ k t, bucket m k t = filed keyOf tagOf k t log) (r : R) (k : K)
    (t : T) :
    bucket (push m (keyOf r) (tagOf r) r) k t = filed keyOf tagOf k t (log ++ [r]) := by
  rw [bucket, bucket?_push]
  by_cases hhere : k = keyOf r ∧ t = tagOf r
  · rw [if_pos hhere, Option.getD_some, h, hhere.1, hhere.2]
    simp [filed]
  · have hother : ¬(keyOf r = k ∧ tagOf r = t) := fun h' => hhere ⟨h'.1.symm, h'.2.symm⟩
    have hold := h k t
    rw [bucket] at hold
    rw [if_neg hhere, hold]
    simp [filed, hother]

theorem bucket_drop_eq (h : ∀ k t, bucket m k t = filed keyOf tagOf k t log) {k : K}
    {inner : M T (List R)} (hinner : find? m k = some inner) (t : T) (k' : K) (t' : T) :
    bucket (drop m k inner t) k' t' = filed keyOf tagOf k' t' (unfiled keyOf tagOf k t log) := by
  rw [filed_unfiled, bucket, bucket?_drop m k k' t t' hinner]
  by_cases hhere : k' = k ∧ t' = t
  · rw [if_pos hhere, if_pos hhere]
    rfl
  · rw [if_neg hhere, if_neg hhere]
    exact h k' t'

theorem Indexes.push (h : Indexes keyOf tagOf m log) (r : R) :
    Indexes keyOf tagOf (push m (keyOf r) (tagOf r) r) (log ++ [r]) :=
  ⟨h.tight.push _ _ r, bucket_push_eq h.bucket_eq r⟩

theorem Indexes.drop (h : Indexes keyOf tagOf m log) {k : K} {inner : M T (List R)}
    (hinner : find? m k = some inner) (t : T) :
    Indexes keyOf tagOf (drop m k inner t) (unfiled keyOf tagOf k t log) :=
  ⟨h.tight.drop hinner t, bucket_drop_eq h.bucket_eq hinner t⟩

theorem Indexes.congr (h : Indexes keyOf tagOf m log) {m' : M K (M T (List R))}
    (hbucket : ∀ k t, bucket? m' k t = bucket? m k t)
    (hcontains : ∀ k, contains m' k = contains m k) : Indexes keyOf tagOf m' log := by
  refine ⟨h.tight.congr hbucket hcontains, fun k t => ?_⟩
  rw [bucket, hbucket]
  exact h.bucket_eq k t

theorem Indexes.contains_iff (h : Indexes keyOf tagOf m log) (k : K) :
    contains m k = true ↔ ∃ r ∈ log, keyOf r = k := by
  rw [h.tight.contains_iff]
  constructor
  · intro ⟨t, ht⟩
    rw [h.bucket_eq] at ht
    obtain ⟨r, hr⟩ := List.exists_mem_of_ne_nil _ ht
    simp only [filed, List.mem_filter, decide_eq_true_eq] at hr
    exact ⟨r, hr.1, hr.2.1⟩
  · intro ⟨r, hr, hk⟩
    refine ⟨tagOf r, ?_⟩
    rw [h.bucket_eq]
    exact List.ne_nil_of_mem (a := r) (by simp [filed, hr, hk])

theorem Indexes.bucket?_isSome_iff (h : Indexes keyOf tagOf m log) (k : K) (t : T) :
    (bucket? m k t).isSome = true ↔ filed keyOf tagOf k t log ≠ [] := by
  rw [h.tight.bucket?_isSome_iff, h.bucket_eq]

theorem unfiled_eq_self {k : K} {t : T} (h : filed keyOf tagOf k t log = []) :
    unfiled keyOf tagOf k t log = log := by
  unfold filed at h
  unfold unfiled
  rw [List.filter_eq_nil_iff] at h
  rw [List.filter_eq_self]
  intro r hr
  have hother := h r hr
  rw [decide_eq_true_eq] at hother ⊢
  exact hother

/-- The buckets determine the log up to the order of its records. -/
theorem perm_of_filed_eq [DecidableEq R] {log' : List R}
    (h : ∀ k t, filed keyOf tagOf k t log = filed keyOf tagOf k t log') : log.Perm log' := by
  have hcount : ∀ (r : R) (log : List R),
      (filed keyOf tagOf (keyOf r) (tagOf r) log).count r = log.count r := by
    intro r log
    apply List.count_filter
    simp
  rw [List.perm_iff_count]
  intro r
  rw [← hcount r log, h, hcount]

end Log

end Container
