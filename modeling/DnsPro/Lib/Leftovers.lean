import DnsPro.Lib.NestedIndex

/-!
# A nested index after abandoned insertions

An insertion that is given up halfway may leave a key without buckets or a bucket without records.
`Littered` describes such an index by the log of the records it holds and by the records whose
insertion was abandoned: every bucket is still the part of the log filed there, and what is empty
was opened for one of the latter. Each operation keeps it, the single steps of an insertion too.
-/

namespace Container

set_option autoImplicit false

variable {M : Type → Type → Type} [FiniteMap M]
variable {K T R : Type} [DecidableEq K] [DecidableEq T]

/-! ### Keys of an index -/

section Keys
variable (m : M K (M T (List R))) (k k' : K) (t : T)

theorem contains_push (r : R) :
    contains (push m k t r) k' = (decide (k' = k) || contains m k') := by
  unfold push
  rw [contains_insert]

variable {m k} {inner : M T (List R)}

theorem contains_of_contains_drop (hinner : find? m k = some inner)
    (h : contains (drop m k inner t) k' = true) : contains m k' = true := by
  by_cases hk : k' = k
  · simp [contains, hk, hinner]
  · unfold drop at h
    by_cases hempty : isEmpty (erase inner t) = true
    · simpa [contains, hempty, hk] using h
    · simpa [contains, hempty, hk] using h

/-- A key that a deletion leaves in place has buckets left. -/
theorem exists_bucket_of_contains_drop (h : contains (drop m k inner t) k = true) :
    ∃ t', bucket? (drop m k inner t) k t' ≠ none := by
  unfold drop at h ⊢
  by_cases hempty : isEmpty (erase inner t) = true
  · simp [contains, hempty] at h
  · obtain ⟨t', rs, hrs⟩ := (isEmpty_eq_false_iff _).mp (Bool.eq_false_iff.mpr hempty)
    refine ⟨t', ?_⟩
    simp [bucket?, hempty, hrs]

end Keys

/-! ### Littered indexes -/

variable (keyOf : R → K) (tagOf : R → T)

/-- The index holds exactly the records of the log, and what is empty in it was opened for a
record in `left`. -/
structure Littered (m : M K (M T (List R))) (log left : List R) : Prop where
  bucket_eq : ∀ k t, bucket m k t = filed keyOf tagOf k t log
  bucket_left : ∀ k t, bucket? m k t = some [] → ∃ r ∈ left, keyOf r = k ∧ tagOf r = t
  key_left : ∀ k, contains m k = true → (∀ t, bucket? m k t = none) → ∃ r ∈ left, keyOf r = k

variable {keyOf tagOf} {m : M K (M T (List R))} {log left : List R}

theorem Indexes.littered (h : Indexes keyOf tagOf m log) : Littered keyOf tagOf m log [] := by
  refine ⟨h.bucket_eq, fun k t hbucket => ?_, fun k hkey hnone => ?_⟩
  · exact absurd rfl (h.tight.bucket_ne_nil k t [] hbucket)
  · obtain ⟨inner, hfind⟩ := Option.isSome_iff_exists.mp hkey
    obtain ⟨t, rs, hrs⟩ := h.tight.has_bucket k inner hfind
    have hnone := hnone t
    rw [bucket?_of_find? m k t hfind, hrs] at hnone
    cases hnone

namespace Littered

theorem mono (h : Littered keyOf tagOf m log left) {left' : List R} (hleft : left ⊆ left') :
    Littered keyOf tagOf m log left' := by
  refine ⟨h.bucket_eq, fun k t hbucket => ?_, fun k hkey hnone => ?_⟩
  · obtain ⟨r, hr, hfor⟩ := h.bucket_left k t hbucket
    exact ⟨r, hleft hr, hfor⟩
  · obtain ⟨r, hr, hfor⟩ := h.key_left k hkey hnone
    exact ⟨r, hleft hr, hfor⟩

theorem congr (h : Littered keyOf tagOf m log left) {m' : M K (M T (List R))}
    (hbucket : ∀ k t, bucket? m' k t = bucket? m k t)
    (hcontains : ∀ k, contains m' k = contains m k) : Littered keyOf tagOf m' log left := by
  refine ⟨fun k t => ?_, fun k t => ?_, fun k => ?_⟩
  · rw [bucket, hbucket]
    exact h.bucket_eq k t
  · rw [hbucket]
    exact h.bucket_left k t
  · simp only [hcontains, hbucket]
    exact h.key_left k

/-! ### What an insertion does, step by step -/

theorem openKey (h : Littered keyOf tagOf m log left) {r : R} (hr : r ∈ left) :
    Littered keyOf tagOf (openKey m (keyOf r)) log left := by
  refine ⟨fun k t => ?_, fun k t hbucket => ?_, fun k hkey hnone => ?_⟩
  · rw [bucket, bucket?_openKey]
    exact h.bucket_eq k t
  · rw [bucket?_openKey] at hbucket
    exact h.bucket_left k t hbucket
  · by_cases hk : k = keyOf r
    · exact ⟨r, hr, hk.symm⟩
    · simp only [contains_openKey, hk, decide_false, Bool.false_or] at hkey
      simp only [bucket?_openKey] at hnone
      exact h.key_left k hkey hnone

theorem openBucket (h : Littered keyOf tagOf m log left) {r : R} (hr : r ∈ left)
    (hopen : contains m (keyOf r) = true) :
    Littered keyOf tagOf (openBucket m (keyOf r) (tagOf r)) log left := by
  refine ⟨fun k t => ?_, fun k t hbucket => ?_, fun k hkey hnone => ?_⟩
  · rw [← h.bucket_eq, bucket, bucket?_openBucket]
    split
    · rename_i hhere
      rw [hhere.1, hhere.2, Option.getD_some]
    · rfl
  · by_cases hhere : k = keyOf r ∧ t = tagOf r
    · exact ⟨r, hr, hhere.1.symm, hhere.2.symm⟩
    · rw [bucket?_openBucket, if_neg hhere] at hbucket
      exact h.bucket_left k t hbucket
  · rw [contains_openBucket _ _ _ _ hopen] at hkey
    apply h.key_left k hkey
    intro t
    have hnone := hnone t
    rw [bucket?_openBucket] at hnone
    split at hnone
    · cases hnone
    · exact hnone

theorem push (h : Littered keyOf tagOf m log left) (r : R) :
    Littered keyOf tagOf (push m (keyOf r) (tagOf r) r) (log ++ [r]) left := by
  refine ⟨bucket_push_eq h.bucket_eq r, fun k t hbucket => ?_, fun k hkey hnone => ?_⟩
  · by_cases hhere : k = keyOf r ∧ t = tagOf r
    · rw [bucket?_push, if_pos hhere] at hbucket
      simp at hbucket
    · rw [bucket?_push, if_neg hhere] at hbucket
      exact h.bucket_left k t hbucket
  · by_cases hk : k = keyOf r
    · have hnone := hnone (tagOf r)
      rw [bucket?_push, if_pos ⟨hk, rfl⟩] at hnone
      cases hnone
    · rw [contains_push] at hkey
      simp only [hk, decide_false, Bool.false_or] at hkey
      apply h.key_left k hkey
      intro t
      have hnone := hnone t
      rwa [bucket?_push, if_neg fun hhere => hk hhere.1] at hnone

theorem drop (h : Littered keyOf tagOf m log left) {k : K} {inner : M T (List R)}
    (hinner : find? m k = some inner) (t : T) :
    Littered keyOf tagOf (drop m k inner t) (unfiled keyOf tagOf k t log) left := by
  refine ⟨bucket_drop_eq h.bucket_eq hinner t, fun k' t' hbucket => ?_, fun k' hkey hnone => ?_⟩
  · by_cases hhere : k' = k ∧ t' = t
    · rw [bucket?_drop m k k' t t' hinner, if_pos hhere] at hbucket
      cases hbucket
    · rw [bucket?_drop m k k' t t' hinner, if_neg hhere] at hbucket
      exact h.bucket_left k' t' hbucket
  · by_cases hk : k' = k
    · subst hk
      obtain ⟨t', hsome⟩ := exists_bucket_of_contains_drop t hkey
      exact absurd (hnone t') hsome
    · apply h.key_left k' (contains_of_contains_drop k' t hinner hkey)
      intro t'
      have hnone := hnone t'
      rwa [bucket?_drop m k k' t t' hinner, if_neg fun hhere => hk hhere.1] at hnone

/-! ### What can be seen of it -/

/-- A bucket with records is there, and one that is there has records or was opened in vain. -/
theorem bucket?_isSome (h : Littered keyOf tagOf m log left) (k : K) (t : T) :
    (filed keyOf tagOf k t log ≠ [] → (bucket? m k t).isSome = true) ∧
      ((bucket? m k t).isSome = true →
        filed keyOf tagOf k t log ≠ [] ∨ ∃ r ∈ left, keyOf r = k ∧ tagOf r = t) := by
  have hbucket := h.bucket_eq k t
  have hleft := h.bucket_left k t
  rw [bucket] at hbucket
  rw [← hbucket]
  cases hfound : bucket? m k t with
  | none => simp
  | some rs =>
    refine ⟨fun _ => rfl, fun _ => ?_⟩
    by_cases hrs : rs = []
    · rw [hrs] at hfound
      exact Or.inr (hleft hfound)
    · exact Or.inl hrs

theorem contains_of_mem (h : Littered keyOf tagOf m log left) {r : R} (hr : r ∈ log) :
    contains m (keyOf r) = true := by
  have hfiled : filed keyOf tagOf (keyOf r) (tagOf r) log ≠ [] :=
    List.ne_nil_of_mem (a := r) (by simp [filed, hr])
  have hsome := (h.bucket?_isSome _ _).1 hfiled
  by_contra hkey
  have hfind : find? m (keyOf r) = none := by simpa [contains] using hkey
  rw [bucket?_eq_none_of_find?_none _ _ _ hfind] at hsome
  cases hsome

/-- A key that is there has records or was opened in vain. -/
theorem of_contains (h : Littered keyOf tagOf m log left) {k : K} (hkey : contains m k = true) :
    (∃ r ∈ log, keyOf r = k) ∨ ∃ r ∈ left, keyOf r = k := by
  by_cases hnone : ∀ t, bucket? m k t = none
  · exact Or.inr (h.key_left k hkey hnone)
  · obtain ⟨t, hsome⟩ := not_forall.mp hnone
    rcases (h.bucket?_isSome k t).2 (Option.isSome_iff_ne_none.mpr hsome) with hfiled | hopened
    · obtain ⟨r, hr⟩ := List.exists_mem_of_ne_nil _ hfiled
      simp only [filed, List.mem_filter, decide_eq_true_eq] at hr
      exact Or.inl ⟨r, hr.1, hr.2.1⟩
    · obtain ⟨r, hr, hk, _⟩ := hopened
      exact Or.inr ⟨r, hr, hk⟩

end Littered

end Container
