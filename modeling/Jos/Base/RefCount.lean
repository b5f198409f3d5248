import Mathlib.Data.Set.Card

/-!
# Counting references

A reference map `t : ι → Option α` says what each of finitely many slots points
to. `refCount t a` is the number of slots that point to `a`; it is the quantity
a reference-counting allocator tries to keep in its counters. Redirecting one
slot changes the count of the old and of the new target by one and no other.
-/

/-- The number of slots that point to `a`. -/
noncomputable def refCount {ι α : Type*} (t : ι → Option α) (a : α) : ℕ :=
  {i | t i = some a}.ncard

namespace RefCount

variable {ι α : Type*} {t : ι → Option α} {i : ι} {a : α}

theorem eq_zero_iff [Finite ι] : refCount t a = 0 ↔ ∀ i, t i ≠ some a := by
  rw [refCount, Set.ncard_eq_zero, Set.eq_empty_iff_forall_notMem]
  exact Iff.rfl

theorem pos_of_mem [Finite ι] (h : t i = some a) : 0 < refCount t a := by
  rw [Nat.pos_iff_ne_zero, Ne, eq_zero_iff]
  intro none
  exact none i h

theorem eq_one (h : t i = some a) (sole : ∀ j, t j = some a → j = i) : refCount t a = 1 := by
  have hset : {j | t j = some a} = {i} := by
    ext j
    refine ⟨sole j, ?_⟩
    rintro rfl
    exact h
  rw [refCount, hset, Set.ncard_singleton]

/-- A new reference from a slot that was empty. -/
theorem update_some [Finite ι] [DecidableEq ι] (h : t i = none) :
    refCount (Function.update t i (some a)) a = refCount t a + 1 := by
  have hset : {j | Function.update t i (some a) j = some a} = insert i {j | t j = some a} := by
    ext j
    by_cases hj : j = i
    · subst hj
      simp
    · simp [hj]
  rw [refCount, hset, Set.ncard_insert_of_notMem, refCount]
  simp [h]

/-- A reference given up. -/
theorem update_none [Finite ι] [DecidableEq ι] (h : t i = some a) :
    refCount (Function.update t i none) a + 1 = refCount t a := by
  have hset : {j | t j = some a} = insert i {j | Function.update t i none j = some a} := by
    ext j
    by_cases hj : j = i
    · subst hj
      simp [h]
    · simp [hj]
  rw [refCount, refCount, hset, Set.ncard_insert_of_notMem]
  simp

/-- Elements that the redirected slot neither pointed to nor points to now keep their count. -/
theorem update_of_ne [DecidableEq ι] (o : Option α) (old : t i ≠ some a) (new : o ≠ some a) :
    refCount (Function.update t i o) a = refCount t a := by
  have hset : {j | Function.update t i o j = some a} = {j | t j = some a} := by
    ext j
    by_cases hj : j = i
    · subst hj
      simp [old, new]
    · simp [Function.update_of_ne hj]
  rw [refCount, hset, refCount]

end RefCount
