import Mathlib.Data.Set.Basic
import Mathlib.Logic.Function.Basic

/-!
# Caches of a partial map

A cache holds some entries of a map `m` and may take up any other one that is there at
any time. It is coherent on a set of keys if what it holds there is what the map says. When
the map changes at one key, the cache is coherent but for that key, until the key is
invalidated. If the map had nothing there before, the cache had nothing either.
-/

/-- The cache takes up the entry for `a`, if there is one. -/
def Cache.load {κ ν : Type*} [DecidableEq κ] (c m : κ → Option ν) (a : κ) : κ → Option ν :=
  match m a with
  | none => c
  | some v => Function.update c a (some v)

namespace Cache

variable {κ ν : Type*} {c m m' : κ → Option ν} {S : Set κ} {a x : κ}

/-- What is cached for a key in `S` is what the map says. -/
def Coherent (S : Set κ) (c m : κ → Option ν) : Prop := ∀ a ∈ S, ∀ v, c a = some v → m a = some v

/-- The same, but for the key `x`. -/
abbrev CoherentBut (x : κ) (S : Set κ) (c m : κ → Option ν) : Prop := Coherent (S \ {x}) c m

namespace Coherent

theorem mono {T : Set κ} (h : Coherent S c m) (sub : T ⊆ S) : Coherent T c m :=
  fun a ha => h a (sub ha)

theorem congr (h : Coherent S c m) (same : ∀ a ∈ S, m' a = m a) : Coherent S c m' :=
  fun a ha v hv => (same a ha).trans (h a ha v hv)

/-- The map changes at `x`. -/
theorem change (h : Coherent S c m) (same : ∀ a ∈ S, a ≠ x → m' a = m a) :
    CoherentBut x S c m' :=
  (h.mono fun _ ha => ha.1).congr fun a ha => same a ha.1 ha.2

/-- The cache has nothing for `x`, or the new entry. -/
theorem of_but (h : CoherentBut x S c m) (hx : ∀ v, c x = some v → m x = some v) :
    Coherent S c m := by
  intro a ha v hv
  by_cases hax : a = x
  · subst hax
    exact hx v hv
  · exact h a ⟨ha, hax⟩ v hv

/-- The map gets an entry where it had none. -/
theorem extend (h : Coherent S c m) (hx : x ∈ S) (hnone : m x = none)
    (same : ∀ a ∈ S, a ≠ x → m' a = m a) : Coherent S c m' := by
  refine of_but (h.change same) fun v hv => ?_
  rw [h x hx v hv] at hnone
  simp at hnone

variable [DecidableEq κ]

theorem load (h : Coherent S c m) (a : κ) : Coherent S (Cache.load c m a) m := by
  intro b hb v hv
  cases hm : m a with
  | none =>
      simp only [Cache.load, hm] at hv
      exact h b hb v hv
  | some w =>
      simp only [Cache.load, hm] at hv
      by_cases hba : b = a
      · subst hba
        rw [Function.update_self] at hv
        rw [hm, hv]
      · rw [Function.update_of_ne hba] at hv
        exact h b hb v hv

theorem loads (h : Coherent S c m) (l : List κ) :
    Coherent S (l.foldl (fun c a => Cache.load c m a) c) m := by
  induction l generalizing c with
  | nil => exact h
  | cons a l ih => exact ih (h.load a)

theorem invalidate (h : CoherentBut x S c m) : Coherent S (Function.update c x none) m := by
  refine of_but (x := x) (fun a ha v hv => ?_) fun v hv => ?_
  · rw [Function.update_of_ne ha.2] at hv
    exact h a ha v hv
  · rw [Function.update_self] at hv
    simp at hv

end Coherent

variable [DecidableEq κ]

theorem load_of_ne (c m : κ → Option ν) (h : x ≠ a) : Cache.load c m a x = c x := by
  cases hm : m a with
  | none => simp only [Cache.load, hm]
  | some v =>
      simp only [Cache.load, hm]
      exact Function.update_of_ne h _ _

theorem loads_of_not_mem {l : List κ} (h : x ∉ l) :
    l.foldl (fun c a => Cache.load c m a) c x = c x := by
  induction l generalizing c with
  | nil => rfl
  | cons a l ih =>
      rw [List.mem_cons, not_or] at h
      rw [List.foldl_cons, ih h.2, load_of_ne c m h.1]

end Cache
