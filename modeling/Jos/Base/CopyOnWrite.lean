import Mathlib.Data.Set.Basic
import Mathlib.Logic.Function.Basic

/-!
# Slots that share frames

Slots refer to frames. Several slots may have the same frame, and a write to one of them
is then seen in all. `Sole` is what makes a slot as good as a private copy. `Shares` says
where a step takes the frames of the slots from; it keeps a slot sole unless another slot
takes from it.
-/

/-- Slots that refer to frames, and what the frames contain. -/
structure Frames (X F M : Type*) where
  frame : X → Option F
  content : F → M

namespace Frames

variable {X F M : Type*} {s s' : Frames X F M} {src : X → Option X} {x y : X}

/-- What is seen through the slot. -/
def view (s : Frames X F M) (x : X) : Option M := (s.frame x).map s.content

/-- No other slot has the frame of `x`. -/
def Sole (s : Frames X F M) (x : X) : Prop := ∀ f y, s.frame x = some f → s.frame y = some f → y = x

/-- A slot shows what its source has shown. -/
theorem view_congr (frame : s'.frame x = s.frame y)
    (content : ∀ f, s.frame y = some f → s'.content f = s.content f) : s'.view x = s.view y := by
  rw [view, view, frame]
  cases hf : s.frame y with
  | none => rfl
  | some f => rw [Option.map_some, Option.map_some, content f hf]

/-- The step from `s` to `s'` writes the frame of `x` and nothing else. -/
structure Writes (x : X) (s s' : Frames X F M) : Prop where
  frame : s'.frame = s.frame
  rest : ∀ f, s.frame x ≠ some f → s'.content f = s.content f

namespace Writes

theorem sole (h : Writes x s s') (sole : s.Sole y) : s'.Sole y := by
  rw [Sole, h.frame]
  exact sole

/-- A write to a frame that is not shared is seen nowhere else. -/
theorem view_of_ne (h : Writes x s s') (sole : s.Sole x) (hne : y ≠ x) : s'.view y = s.view y := by
  refine view_congr (congrFun h.frame y) fun f hf => h.rest f fun hx => ?_
  exact hne (sole f y hx hf)

end Writes

/-- No two of the slots in `A` have the same frame. -/
def Apart (s : Frames X F M) (A : Set X) : Prop :=
  ∀ x ∈ A, ∀ y ∈ A, ∀ f, s.frame x = some f → s.frame y = some f → y = x

/-- The other slots do not see the write. -/
theorem Writes.view_of_apart {A : Set X} (h : Writes x s s') (apart : s.Apart A) (hx : x ∈ A)
    (hy : y ∈ A) (hne : y ≠ x) : s'.view y = s.view y := by
  refine view_congr (congrFun h.frame y) fun f hf => h.rest f fun hold => ?_
  exact hne (apart x hx y hy f hold hf)

/-- In the step from `s` to `s'` each slot that has a frame got it from its source, or it is a
frame of its own. -/
def Shares (src : X → Option X) (s s' : Frames X F M) : Prop :=
  ∀ x f, s'.frame x = some f →
    (∃ y, src x = some y ∧ s.frame y = some f) ∨ src x = none ∧ ∀ y, s'.frame y = some f → y = x

namespace Shares

/-- A slot that keeps its frame and from which no other takes it. -/
theorem sole (h : Shares src s s') (keep : src x = some x) (once : ∀ y, src y = some x → y = x)
    (sole : s.Sole x) : s'.Sole x := by
  intro f y hx hy
  obtain ⟨x', hsrc, hold⟩ | ⟨hnone, -⟩ := h x f hx
  swap
  · rw [keep] at hnone
    simp at hnone
  obtain rfl : x = x' := Option.some.inj (keep.symm.trans hsrc)
  obtain ⟨z, hz, hzold⟩ | ⟨-, hown⟩ := h y f hy
  · exact once y (sole f z hold hzold ▸ hz)
  · exact (hown x hx).symm

/-- A slot with a new frame. -/
theorem sole_new (h : Shares src s s') (new : src x = none) : s'.Sole x := by
  intro f y hx hy
  obtain ⟨z, hz, -⟩ | ⟨-, hown⟩ := h x f hx
  · rw [new] at hz
    simp at hz
  · exact hown y hy

theorem refl (s : Frames X F M) : Shares some s s := fun x _ hx => .inl ⟨x, rfl, hx⟩

/-- One more slot gets a frame of its own. -/
theorem insert [DecidableEq X] {s'' : Frames X F M} {z : X} (h : Shares src s s')
    (h' : Shares (Function.update some z none) s' s'') :
    Shares (Function.update src z none) s s'' := by
  intro x f hx
  by_cases hz : x = z
  · subst hz
    exact .inr ⟨Function.update_self .., fun y hy =>
      h'.sole_new (Function.update_self ..) f y hx hy⟩
  have hkept : ∀ y, y ≠ z → s''.frame y = some f → s'.frame y = some f := by
    intro y hy hframe
    obtain ⟨y', hsrc, hold⟩ | ⟨hnone, -⟩ := h' y f hframe
    · rw [Function.update_of_ne hy] at hsrc
      obtain rfl : y = y' := Option.some.inj hsrc
      exact hold
    · rw [Function.update_of_ne hy] at hnone
      simp at hnone
  rw [Function.update_of_ne hz]
  refine (h x f (hkept x hz hx)).imp id fun hnew => ⟨hnew.1, fun y hy => ?_⟩
  by_cases hyz : y = z
  · subst hyz
    have hsole := h'.sole_new (Function.update_self ..)
    exact absurd (hsole f x hy hx) hz
  · exact hnew.2 y (hkept y hyz hy)

end Shares

end Frames
