import Mathlib.Data.List.Nodup
import Mathlib.Logic.Function.Basic

/-!
# Singly linked lists threaded through their own elements

`next a` is the link field of `a`, `none` the null pointer. `Linked next head a`
says that `a` can be reached from `head`; it makes sense for any links, cyclic
ones included. `IsList next head l` says that following the links from `head`
visits exactly `l` and then ends; such a list has no duplicates, because the
links determine the rest of the list. A `ListSegment` ends anywhere.
-/

/-- `a` is met when the links are followed from `head`. -/
inductive Linked {α : Type*} (next : α → Option α) : Option α → α → Prop
  | here (a : α) : Linked next (some a) a
  | there {a b : α} : Linked next (next a) b → Linked next (some a) b

/-- Following the links from `head` visits `l` and then meets the null pointer. -/
inductive IsList {α : Type*} (next : α → Option α) : Option α → List α → Prop
  | nil : IsList next none []
  | cons {a : α} {l : List α} : IsList next (next a) l → IsList next (some a) (a :: l)

/-- Following the links from `head` visits `l` and then meets `tail`. -/
inductive ListSegment {α : Type*} (next : α → Option α) : Option α → List α → Option α → Prop
  | nil {tail : Option α} : ListSegment next tail [] tail
  | cons {a : α} {l : List α} {tail : Option α} :
      ListSegment next (next a) l tail → ListSegment next (some a) (a :: l) tail

/-- Cutting a link takes elements off and brings none in. -/
theorem Linked.of_update {α : Type*} [DecidableEq α] {next : α → Option α} {head : Option α}
    {a b : α} (h : Linked (Function.update next a none) head b) : Linked next head b := by
  induction h with
  | here c => exact .here c
  | @there c d rest ih =>
      by_cases hc : c = a
      · rw [hc, Function.update_self] at rest
        cases rest
      · rw [Function.update_of_ne hc] at ih
        exact .there ih

/-- An element without a successor may be linked to anything. -/
theorem Linked.update {α : Type*} [DecidableEq α] {next : α → Option α} {head : Option α}
    {a b : α} (h : Linked next head b) (last : next a = none) (o : Option α) :
    Linked (Function.update next a o) head b := by
  induction h with
  | here c => exact .here c
  | @there c d rest ih =>
      by_cases hc : c = a
      · rw [hc, last] at rest
        cases rest
      · refine .there ?_
        rw [Function.update_of_ne hc]
        exact ih

namespace IsList

variable {α : Type*} {next next' : α → Option α} {head : Option α} {l l' : List α} {a : α}

theorem unique (h : IsList next head l) (h' : IsList next head l') : l = l' := by
  induction h generalizing l' with
  | nil =>
      cases h'
      rfl
  | cons _ ih =>
      cases h' with
      | cons rest => rw [ih rest]

theorem linked_iff (h : IsList next head l) : Linked next head a ↔ a ∈ l := by
  induction h with
  | nil =>
      constructor
      · intro hl
        cases hl
      · intro hm
        simp at hm
  | @cons b l _ ih =>
      rw [List.mem_cons]
      constructor
      · intro hl
        cases hl with
        | here => exact Or.inl rfl
        | there rest => exact Or.inr (ih.mp rest)
      · rintro (rfl | hm)
        · exact .here a
        · exact .there (ih.mpr hm)

/-- Every element starts a list of its own, no longer than the whole one. -/
private theorem suffix (h : IsList next head l) (ha : a ∈ l) :
    ∃ r, IsList next (next a) r ∧ r.length < l.length := by
  induction h with
  | nil => simp at ha
  | @cons b l rest ih =>
      rcases List.mem_cons.mp ha with rfl | hm
      · exact ⟨l, rest, by simp⟩
      · obtain ⟨r, hr, hlt⟩ := ih hm
        exact ⟨r, hr, by simp only [List.length_cons]; omega⟩

theorem nodup (h : IsList next head l) : l.Nodup := by
  induction h with
  | nil => exact List.nodup_nil
  | cons rest ih =>
      refine List.nodup_cons.mpr ⟨?_, ih⟩
      -- a second occurrence would start the same list again, but a shorter one
      intro hm
      obtain ⟨r, hr, hlt⟩ := rest.suffix hm
      rw [rest.unique hr] at hlt
      omega

/-- Only the links of the visited elements matter. -/
theorem congr (h : IsList next head l) (same : ∀ b ∈ l, next' b = next b) :
    IsList next' head l := by
  induction h with
  | nil => exact .nil
  | @cons b l _ ih =>
      refine .cons ?_
      rw [same b (by simp)]
      exact ih fun c hc => same c (List.mem_cons_of_mem b hc)

/-- Put a new element in front. -/
theorem push [DecidableEq α] (h : IsList next head l) (fresh : a ∉ l) :
    IsList (Function.update next a head) (some a) (a :: l) := by
  refine .cons ?_
  rw [Function.update_self]
  apply h.congr
  intro b hb
  have hne : b ≠ a := by
    rintro rfl
    exact fresh hb
  exact Function.update_of_ne hne _ _

/-- Take the first element off and clear its link. -/
theorem pop [DecidableEq α] (h : IsList next (some a) (a :: l)) (cleared : Option α) :
    IsList (Function.update next a cleared) (next a) l := by
  have hn := h.nodup
  cases h with
  | cons rest =>
      apply rest.congr
      intro b hb
      have hne : b ≠ a := by
        rintro rfl
        exact (List.nodup_cons.mp hn).1 hb
      exact Function.update_of_ne hne _ _

theorem head_cases (h : IsList next head l) :
    (head = none ∧ l = []) ∨ ∃ a r, head = some a ∧ l = a :: r ∧ IsList next (next a) r := by
  cases h with
  | nil => exact Or.inl ⟨rfl, rfl⟩
  | cons rest => exact Or.inr ⟨_, _, rfl, rfl, rest⟩

theorem head_eq (h : IsList next head (a :: l)) : head = some a := by
  cases h with
  | cons rest => rfl

theorem tail (h : IsList next head (a :: l)) : IsList next (next a) l := by
  cases h with
  | cons rest => exact rest

/-- Only the last element has a null link. -/
theorem next_eq_none (h : IsList next head l) (ha : a ∈ l) :
    next a = none ↔ l.getLast? = some a := by
  induction h with
  | nil => simp at ha
  | @cons b l rest ih =>
      rcases rest.head_cases with ⟨hnone, rfl⟩ | ⟨c, r, hsome, rfl, -⟩
      · rw [List.mem_singleton] at ha
        simp [ha, hnone]
      · rw [List.getLast?_cons_cons]
        rcases List.mem_cons.mp ha with rfl | hm
        · -- the first of several elements: a second occurrence cannot be the last one
          have hfresh : a ∉ c :: r := (List.nodup_cons.mp (IsList.cons rest).nodup).1
          refine ⟨fun hn => absurd (hn.symm.trans hsome) (by simp), fun hlast => ?_⟩
          exact absurd (List.mem_of_getLast? hlast) hfresh
        · exact ih hm

/-- An element that is met again from its own link is on no list. -/
theorem not_of_linked (h : Linked next (next a) a) : ¬ IsList next (some a) l := by
  intro hl
  have hn := hl.nodup
  cases hl with
  | cons rest => exact (List.nodup_cons.mp hn).1 (rest.linked_iff.mp h)

end IsList

namespace ListSegment

variable {α : Type*} {next next' : α → Option α} {head tail : Option α} {l l' : List α} {a : α}

/-- The list goes on where the segment ends. -/
theorem append (h : ListSegment next head l tail) (h' : IsList next tail l') :
    IsList next head (l ++ l') := by
  induction h with
  | nil => exact h'
  | cons _ ih => exact .cons (ih h')

theorem isList (h : ListSegment next head l none) : IsList next head l := by
  rw [← List.append_nil l]
  exact h.append .nil

/-- The element that the segment ends with belongs to it too. -/
theorem snoc (h : ListSegment next head l tail) (htail : tail = some a) :
    ListSegment next head (l ++ [a]) (next a) := by
  induction h with
  | nil =>
      rw [htail]
      exact .cons .nil
  | cons _ ih => exact .cons (ih htail)

theorem congr (h : ListSegment next head l tail) (same : ∀ b ∈ l, next' b = next b) :
    ListSegment next' head l tail := by
  induction h with
  | nil => exact .nil
  | @cons b l tail _ ih =>
      refine .cons ?_
      rw [same b (by simp)]
      exact ih fun c hc => same c (List.mem_cons_of_mem b hc)

/-- The link of the last element is where the segment ends. -/
theorem update_last [DecidableEq α] (h : ListSegment next head l tail) (hn : l.Nodup)
    (hlast : l.getLast? = some a) (v : Option α) :
    ListSegment (Function.update next a v) head l v := by
  induction h with
  | nil => simp at hlast
  | @cons b l tail rest ih =>
      obtain ⟨hfresh, hn⟩ := List.nodup_cons.mp hn
      refine .cons ?_
      cases l with
      | nil =>
          obtain rfl : b = a := by simpa using hlast
          rw [Function.update_self]
          exact .nil
      | cons c l =>
          rw [List.getLast?_cons_cons] at hlast
          have hne : b ≠ a := by
            rintro rfl
            exact hfresh (List.mem_of_getLast? hlast)
          rw [Function.update_of_ne hne]
          exact ih hn hlast

end ListSegment
