import Jos.Base.RefCount
import Jos.Pmap.Basic
import Mathlib.Data.Finite.Prod
import Mathlib.Data.Finite.Sum

/-!
# The places that refer to physical pages

The user half of an address space is a tree of three levels: the environment
refers to its page directory, the first 955 directory entries to page tables,
the entries of these to pages. A `Slot` is one such place in one of finitely
many address spaces; `target` says what it refers to. `pp_ref` of a page should
be the number of slots that refer to it.

The lemmas say how `target` changes when a single entry is written. They need
that tables and directories are not shared (`Unshared`).
-/

namespace Jos

/-- A place that can hold a reference to a page. -/
inductive Slot (ι : Type) where
  | dir (e : ι)
  | pde (e : ι) (i : Idx)
  | pte (e : ι) (i j : Idx)
  deriving DecidableEq

instance {ι : Type} [Finite ι] : Finite (Slot ι) := by
  let f : Slot ι → ι ⊕ (ι × Idx) ⊕ (ι × Idx × Idx)
    | .dir e => .inl e
    | .pde e i => .inr (.inl (e, i))
    | .pte e i j => .inr (.inr (e, i, j))
  refine Finite.of_injective f fun s s' h => ?_
  cases s <;> cases s' <;> simp_all [f]

/-- The number of directory entries below `UTOP`. -/
abbrev userPdes : Nat := 955

namespace Phys

section Word

variable (p : Phys) {f g : Nat} {i j : Idx} (w : Word)

@[simp] theorem word_setWord_self : (p.setWord f i w).word f i = w := by
  simp [word, setWord, setPage]

theorem word_setWord_of_ne (h : j ≠ i) : (p.setWord f i w).word f j = p.word f j := by
  simp [word, setWord, setPage, readWord_writeWord_ne _ _ h]

/-- Storing the word that is there. -/
theorem setWord_word (p : Phys) (f : Nat) (i : Idx) : p.setWord f i (p.word f i) = p := by
  rw [setWord, word, writeWord_readWord, setPage, Function.update_eq_self]

theorem word_congr {q : Phys} (h : q.mem f = p.mem f) : q.word f i = p.word f i := by
  rw [word, h, word]

theorem mem_setWord_of_ne (h : g ≠ f) : (p.setWord f i w).mem g = p.mem g := by
  simp [setWord, setPage, Function.update_of_ne h]

theorem mem_setPage_of_ne (page : Page) (h : g ≠ f) : (p.setPage f page).mem g = p.mem g := by
  simp [setPage, Function.update_of_ne h]

end Word

variable {ι : Type} (p q : Phys) (dirs : ι → Option Nat)

/-- The directory entry `i` of `e`; empty outside the user half. -/
def pdeAt (e : ι) (i : Idx) : Word :=
  match dirs e with
  | none => 0
  | some d => if i.val < userPdes then p.word d i else 0

/-- The page table entry `j` under the directory entry `i` of `e`. -/
def pteAt (e : ι) (i j : Idx) : Word :=
  match entryFrame (p.pdeAt dirs e i) with
  | none => 0
  | some t => p.word t j

/-- The page a slot refers to. -/
def target : Slot ι → Option Nat
  | .dir e => dirs e
  | .pde e i => entryFrame (p.pdeAt dirs e i)
  | .pte e i j => entryFrame (p.pteAt dirs e i j)

/-- The page is used as a page table or a page directory. -/
def Structural (f : Nat) : Prop :=
  (∃ e, dirs e = some f) ∨ ∃ e i, p.target dirs (.pde e i) = some f

/-- Only pages that are mapped, and nothing else, are referred to more than once. -/
def Unshared : Prop :=
  ∀ s s' f, p.target dirs s = some f → p.target dirs s' = some f →
    s = s' ∨ ((∃ e i j, s = .pte e i j) ∧ ∃ e i j, s' = .pte e i j)

variable {p q dirs} {e : ι} {i j : Idx} {d t f : Nat} {w : Word}

theorem pdeAt_of_dir (hd : dirs e = some d) (hi : i.val < userPdes) :
    p.pdeAt dirs e i = p.word d i := by
  simp [pdeAt, hd, hi]

theorem pdeAt_eq_zero (hi : ¬ i.val < userPdes) : p.pdeAt dirs e i = 0 := by
  rw [pdeAt]
  cases dirs e <;> simp [hi]

theorem pteAt_of_table (ht : p.target dirs (.pde e i) = some t) :
    p.pteAt dirs e i j = p.word t j := by
  simp only [target] at ht
  simp only [pteAt, ht]

theorem pteAt_of_none (ht : p.target dirs (.pde e i) = none) : p.pteAt dirs e i j = 0 := by
  simp only [target] at ht
  simp only [pteAt, ht]

/-- Without a page directory nothing is mapped. -/
theorem pteAt_of_noDir (hd : dirs e = none) : p.pteAt dirs e i j = 0 := by
  refine pteAt_of_none ?_
  simp only [target, pdeAt, hd]
  exact entryFrame_zero

/-- A table hangs below a directory, in the user half. -/
theorem dir_of_table (ht : p.target dirs (.pde e i) = some t) :
    ∃ d, dirs e = some d ∧ i.val < userPdes ∧ entryFrame (p.word d i) = some t := by
  simp only [target, pdeAt] at ht
  cases hd : dirs e with
  | none => simp [hd] at ht
  | some d =>
      by_cases hi : i.val < userPdes
      · exact ⟨d, rfl, hi, by simpa [hd, hi] using ht⟩
      · simp [hd, hi] at ht

theorem table_of_page (hf : p.target dirs (.pte e i j) = some f) :
    ∃ t, p.target dirs (.pde e i) = some t ∧ entryFrame (p.word t j) = some f := by
  cases ht : p.target dirs (.pde e i) with
  | none =>
      rw [target, pteAt_of_none ht] at hf
      simp at hf
  | some t =>
      rw [target, pteAt_of_table ht] at hf
      exact ⟨t, rfl, hf⟩

namespace Unshared

theorem dir_inj (h : p.Unshared dirs) {e' : ι} (he : dirs e = some d) (he' : dirs e' = some d) :
    e = e' := by
  rcases h (.dir e) (.dir e') d he he' with heq | ⟨⟨_, _, _, hp⟩, -⟩
  · exact Slot.dir.inj heq
  · simp at hp

theorem dir_ne_table (h : p.Unshared dirs) {e' : ι} (he : dirs e = some d)
    (ht : p.target dirs (.pde e' i) = some t) : t ≠ d := by
  rintro rfl
  rcases h (.dir e) (.pde e' i) t he ht with heq | ⟨⟨_, _, _, hp⟩, -⟩
  · simp at heq
  · simp at hp

theorem table_inj (h : p.Unshared dirs) {e' : ι} {i' : Idx}
    (ht : p.target dirs (.pde e i) = some t) (ht' : p.target dirs (.pde e' i') = some t) :
    e = e' ∧ i = i' := by
  rcases h (.pde e i) (.pde e' i') t ht ht' with heq | ⟨⟨_, _, _, hp⟩, -⟩
  · exact ⟨(Slot.pde.inj heq).1, (Slot.pde.inj heq).2⟩
  · simp at hp

/-- A mapped page is neither a table nor a directory. -/
theorem page_not_structural (h : p.Unshared dirs) (hf : p.target dirs (.pte e i j) = some f) :
    ¬ p.Structural dirs f := by
  rintro (⟨e', hd⟩ | ⟨e', i', ht⟩)
  · rcases h (.dir e') (.pte e i j) f hd hf with heq | ⟨⟨_, _, _, hp⟩, -⟩
    · simp at heq
    · simp at hp
  · rcases h (.pde e' i') (.pte e i j) f ht hf with heq | ⟨⟨_, _, _, hp⟩, -⟩
    · simp at heq
    · simp at hp

end Unshared

section Congr

/-- Only the contents of directories and tables matter. -/
theorem pdeAt_congr (h : ∀ f, p.Structural dirs f → q.mem f = p.mem f) :
    q.pdeAt dirs e i = p.pdeAt dirs e i := by
  simp only [pdeAt]
  cases hd : dirs e with
  | none => rfl
  | some d => simp only [p.word_congr (h d (.inl ⟨e, hd⟩))]

theorem pteAt_congr (h : ∀ f, p.Structural dirs f → q.mem f = p.mem f) :
    q.pteAt dirs e i j = p.pteAt dirs e i j := by
  rw [pteAt, pdeAt_congr h, pteAt]
  cases ht : entryFrame (p.pdeAt dirs e i) with
  | none => rfl
  | some t => exact p.word_congr (h t (.inr ⟨e, i, ht⟩))

theorem target_congr (h : ∀ f, p.Structural dirs f → q.mem f = p.mem f) :
    q.target dirs = p.target dirs := by
  funext s
  cases s with
  | dir e => rfl
  | pde e i => rw [target, pdeAt_congr h, target]
  | pte e i j => rw [target, pteAt_congr h, target]

end Congr

section Entry

/-- Writing a page table entry changes that entry and nothing else. -/
theorem pdeAt_setPte (hu : p.Unshared dirs) (ht : p.target dirs (.pde e i) = some t) (e' : ι)
    (i' : Idx) : (p.setWord t j w).pdeAt dirs e' i' = p.pdeAt dirs e' i' := by
  simp only [pdeAt]
  cases hd : dirs e' with
  | none => rfl
  | some d =>
      have hne : d ≠ t := (hu.dir_ne_table hd ht).symm
      simp only [p.word_congr (p.mem_setWord_of_ne w hne)]

variable [DecidableEq ι]

theorem pteAt_setPte (hu : p.Unshared dirs) (ht : p.target dirs (.pde e i) = some t) (e' : ι)
    (i' j' : Idx) : (p.setWord t j w).pteAt dirs e' i' j' =
      if e' = e ∧ i' = i ∧ j' = j then w else p.pteAt dirs e' i' j' := by
  rw [pteAt, pdeAt_setPte hu ht]
  cases ht' : entryFrame (p.pdeAt dirs e' i') with
  | none =>
      have hne : ¬ (e' = e ∧ i' = i ∧ j' = j) := by
        rintro ⟨rfl, rfl, -⟩
        rw [target, ht'] at ht
        simp at ht
      rw [if_neg hne, pteAt, ht']
  | some t' =>
      rw [pteAt_of_table (t := t') ht']
      by_cases hj : t' = t ∧ j' = j
      · obtain ⟨rfl, rfl⟩ := hj
        obtain ⟨rfl, rfl⟩ := hu.table_inj ht ht'
        simp
      · rw [if_neg]
        · by_cases htt : t' = t
          · subst htt
            exact p.word_setWord_of_ne w fun h => hj ⟨rfl, h⟩
          · exact p.word_congr (p.mem_setWord_of_ne w htt)
        · rintro ⟨rfl, rfl, rfl⟩
          rw [target, ht'] at ht
          exact hj ⟨Option.some.inj ht, rfl⟩

theorem target_setPte (hu : p.Unshared dirs) (ht : p.target dirs (.pde e i) = some t) :
    (p.setWord t j w).target dirs =
      Function.update (p.target dirs) (.pte e i j) (entryFrame w) := by
  funext s
  cases s with
  | dir e' => simp [target]
  | pde e' i' => simp [target, pdeAt_setPte hu ht]
  | pte e' i' j' =>
      rw [target, pteAt_setPte hu ht]
      by_cases h : e' = e ∧ i' = i ∧ j' = j
      · obtain ⟨rfl, rfl, rfl⟩ := h
        simp
      · rw [if_neg h, Function.update_of_ne fun heq => h (Slot.pte.inj heq)]
        rfl

theorem pdeAt_setPde (hu : p.Unshared dirs) (hd : dirs e = some d) (hi : i.val < userPdes)
    (e' : ι) (i' : Idx) : (p.setWord d i w).pdeAt dirs e' i' =
      if e' = e ∧ i' = i then w else p.pdeAt dirs e' i' := by
  simp only [pdeAt]
  cases hd' : dirs e' with
  | none =>
      have hne : ¬ (e' = e ∧ i' = i) := by
        rintro ⟨rfl, -⟩
        rw [hd] at hd'
        simp at hd'
      rw [if_neg hne]
  | some d' =>
      by_cases he : e' = e
      · subst he
        obtain rfl : d = d' := Option.some.inj (hd.symm.trans hd')
        by_cases hii : i' = i
        · subst hii
          simp [hi]
        · simp [hii, p.word_setWord_of_ne w hii]
      · have hne : d' ≠ d := by
          rintro rfl
          exact he (hu.dir_inj hd' hd)
        simp [he, p.word_congr (p.mem_setWord_of_ne w hne)]

/-- Hanging an empty table into a free directory entry maps nothing new. -/
theorem pteAt_linkTable (hu : p.Unshared dirs) (hd : dirs e = some d) (hi : i.val < userPdes)
    (hnone : p.target dirs (.pde e i) = none) (hw : entryFrame w = some t)
    (hfresh : t ≠ d) (hzero : ∀ j, p.word t j = 0) (e' : ι) (i' j' : Idx) :
    (p.setWord d i w).pteAt dirs e' i' j' = p.pteAt dirs e' i' j' := by
  rw [pteAt, pdeAt_setPde hu hd hi]
  by_cases h : e' = e ∧ i' = i
  · obtain ⟨rfl, rfl⟩ := h
    rw [if_pos ⟨rfl, rfl⟩, hw, pteAt_of_none hnone]
    exact (p.word_congr (p.mem_setWord_of_ne w hfresh)).trans (hzero j')
  · rw [if_neg h, pteAt]
    cases ht : entryFrame (p.pdeAt dirs e' i') with
    | none => rfl
    | some t' =>
        have hne : t' ≠ d := hu.dir_ne_table hd (show p.target dirs (.pde e' i') = some t' from ht)
        exact p.word_congr (p.mem_setWord_of_ne w hne)

theorem target_linkTable (hu : p.Unshared dirs) (hd : dirs e = some d) (hi : i.val < userPdes)
    (hnone : p.target dirs (.pde e i) = none) (hw : entryFrame w = some t)
    (hfresh : t ≠ d) (hzero : ∀ j, p.word t j = 0) :
    (p.setWord d i w).target dirs = Function.update (p.target dirs) (.pde e i) (some t) := by
  funext s
  cases s with
  | dir e' => simp [target]
  | pde e' i' =>
      rw [target, pdeAt_setPde hu hd hi]
      by_cases h : e' = e ∧ i' = i
      · obtain ⟨rfl, rfl⟩ := h
        simp [hw]
      · rw [if_neg h, Function.update_of_ne fun heq => h (Slot.pde.inj heq)]
        rfl
  | pte e' i' j' =>
      rw [target, pteAt_linkTable hu hd hi hnone hw hfresh hzero]
      simp [target]

theorem pteAt_unlinkTable_of_ne (hu : p.Unshared dirs) (hd : dirs e = some d)
    (hi : i.val < userPdes) {e' : ι} {i' : Idx} (h : ¬ (e' = e ∧ i' = i)) :
    (p.setWord d i 0).pteAt dirs e' i' j = p.pteAt dirs e' i' j := by
  rw [pteAt, pdeAt_setPde hu hd hi, if_neg h, pteAt]
  cases ht : entryFrame (p.pdeAt dirs e' i') with
  | none => rfl
  | some t' =>
      have hne : t' ≠ d := hu.dir_ne_table hd (show p.target dirs (.pde e' i') = some t' from ht)
      exact p.word_congr (p.mem_setWord_of_ne 0 hne)

/-- Taking a table out of its directory entry when it maps nothing. -/
theorem target_unlinkTable (hu : p.Unshared dirs) (hd : dirs e = some d) (hi : i.val < userPdes)
    (hempty : ∀ j, p.target dirs (.pte e i j) = none) :
    (p.setWord d i 0).target dirs = Function.update (p.target dirs) (.pde e i) none := by
  funext s
  cases s with
  | dir e' => simp [target]
  | pde e' i' =>
      rw [target, pdeAt_setPde hu hd hi]
      by_cases h : e' = e ∧ i' = i
      · obtain ⟨rfl, rfl⟩ := h
        simp
      · rw [if_neg h, Function.update_of_ne fun heq => h (Slot.pde.inj heq)]
        rfl
  | pte e' i' j' =>
      rw [Function.update_of_ne (by simp), target]
      by_cases h : e' = e ∧ i' = i
      · obtain ⟨rfl, rfl⟩ := h
        rw [pteAt, pdeAt_setPde hu hd hi]
        simp [hempty j']
      · rw [pteAt_unlinkTable_of_ne hu hd hi h, target]

/-- Giving an environment a page directory with an empty user half. -/
theorem target_linkDir (hnone : dirs e = none)
    (hempty : ∀ i : Idx, i.val < userPdes → entryFrame (p.word d i) = none) :
    p.target (Function.update dirs e (some d)) =
      Function.update (p.target dirs) (.dir e) (some d) := by
  have hpde : ∀ e' i', entryFrame (p.pdeAt (Function.update dirs e (some d)) e' i') =
      entryFrame (p.pdeAt dirs e' i') := by
    intro e' i'
    by_cases he : e' = e
    · subst he
      simp only [pdeAt, Function.update_self, hnone]
      by_cases hi : i'.val < userPdes
      · simp [hi, hempty i' hi]
      · simp [hi]
    · simp only [pdeAt, Function.update_of_ne he]
  funext s
  cases s with
  | dir e' =>
      by_cases he : e' = e
      · subst he
        simp [target]
      · simp [target, he]
  | pde e' i' => simp [target, hpde]
  | pte e' i' j' => simp [target, pteAt, hpde]

/-- Taking a page directory with an empty user half away. -/
theorem target_unlinkDir (hempty : ∀ i, p.target dirs (.pde e i) = none) :
    p.target (Function.update dirs e none) = Function.update (p.target dirs) (.dir e) none := by
  have hpde : ∀ e' i', entryFrame (p.pdeAt (Function.update dirs e none) e' i') =
      entryFrame (p.pdeAt dirs e' i') := by
    intro e' i'
    by_cases he : e' = e
    · subst he
      have hnone := hempty i'
      rw [target] at hnone
      rw [hnone]
      simp [pdeAt]
    · simp only [pdeAt, Function.update_of_ne he]
  funext s
  cases s with
  | dir e' =>
      by_cases he : e' = e
      · subst he
        simp [target]
      · simp [target, he]
  | pde e' i' => simp [target, hpde]
  | pte e' i' j' => simp [target, pteAt, hpde]

end Entry

end Phys

end Jos
