import Jos.Pmap.Spec
import Mathlib.Data.Set.Basic

/-!
# What `page_remove` does to a page directory

No invariant is needed here. A write to an entry of some page matters for the
translation of an address if the walk passes through that entry, in the directory
or in a page table. `page_remove` keeps its contract exactly when there is no
page table for the address, or when the entry is present, refers to an existing
page that can be freed, and no other mapped address passes through it.
-/

namespace Jos

open Prog

namespace Phys

variable {p q : Phys} {d t : Nat} {va : Word} {j : Idx} {w : Word}

/-- The walk of `va` in the directory `d` reads the entry `j` of the page `t`. -/
def Passes (p : Phys) (d : Nat) (va : Word) (t : Nat) (j : Idx) : Prop :=
  (t = d ∧ pdx va = j) ∨ (pgnum (p.word d (pdx va)) = t ∧ ptx va = j)

theorem word_setWord (f : Nat) (i : Idx) :
    (p.setWord t j w).word f i = if f = t ∧ i = j then w else p.word f i := by
  by_cases hf : f = t
  · subst hf
    by_cases hi : i = j
    · subst hi
      simp
    · simp [hi, word_setWord_of_ne _ _ hi]
  · simp [hf, p.word_congr (mem_setWord_of_ne _ _ hf)]

/-- The translation depends on the contents of memory only. -/
theorem translate_congr (h : q.mem = p.mem) : q.translate d va = p.translate d va := by
  have hword : ∀ f i, q.word f i = p.word f i := fun f i => p.word_congr (by rw [h])
  simp only [translate, hword]

theorem translate_setWord_of_not_passes (h : ¬ p.Passes d va t j) :
    (p.setWord t j w).translate d va = p.translate d va := by
  rw [Passes, not_or] at h
  have hpde : (p.setWord t j w).word d (pdx va) = p.word d (pdx va) := by
    rw [word_setWord, if_neg fun hd => h.1 ⟨hd.1.symm, hd.2⟩]
  have hpte : (p.setWord t j w).word (pgnum (p.word d (pdx va))) (ptx va) =
      p.word (pgnum (p.word d (pdx va))) (ptx va) := by
    rw [word_setWord, if_neg h.2]
  simp only [translate, hpde, hpte]

/-- Nothing is mapped behind a cleared entry. -/
theorem translate_clear_of_passes (h : p.Passes d va t j) :
    (p.setWord t j 0).translate d va = none := by
  rw [translate]
  by_cases hdir : t = d ∧ pdx va = j
  · obtain ⟨rfl, rfl⟩ := hdir
    simp
  · have hpde : (p.setWord t j 0).word d (pdx va) = p.word d (pdx va) := by
      rw [word_setWord, if_neg fun hd => hdir ⟨hd.1.symm, hd.2⟩]
    obtain ⟨hnum, rfl⟩ := h.resolve_left hdir
    dsimp only
    rw [hpde, hnum, word_setWord_self, if_pos (by decide : (0 : Word) &&& pteP = 0)]
    split <;> rfl

/-- The two virtual addresses lie in one page. -/
def SamePage (va va' : Word) : Prop := pdx va' = pdx va ∧ ptx va' = ptx va

instance (va va' : Word) : Decidable (SamePage va va') := inferInstanceAs (Decidable (_ ∧ _))

/-- From `p` to `q` the page `f`, mapped at `va` of `d` by an entry of the table `t`, has been
removed. `D` are the page directories in use. -/
structure Removed (D : Set Nat) (d : Nat) (va : Word) (t f : Nat) (p q : Phys) : Prop where
  ref : q.ref f = p.ref f - 1
  ref_of_ne : ∀ g, g ≠ f → q.ref g = p.ref g
  freed : p.ref f = 1 →
    q.pageFreeList = some f ∧ q.link = Function.update p.link f p.pageFreeList
  kept : p.ref f ≠ 1 → q.pageFreeList = p.pageFreeList ∧ q.link = p.link
  /-- The entry is cleared, and nothing else is written. -/
  cleared : q.mem = (p.setWord t (ptx va) 0).mem
  others : ∀ d' ∈ D, ∀ va', ¬ (d' = d ∧ SamePage va va') →
    q.translate d' va' = p.translate d' va'

theorem drop_ref_self (p : Phys) (f : Nat) : (p.drop f).ref f = p.ref f - 1 := by
  rw [drop]
  split
  · change ((p.setRef f (p.ref f - 1)).setLink f _).ref f = _
    rw [setLink_ref, setRef_ref_self]
  · exact setRef_ref_self _ _

theorem drop_ref_of_ne (p : Phys) {f g : Nat} (h : g ≠ f) : (p.drop f).ref g = p.ref g := by
  rw [drop]
  split
  · change ((p.setRef f (p.ref f - 1)).setLink f _).ref g = _
    rw [setLink_ref, setRef_ref_of_ne _ _ h]
  · exact setRef_ref_of_ne _ _ h

theorem drop_last {f : Nat} (h : p.ref f = 1) : (p.drop f).pageFreeList = some f ∧
    (p.drop f).link = Function.update p.link f p.pageFreeList := by
  have hlast : (p.setRef f (p.ref f - 1)).ref f = 0 := by
    rw [setRef_ref_self, h]
    decide
  rw [drop, if_pos hlast]
  refine ⟨rfl, ?_⟩
  change ((p.setRef f (p.ref f - 1)).setLink f _).link = _
  rw [setLink_link, setRef_link]
  rfl

theorem drop_shared {f : Nat} (h : p.ref f ≠ 1) : (p.drop f).pageFreeList = p.pageFreeList ∧
    (p.drop f).link = p.link := by
  have hmore : ¬ (p.setRef f (p.ref f - 1)).ref f = 0 := by
    rw [setRef_ref_self, BitVec.sub_eq_iff_eq_add]
    simpa using h
  rw [drop, if_neg hmore]
  exact ⟨rfl, setRef_link _ _⟩

/-- What the walk finds, in terms of the entries it reads. -/
theorem translate_of_present (hpde : p.word d (pdx va) &&& pteP ≠ 0)
    (hpte : p.word (pgnum (p.word d (pdx va))) (ptx va) &&& pteP ≠ 0) :
    p.translate d va =
      some (p.word d (pdx va), p.word (pgnum (p.word d (pdx va))) (ptx va)) := by
  rw [translate]
  dsimp only
  rw [if_neg hpde, if_neg hpte]

theorem translate_of_no_table (hpde : p.word d (pdx va) &&& pteP = 0) :
    p.translate d va = none := by
  rw [translate]
  dsimp only
  rw [if_pos hpde]

theorem translate_of_hole (hpte : p.word (pgnum (p.word d (pdx va))) (ptx va) &&& pteP = 0) :
    p.translate d va = none := by
  rw [translate]
  dsimp only
  rw [if_pos hpte]
  split <;> rfl

theorem translate_eq_some {pde pte : Word} (h : p.translate d va = some (pde, pte)) :
    p.word d (pdx va) = pde ∧ pde &&& pteP ≠ 0 ∧ p.word (pgnum pde) (ptx va) = pte ∧
      pte &&& pteP ≠ 0 := by
  rw [translate] at h
  dsimp only at h
  split at h
  · simp at h
  · rename_i hpde
    split at h
    · simp at h
    · rename_i hpte
      obtain ⟨rfl, rfl⟩ := Prod.mk.inj (Option.some.inj h)
      exact ⟨rfl, hpde, rfl, hpte⟩

end Phys

/-- The contract of `page_lookup` and `page_remove` at `va` of the directory `d`. -/
structure RemoveCorrect (D : Set Nat) (d : Nat) (va : Word) (p : Phys) : Prop where
  unmapped : p.translate d va = none →
    pageLookup d va p = .ret none p ∧ pageRemove d va p = .ret () p
  mapped : ∀ pde pte, p.translate d va = some (pde, pte) →
    ∃ q, pageRemove d va p = .ret () q ∧ Phys.Removed D d va (pgnum pde) (pgnum pte) p q

/-- The entry for `va` may be removed: it is present, its table and its page exist, the page
can be freed if this is its last reference, and no other mapped address passes through it. -/
structure Phys.Removable (D : Set Nat) (d : Nat) (va : Word) (p : Phys) : Prop where
  table_lt : pgnum (p.word d (pdx va)) < p.npages
  present : p.word (pgnum (p.word d (pdx va))) (ptx va) &&& pteP ≠ 0
  page_lt : pgnum (p.word (pgnum (p.word d (pdx va))) (ptx va)) < p.npages
  unlinked : p.ref (pgnum (p.word (pgnum (p.word d (pdx va))) (ptx va))) = 1 →
    p.link (pgnum (p.word (pgnum (p.word d (pdx va))) (ptx va))) = none
  alone : ∀ d' ∈ D, ∀ va', ¬ (d' = d ∧ Phys.SamePage va va') → p.translate d' va' ≠ none →
    ¬ p.Passes d' va' (pgnum (p.word d (pdx va))) (ptx va)

section Remove

variable {D : Set Nat} {p q : Phys} {d f : Nat} {va : Word}

/-- Without `PTE_P` the entry is still taken for a page. -/
theorem not_removeCorrect_of_hole (htable : p.word d (pdx va) &&& pteP ≠ 0)
    (hlt : pgnum (p.word d (pdx va)) < p.npages)
    (hole : p.word (pgnum (p.word d (pdx va))) (ptx va) &&& pteP = 0) :
    ¬ RemoveCorrect D d va p := by
  intro h
  have hnone := (h.unmapped (Phys.translate_of_hole hole)).1
  by_cases hf : pgnum (p.word (pgnum (p.word d (pdx va))) (ptx va)) < p.npages
  · rw [pageLookup_some htable hlt hf] at hnone
    simp at hnone
  · rw [pageLookup_panic htable hlt (Nat.not_lt.mp hf)] at hnone
    simp at hnone

/-- Freeing a page that is linked to another one panics. -/
theorem pageRemove_linked {pte : PtePtr} (hl : pageLookup d va p = .ret (some (f, pte)) p)
    (href : p.ref f = 1) (hlink : p.link f ≠ none) : pageRemove d va p = .panic .pageFree := by
  rw [pageRemove, bind_ret _ hl]
  exact bind_panic _ (pageDecref_panic href hlink)

/-- `page_decref` does not look at the link of a page that stays in use. -/
theorem pageDecref_drop (h : p.ref f = 1 → p.link f = none) :
    pageDecref f p = .ret () (p.drop f) := by
  by_cases href : p.ref f = 1
  · exact pageDecref_run (h href)
  · have hmore : ¬ (p.setRef f (p.ref f - 1)).ref f = 0 := by
      rw [Phys.setRef_ref_self, BitVec.sub_eq_iff_eq_add]
      simpa using href
    rw [pageDecref, modify_bind, get_bind, when_neg _ hmore, Phys.drop, if_neg hmore]
    rfl

theorem pageRemove_removed (htable : p.word d (pdx va) &&& pteP ≠ 0) (h : p.Removable D d va) :
    ∃ q, pageRemove d va p = .ret () q ∧
      Phys.Removed D d va (pgnum (p.word d (pdx va)))
        (pgnum (p.word (pgnum (p.word d (pdx va))) (ptx va))) p q := by
  have hlookup := pageLookup_some htable h.table_lt h.page_lt
  have hlt := h.unlinked
  have halone := h.alone
  generalize pgnum (p.word d (pdx va)) = t at hlookup hlt halone ⊢
  generalize pgnum (p.word t (ptx va)) = f at hlookup hlt ⊢
  have hmem : ((p.drop f).setWord t (ptx va) 0).mem = (p.setWord t (ptx va) 0).mem := by
    simp only [Phys.setWord, Phys.setPage, Phys.Inv.drop_mem]
  refine ⟨(p.drop f).setWord t (ptx va) 0, ?_, ⟨Phys.drop_ref_self p f,
    fun g hg => Phys.drop_ref_of_ne p hg, Phys.drop_last, Phys.drop_shared, hmem,
    fun d' hd' va' hne => ?_⟩⟩
  · rw [pageRemove, bind_ret _ hlookup]
    exact bind_ret _ (pageDecref_drop hlt)
  · rw [Phys.translate_congr hmem]
    by_cases hnone : p.translate d' va' = none
    · by_cases hpass : p.Passes d' va' t (ptx va)
      · rw [hnone, Phys.translate_clear_of_passes hpass]
      · exact Phys.translate_setWord_of_not_passes hpass
    · exact Phys.translate_setWord_of_not_passes (halone d' hd' va' hne hnone)

theorem pageRemove_panics {why : Panic} (h : pageLookup d va p = .panic why) :
    pageRemove d va p = .panic why := by
  rw [pageRemove]
  exact bind_panic _ h

/-- Where the contract holds, no lookup panics. -/
theorem RemoveCorrect.lookup_ne_panic (h : RemoveCorrect D d va p) (why : Panic) :
    pageLookup d va p ≠ .panic why := by
  intro hpanic
  cases hwalk : p.translate d va with
  | none =>
      have hnone := (h.unmapped hwalk).1
      rw [hpanic] at hnone
      simp at hnone
  | some entries =>
      obtain ⟨q, hrun, -⟩ := h.mapped entries.1 entries.2 hwalk
      rw [pageRemove_panics hpanic] at hrun
      simp at hrun

theorem RemoveCorrect.removable (h : RemoveCorrect D d va p)
    (htable : p.word d (pdx va) &&& pteP ≠ 0) : p.Removable D d va := by
  have hlt : pgnum (p.word d (pdx va)) < p.npages := by
    by_contra hge
    refine h.lookup_ne_panic .kaddr ?_
    rw [pageLookup]
    refine bind_panic _ ?_
    rw [pgdirWalk_false, if_neg htable, if_pos (Nat.not_lt.mp hge)]
  have hpresent : p.word (pgnum (p.word d (pdx va))) (ptx va) &&& pteP ≠ 0 :=
    fun hole => not_removeCorrect_of_hole htable hlt hole h
  have hpage : pgnum (p.word (pgnum (p.word d (pdx va))) (ptx va)) < p.npages := by
    by_contra hge
    exact h.lookup_ne_panic .pa2page (pageLookup_panic htable hlt (Nat.not_lt.mp hge))
  obtain ⟨q, hrun, hremoved⟩ := h.mapped _ _ (Phys.translate_of_present htable hpresent)
  refine ⟨hlt, hpresent, hpage, fun href => ?_, fun d' hd' va' hne hmapped hpass => hmapped ?_⟩
  · by_contra hlink
    rw [pageRemove_linked (pageLookup_some htable hlt hpage) href hlink] at hrun
    simp at hrun
  · rw [← hremoved.others d' hd' va' hne, Phys.translate_congr hremoved.cleared,
      Phys.translate_clear_of_passes hpass]

/-- `page_remove` keeps its contract where there is no page table, and where the entry is
present and may be removed; nowhere else. -/
theorem removeCorrect_iff :
    RemoveCorrect D d va p ↔ p.word d (pdx va) &&& pteP = 0 ∨ p.Removable D d va := by
  by_cases htable : p.word d (pdx va) &&& pteP = 0
  · have hnone := Phys.translate_of_no_table htable
    refine ⟨fun _ => .inl htable, fun _ => ⟨fun _ => ?_, fun pde pte hwalk => ?_⟩⟩
    · exact ⟨pageLookup_none htable, pageRemove_none htable⟩
    · rw [hnone] at hwalk
      simp at hwalk
  · refine ⟨fun h => .inr (h.removable htable), fun h => ?_⟩
    have hremovable := h.resolve_left htable
    have hsome := Phys.translate_of_present htable hremovable.present
    refine ⟨fun hnone => ?_, fun pde pte hwalk => ?_⟩
    · rw [hsome] at hnone
      simp at hnone
    · rw [hsome] at hwalk
      obtain ⟨rfl, rfl⟩ := Prod.mk.inj (Option.some.inj hwalk)
      exact pageRemove_removed htable hremovable

end Remove

end Jos
