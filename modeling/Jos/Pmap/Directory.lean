import Jos.Pmap.Run

/-!
# A page directory and the free pages

`KernDir d l p` is what `pgdir_walk` needs of the directory `d`: it maps itself at `UVPT`,
its page tables are pages of their own, and the pages `l` on the free list are none of
them. Walking with `create` takes page tables from the list and never fails for another
reason than an empty list.
-/

namespace Jos

open Prog

/-- The page directory `d` of the kernel, and the free list `l`. -/
structure KernDir (d : Nat) (l : List Nat) (p : Phys) : Prop where
  npages_le : p.npages ≤ 65536
  dir_lt : d < p.npages
  free : IsList p.link p.pageFreeList l
  listed : ∀ f ∈ l, f < p.npages ∧ f ≠ d
  self : p.word d (pdx uvpt) = page2pa d ||| pteU ||| pteP
  table : ∀ i, i ≠ pdx uvpt → p.word d i &&& pteP ≠ 0 →
    pgnum (p.word d i) < p.npages ∧ pgnum (p.word d i) ≠ d ∧ pgnum (p.word d i) ∉ l
  distinct : ∀ i j, i ≠ pdx uvpt → j ≠ pdx uvpt → p.word d i &&& pteP ≠ 0 →
    p.word d j &&& pteP ≠ 0 → pgnum (p.word d i) = pgnum (p.word d j) → i = j

namespace Phys

theorem growTable_mem (p : Phys) (d f : Nat) (i : Idx) {g : Nat} (hf : g ≠ f) (hd : g ≠ d) :
    (p.growTable d f i).mem g = p.mem g := by
  rw [growTable, mem_setWord_of_ne _ _ hd]
  change (p.alloc f true).mem g = p.mem g
  rw [alloc, if_pos rfl]
  exact (p.take f).mem_setPage_of_ne _ hf

theorem growTable_mem_self (p : Phys) {d f : Nat} (i : Idx) (hd : f ≠ d) :
    (p.growTable d f i).mem f = fun _ => 0 := by
  rw [growTable, mem_setWord_of_ne _ _ hd]
  change (p.alloc f true).mem f = fun _ => 0
  rw [alloc, if_pos rfl]
  simp [setPage]

theorem growTable_pages (p : Phys) (d f : Nat) (i : Idx) {g : Nat} (hf : g ≠ f) :
    (p.growTable d f i).pages g = p.pages g := by
  simp [growTable, alloc, take, setWord, setPage, setRef, setLink, Function.update_of_ne hf]

theorem growTable_link (p : Phys) (d f : Nat) (i : Idx) :
    (p.growTable d f i).link = Function.update p.link f none := by
  funext g
  by_cases hg : g = f
  · subst hg
    simp [growTable, alloc, take, setWord, setPage, setRef, setLink, link]
  · rw [Function.update_of_ne hg, link, growTable_pages _ _ _ _ hg, link]

theorem growTable_word_self (p : Phys) (d f : Nat) (i : Idx) :
    (p.growTable d f i).word d i = page2pa f ||| pteP ||| pteW ||| pteU :=
  word_setWord_self _ _

theorem growTable_word (p : Phys) {d f : Nat} {i j : Idx} (hd : d ≠ f) (hne : j ≠ i) :
    (p.growTable d f i).word d j = p.word d j := by
  rw [growTable, word_setWord_of_ne _ _ hne]
  refine p.word_congr ?_
  change (p.alloc f true).mem d = p.mem d
  rw [alloc, if_pos rfl]
  exact (p.take f).mem_setPage_of_ne _ hd

end Phys

/-- The entry for a page table is present and names it. -/
theorem tablePde_spec {f : Nat} (h : f < 1048576) :
    (page2pa f ||| pteP ||| pteW ||| pteU) &&& pteP ≠ 0 ∧
      pgnum (page2pa f ||| pteP ||| pteW ||| pteU) = f := by
  rw [page2pa, tablePde_eq]
  exact ⟨mkPte_present _ _, pgnum_mkPte h (by decide)⟩

namespace KernDir

variable {d f : Nat} {l : List Nat} {p : Phys} {i : Idx} {va : Word}

/-- The first free page becomes the page table of an empty directory entry. -/
theorem grow (h : KernDir d (f :: l) p) (hi : i ≠ pdx uvpt) (hp : p.word d i &&& pteP = 0) :
    KernDir d l (p.growTable d f i) := by
  obtain ⟨hflt, hfd⟩ := h.listed f (by simp)
  have hnpages := h.npages_le
  have hnodup := List.nodup_cons.mp h.free.nodup
  obtain ⟨hpresent, hnum⟩ := tablePde_spec (f := f) (by omega)
  have hself := p.growTable_word_self d f i
  have hword : ∀ j, j ≠ i → (p.growTable d f i).word d j = p.word d j := fun j hj =>
    p.growTable_word hfd.symm hj
  have hhead : p.pageFreeList = some f := h.free.head_eq
  -- the other page tables are not `f`, which was free
  have hold : ∀ j, j ≠ i → j ≠ pdx uvpt → (p.growTable d f i).word d j &&& pteP ≠ 0 →
      pgnum ((p.growTable d f i).word d j) ≠ f := by
    intro j hj hju hpj heqf
    rw [hword j hj] at hpj heqf
    exact (h.table j hju hpj).2.2 (heqf ▸ List.mem_cons_self)
  refine ⟨h.npages_le, h.dir_lt, ?_, fun g hg => h.listed g (List.mem_cons_of_mem f hg), ?_,
    fun j hj hpj => ?_, fun j j' hj hj' hpj hpj' heq => ?_⟩
  · have hpop := h.free
    rw [hhead] at hpop
    rw [p.growTable_link]
    exact hpop.pop none
  · rw [hword _ hi.symm]
    exact h.self
  · by_cases hji : j = i
    · subst hji
      rw [hself, hnum]
      exact ⟨hflt, hfd, hnodup.1⟩
    · rw [hword j hji] at hpj ⊢
      obtain ⟨hlt, hne, hnot⟩ := h.table j hj hpj
      exact ⟨hlt, hne, fun hmem => hnot (List.mem_cons_of_mem f hmem)⟩
  · by_cases hji : j = i <;> by_cases hji' : j' = i
    · rw [hji, hji']
    · rw [hji, hself, hnum] at heq
      exact absurd heq.symm (hold j' hji' hj' hpj')
    · rw [hji', hself, hnum] at heq
      exact absurd heq (hold j hji hj hpj)
    · rw [hword j hji] at hpj heq
      rw [hword j' hji'] at hpj' heq
      exact h.distinct j j' hj hj' hpj hpj' heq

/-- The entries of the page tables are free to change. -/
theorem setWord (h : KernDir d l p) (hi : i ≠ pdx uvpt) (hp : p.word d i &&& pteP ≠ 0)
    (j : Idx) (w : Word) : KernDir d l (p.setWord (pgnum (p.word d i)) j w) := by
  have hne := (h.table i hi hp).2.1
  have hword : ∀ i', (p.setWord (pgnum (p.word d i)) j w).word d i' = p.word d i' := fun i' =>
    p.word_congr (p.mem_setWord_of_ne w hne.symm)
  refine ⟨h.npages_le, h.dir_lt, h.free, h.listed, ?_, fun i' => ?_, fun i' j' => ?_⟩
  · rw [hword]
    exact h.self
  · rw [hword]
    exact h.table i'
  · rw [hword, hword]
    exact h.distinct i' j'

/-- `pgdir_walk` fails only if no page is left. -/
theorem walk (h : KernDir d l p) (hva : pdx va ≠ pdx uvpt) :
    (pgdirWalk d va true p = .ret none p ∧ l = [] ∧ p.word d (pdx va) &&& pteP = 0) ∨
      ∃ q l', pgdirWalk d va true p = .ret (some ⟨pgnum (q.word d (pdx va)), ptx va⟩) q ∧
        KernDir d l' q ∧ q.word d (pdx va) &&& pteP ≠ 0 ∧
        ∀ i, p.word d i &&& pteP ≠ 0 → q.word d i = p.word d i := by
  by_cases hp : p.word d (pdx va) &&& pteP = 0
  · rcases h.free.head_cases with ⟨hhead, hnil⟩ | ⟨f, l', hhead, rfl, -⟩
    · exact .inl ⟨pgdirWalk_noMem hp hhead, hnil, hp⟩
    · obtain ⟨hlt, hne⟩ := h.listed f (by simp)
      have hnpages := h.npages_le
      obtain ⟨hpresent, hnum⟩ := tablePde_spec (f := f) (by omega)
      refine .inr ⟨_, l', ?_, h.grow hva hp, ?_, fun i hi => ?_⟩
      · rw [pgdirWalk_create hp hhead hlt hnpages, p.growTable_word_self, hnum]
      · rw [p.growTable_word_self]
        exact hpresent
      · refine p.growTable_word hne.symm ?_
        rintro rfl
        exact hi hp
  · exact .inr ⟨p, l, pgdirWalk_found hp (h.table _ hva hp).1 true, h, hp, fun _ _ => rfl⟩

end KernDir

end Jos
