import Jos.Pmap.Remove

/-!
# What `page_insert` does, end to end

`Tidy D p` is what `page_insert` needs of the page directories `D` in use: the
page tables of the user half are not shared, no free page is in use, and the
counts of mapped pages are in range. Reference counts need not be exact. The
result is described by `Inserted`.

The directory is one of its own page tables, at `UVPT`. When a new page table is
hung into it, that page table appears in this window; everything else outside the
page at `va` is translated as before.
-/

namespace Jos

open Prog

namespace Phys

structure Tidy (D : Set Nat) (p : Phys) : Prop where
  npages_le : p.npages ≤ 65536
  free : ∃ l, IsList p.link p.pageFreeList l ∧ ∀ f ∈ l, f < p.npages
  /-- Pages that are in use have no `pp_link`. -/
  unlinked : ∀ f, ¬ p.Listed f → p.link f = none
  table_lt : ∀ d ∈ D, ∀ i : Idx, i.val < userPdes → p.word d i &&& pteP ≠ 0 →
    pgnum (p.word d i) < p.npages
  /-- A page table of the user half is not a page directory, -/
  table_dir : ∀ d ∈ D, ∀ i : Idx, i.val < userPdes → p.word d i &&& pteP ≠ 0 →
    pgnum (p.word d i) ∉ D
  /-- and it is in no other place of any directory. -/
  table_inj : ∀ d ∈ D, ∀ d' ∈ D, ∀ i i' : Idx, i.val < userPdes → p.word d i &&& pteP ≠ 0 →
    p.word d' i' &&& pteP ≠ 0 → pgnum (p.word d' i') = pgnum (p.word d i) → d' = d ∧ i' = i
  free_table : ∀ f, p.Listed f → f ∉ D ∧
    ∀ d ∈ D, ∀ i, p.word d i &&& pteP ≠ 0 → pgnum (p.word d i) ≠ f
  free_mapped : ∀ f, p.Listed f → ∀ d ∈ D, ∀ va pde pte, va < utop →
    p.translate d va = some (pde, pte) → pgnum pte ≠ f
  count : ∀ d ∈ D, ∀ va pde pte, va < utop → p.translate d va = some (pde, pte) →
    pgnum pte < p.npages ∧ 1 ≤ (p.ref (pgnum pte)).toNat ∧ (p.ref (pgnum pte)).toNat ≤ 65534

/-- The page `pp` is mapped at `va`. -/
def Maps (p : Phys) (d : Nat) (va : Word) (pp : Nat) : Prop :=
  ∃ pde pte, p.translate d va = some (pde, pte) ∧ pgnum pte = pp

/-- The page at `va'` of `d'` shows the page table that is missing for `va` in `d`. -/
def ShowsTable (p : Phys) (d : Nat) (va : Word) (d' : Nat) (va' : Word) : Prop :=
  p.word d (pdx va) &&& pteP = 0 ∧ pgnum (p.word d' (pdx va')) = d ∧ ptx va' = pdx va

/-- From `p` to `q` the page `pp` has been mapped at `va` of `d`. -/
structure Inserted (D : Set Nat) (d pp : Nat) (va perm : Word) (p q : Phys) : Prop where
  walk : ∃ pde, q.translate d va = some (pde, mkPte pp perm)
  others : ∀ d' ∈ D, ∀ va', ¬ (d' = d ∧ SamePage va va') → ¬ p.ShowsTable d va d' va' →
    q.translate d' va' = p.translate d' va'
  /-- If the page is mapped there already, the allocator is not touched. -/
  same : p.Maps d va pp → q.pages = p.pages ∧ q.pageFreeList = p.pageFreeList
  grown : ¬ p.Maps d va pp → (q.ref pp).toNat = (p.ref pp).toNat + 1
  replaced : ∀ f, p.Maps d va f → f ≠ pp →
    (q.ref f).toNat + 1 = (p.ref f).toNat ∧ (q.Listed f ↔ p.ref f = 1)
  /-- No page leaves the free list, except a new page table, which is otherwise empty. -/
  taken : (∀ g, p.Listed g → q.Listed g) ∨
    ∃ f, p.word d (pdx va) &&& pteP = 0 ∧ p.Listed f ∧ ¬ q.Listed f ∧
      (∀ g, g ≠ f → p.Listed g → q.Listed g) ∧ entryFrame (q.word d (pdx va)) = some f ∧
      ∀ j, j ≠ ptx va → q.word f j = 0

/-! ### The free list -/

variable {p q : Phys} {f g : Nat} {l : List Nat}

/-- `page_decref` of the last reference puts the page in front of the list. -/
theorem drop_listed_iff (hl : IsList p.link p.pageFreeList l) (hf : f ∉ l) (href : p.ref f = 1) :
    (p.drop f).Listed g ↔ g = f ∨ g ∈ l := by
  obtain ⟨hhead, hlink⟩ := drop_last href
  have hlist : IsList (p.drop f).link (p.drop f).pageFreeList (f :: l) := by
    rw [hhead, hlink]
    exact hl.push hf
  rw [Listed, hlist.linked_iff, List.mem_cons]

/-- `page_alloc` takes the first page off the list. -/
theorem take_listed_iff (hl : IsList p.link p.pageFreeList (f :: l)) :
    (p.take f).Listed g ↔ g ∈ l := by
  have hhead : p.pageFreeList = some f := hl.head_eq
  have hlist : IsList (p.take f).link (p.take f).pageFreeList l := by
    change IsList ({ p with pageFreeList := p.link f }.setLink f none).link (p.link f) l
    rw [setLink_link]
    rw [hhead] at hl
    exact hl.pop none
  rw [Listed, hlist.linked_iff]

/-! ### The page table exists -/

section Table

variable {D : Set Nat} {d pp t : Nat} {va perm : Word}

theorem Tidy.table_ne (h : p.Tidy D) (hd : d ∈ D) (hva : va < utop)
    (htable : p.word d (pdx va) &&& pteP ≠ 0) {d' : Nat} (hd' : d' ∈ D) :
    pgnum (p.word d (pdx va)) ≠ d' := by
  rintro rfl
  exact h.table_dir d hd _ ((pdx_lt_iff va).mpr hva) htable hd'

/-- A store to the entry for `va` changes the translation of no other page. -/
theorem Tidy.translate_setPte (h : p.Tidy D) (hd : d ∈ D) (hva : va < utop)
    (htable : p.word d (pdx va) &&& pteP ≠ 0) {d' : Nat} (hd' : d' ∈ D) {va' : Word}
    (hne : ¬ (d' = d ∧ SamePage va va')) (w : Word) :
    (p.setWord (pgnum (p.word d (pdx va))) (ptx va) w).translate d' va' = p.translate d' va' := by
  have hi := (pdx_lt_iff va).mpr hva
  have hdir := h.table_ne hd hva htable hd'
  by_cases hp : p.word d' (pdx va') &&& pteP = 0
  · have hpde : (p.setWord (pgnum (p.word d (pdx va))) (ptx va) w).word d' (pdx va') =
        p.word d' (pdx va') := p.word_congr (p.mem_setWord_of_ne w hdir.symm)
    rw [translate_of_no_table hp, translate_of_no_table (by rw [hpde, hp])]
  · refine translate_setWord_of_not_passes ?_
    rintro (⟨heq, -⟩ | ⟨hnum, hptx⟩)
    · exact hdir heq
    · obtain ⟨rfl, hpdx⟩ := h.table_inj d hd d' hd' _ _ hi htable hp hnum
      exact hne ⟨rfl, hpdx, hptx⟩

/-- What is mapped at `va` after a store to its entry. -/
theorem translate_store (htable : p.word d (pdx va) &&& pteP ≠ 0)
    (hne : pgnum (p.word d (pdx va)) ≠ d) :
    (p.setWord (pgnum (p.word d (pdx va))) (ptx va) (mkPte pp perm)).translate d va =
      some (p.word d (pdx va), mkPte pp perm) := by
  have hpde : (p.setWord (pgnum (p.word d (pdx va))) (ptx va) (mkPte pp perm)).word d (pdx va) =
      p.word d (pdx va) := p.word_congr (p.mem_setWord_of_ne _ hne.symm)
  rw [translate]
  dsimp only
  rw [hpde, if_neg htable, word_setWord_self, if_neg (mkPte_present pp perm)]

theorem maps_of_table (htable : p.word d (pdx va) &&& pteP ≠ 0) : p.Maps d va f ↔
    p.word (pgnum (p.word d (pdx va))) (ptx va) &&& pteP ≠ 0 ∧
      pgnum (p.word (pgnum (p.word d (pdx va))) (ptx va)) = f := by
  constructor
  · rintro ⟨pde, pte, hwalk, rfl⟩
    obtain ⟨rfl, -, rfl, hpte⟩ := translate_eq_some hwalk
    exact ⟨hpte, rfl⟩
  · rintro ⟨hpte, rfl⟩
    exact ⟨_, _, translate_of_present htable hpte, rfl⟩

/-- One more reference, where there is room for it in 16 bits. -/
theorem toNat_succ {count : BitVec 16} (hroom : count.toNat ≤ 65534) :
    (count + 1).toNat = count.toNat + 1 := by
  rw [BitVec.toNat_add, show (1 : BitVec 16).toNat = 1 from rfl]
  omega

/-- The three ends of `page_insert` with an existing page table only differ in what happens to
the counts and the free list. -/
theorem Tidy.inserted (h : p.Tidy D) (hd : d ∈ D) (hva : va < utop)
    (hroom : (p.ref pp).toNat ≤ 65534) (htable : p.word d (pdx va) &&& pteP ≠ 0)
    (hmem : q.mem = (p.setWord (pgnum (p.word d (pdx va))) (ptx va) (mkPte pp perm)).mem)
    (same : p.Maps d va pp → q.pages = p.pages ∧ q.pageFreeList = p.pageFreeList)
    (grown : ¬ p.Maps d va pp → q.ref pp = p.ref pp + 1)
    (replaced : ∀ f, p.Maps d va f → f ≠ pp →
      (q.ref f).toNat + 1 = (p.ref f).toNat ∧ (q.Listed f ↔ p.ref f = 1))
    (listed : ∀ g, p.Listed g → q.Listed g) : Inserted D d pp va perm p q := by
  refine ⟨⟨p.word d (pdx va), ?_⟩, fun d' hd' va' hne _ => ?_, same,
    fun hm => (congrArg BitVec.toNat (grown hm)).trans (toNat_succ hroom), replaced, .inl listed⟩
  · rw [translate_congr hmem]
    exact translate_store htable (h.table_ne hd hva htable hd)
  · rw [translate_congr hmem]
    exact h.translate_setPte hd hva htable hd' hne _

/-- Some other page is replaced. -/
theorem Tidy.insertReplace (h : p.Tidy D) (hd : d ∈ D) (hva : va < utop)
    (hroom : (p.ref pp).toNat ≤ 65534) (htable : p.word d (pdx va) &&& pteP ≠ 0) (hf : p.Maps d va f) (hne : f ≠ pp) :
    Inserted D d pp va perm p ((((p.drop f).setWord (pgnum (p.word d (pdx va))) (ptx va) 0).setWord
      (pgnum (p.word d (pdx va))) (ptx va) (mkPte pp perm)).setRef pp (p.ref pp + 1)) := by
  obtain ⟨pde, pte, hwalk, hnum⟩ := hf
  obtain ⟨-, hpos, -⟩ := h.count d hd va pde pte hva hwalk
  rw [hnum] at hpos
  obtain ⟨l, hl, -⟩ := h.free
  have hfl : f ∉ l := fun hmem =>
    h.free_mapped f (hl.linked_iff.mpr hmem) d hd va pde pte hva hwalk hnum
  have hunique : ∀ g, p.Maps d va g → g = f := by
    rintro g ⟨pde', pte', hwalk', rfl⟩
    rw [hwalk] at hwalk'
    obtain ⟨-, rfl⟩ := Prod.mk.inj (Option.some.inj hwalk')
    exact hnum
  refine h.inserted hd hva hroom htable ?_ (fun hpp => absurd (hunique pp hpp).symm hne)
    (fun _ => setRef_ref_self _ _) (fun g hg _ => ?_) fun g hg => ?_
  · simp only [Phys.setRef, Phys.setWord, Phys.setPage, Inv.drop_mem, Function.update_self,
      Function.update_idem, writeWord_writeWord]
  · obtain rfl := hunique g hg
    refine ⟨?_, ?_⟩
    · rw [setRef_ref_of_ne _ _ hne]
      change ((p.drop g).ref g).toNat + 1 = _
      have hone : (1 : BitVec 16).toNat = 1 := rfl
      rw [drop_ref_self, BitVec.toNat_sub_of_le (by rw [BitVec.le_def, hone]; exact hpos), hone]
      omega
    · rw [Listed, setRef_link]
      change (p.drop g).Listed g ↔ _
      by_cases href : p.ref g = 1
      · rw [drop_listed_iff hl hfl href]
        simp [href]
      · rw [Listed, (drop_shared href).1, (drop_shared href).2, hl.linked_iff]
        exact iff_of_false hfl href
  · rw [Listed, setRef_link]
    change (p.drop f).Listed g
    by_cases href : p.ref f = 1
    · rw [drop_listed_iff hl hfl href]
      exact .inr (hl.linked_iff.mp hg)
    · rw [Listed, (drop_shared href).1, (drop_shared href).2]
      exact hg

end Table

end Phys

section Insert

variable {D : Set Nat} {p : Phys} {d pp : Nat} {va perm : Word}

/-- `page_insert` with an existing page table. -/
theorem pageInsert_table (h : p.Tidy D) (hd : d ∈ D) (hva : va < utop)
    (htable : p.word d (pdx va) &&& pteP ≠ 0) (hpp : pp < p.npages)
    (hroom : (p.ref pp).toNat ≤ 65534) :
    ∃ q, pageInsert d pp va perm p = .ret 0 q ∧ Phys.Inserted D d pp va perm p q := by
  have hi := (pdx_lt_iff va).mpr hva
  have hlt := h.table_lt d hd _ hi htable
  have hn := h.npages_le
  have hwalk := pgdirWalk_found htable hlt true
  by_cases hpte : p.word (pgnum (p.word d (pdx va))) (ptx va) &&& pteP = 0
  · have hnone : ∀ f, ¬ p.Maps d va f := fun f hf => ((Phys.maps_of_table htable).mp hf).1 hpte
    refine ⟨_, pageInsert_empty hwalk hpte, h.inserted hd hva hroom htable rfl
      (fun hm => absurd hm (hnone pp)) (fun _ => ?_) (fun f hf => absurd hf (hnone f)) fun g hg => ?_⟩
    · exact Phys.setRef_ref_self _ _
    · rw [Phys.Listed, Phys.setRef_link]
      exact hg
  · have hmaps := (Phys.maps_of_table htable).mpr ⟨hpte, rfl⟩
    by_cases hsame : pteAddr (p.word (pgnum (p.word d (pdx va))) (ptx va)) = page2pa pp
    · have hnum : pgnum (p.word (pgnum (p.word d (pdx va))) (ptx va)) = pp := by
        rw [← pgnum_pteAddr, hsame]
        exact pgnum_pageAddr (by omega)
      rw [hnum] at hmaps
      refine ⟨_, pageInsert_same hwalk hpte hsame, h.inserted hd hva hroom htable rfl
        (fun _ => ⟨rfl, rfl⟩) (fun hm => absurd hmaps hm) (fun f hf hne => absurd ?_ hne)
        fun g hg => hg⟩
      rw [← ((Phys.maps_of_table htable).mp hf).2, hnum]
    · have hne : pgnum (p.word (pgnum (p.word d (pdx va))) (ptx va)) ≠ pp := by
        rintro rfl
        exact hsame (pteAddr_eq _)
      obtain ⟨pde, pte, hmap, hnum⟩ := hmaps
      obtain ⟨hpage, -, -⟩ := h.count d hd va pde pte hva hmap
      rw [hnum] at hpage
      have hlink : p.link (pgnum (p.word (pgnum (p.word d (pdx va))) (ptx va))) = none :=
        h.unlinked _ fun hlisted => h.free_mapped _ hlisted d hd va pde pte hva hmap hnum
      have hremove := pageRemove_some (pageLookup_some htable hlt hpage) hlink
      refine ⟨_, pageInsert_replace hwalk hpte hsame hremove, ?_⟩
      have href : ((p.drop (pgnum (p.word (pgnum (p.word d (pdx va))) (ptx va)))).setWord
          (pgnum (p.word d (pdx va))) (ptx va) 0).ref pp = p.ref pp := Phys.drop_ref_of_ne p hne.symm
      rw [href]
      exact h.insertReplace hd hva hroom htable ⟨pde, pte, hmap, hnum⟩ hne

/-- The words of memory after a new page table is hung in. -/
theorem word_growTable (f : Nat) (i : Idx) (g : Nat) (j : Idx) :
    (p.growTable d f i).word g j =
      if g = d ∧ j = i then page2pa f ||| pteP ||| pteW ||| pteU
      else if g = f then 0 else p.word g j := by
  rw [Phys.growTable, Phys.word_setWord]
  by_cases hg : g = f
  · subst hg
    have hzero : (p.alloc g true).mem g = fun _ => 0 := by simp [Phys.alloc, Phys.setPage]
    rw [if_pos rfl, Phys.word]
    change (if g = d ∧ j = i then _ else readWord ((p.alloc g true).mem g) j) = _
    rw [hzero, readWord_zero]
  · have hmem : (p.alloc f true).mem g = p.mem g := by
      rw [Phys.alloc, if_pos rfl]
      exact (p.take f).mem_setPage_of_ne _ hg
    rw [if_neg hg]
    congr 1
    exact p.word_congr hmem

/-- A new page table `f` in which only the page `pp` is mapped. -/
theorem Phys.Tidy.insertGrow (h : p.Tidy D) (hd : d ∈ D) {f : Nat} {r : List Nat}
    (htable : p.word d (pdx va) &&& pteP = 0) (hl : IsList p.link p.pageFreeList (f :: r))
    (hflt : f < p.npages) (hppf : pp ≠ f) (hroom : (p.ref pp).toNat ≤ 65534) :
    Phys.Inserted D d pp va perm p
      (((p.growTable d f (pdx va)).setWord f (ptx va) (mkPte pp perm)).setRef pp (p.ref pp + 1)) := by
  have hf : p.Listed f := hl.linked_iff.mpr (by simp)
  obtain ⟨hfD, hftable⟩ := h.free_table f hf
  have hne : ∀ {d'}, d' ∈ D → d' ≠ f := by
    rintro d' hd' rfl
    exact hfD hd'
  have hentry : entryFrame (page2pa f ||| pteP ||| pteW ||| pteU) = some f :=
    Phys.Inv.entryFrame_table (by have := h.npages_le; omega)
  obtain ⟨hpresent, hnum⟩ : (page2pa f ||| pteP ||| pteW ||| pteU) &&& pteP ≠ 0 ∧
      pgnum (page2pa f ||| pteP ||| pteW ||| pteU) = f := by
    rw [entryFrame] at hentry
    split at hentry
    · rename_i hp
      exact ⟨hp, Option.some.inj hentry⟩
    · simp at hentry
  generalize hq : ((p.growTable d f (pdx va)).setWord f (ptx va) (mkPte pp perm)).setRef pp
    (p.ref pp + 1) = q
  have hword : ∀ g j, q.word g j = if g = f ∧ j = ptx va then mkPte pp perm
      else if g = d ∧ j = pdx va then page2pa f ||| pteP ||| pteW ||| pteU
      else if g = f then 0 else p.word g j := by
    intro g j
    rw [← word_growTable, ← Phys.word_setWord, ← hq]
    rfl
  have hlisted : ∀ g, q.Listed g ↔ g ∈ r := by
    intro g
    rw [← Phys.take_listed_iff hl, ← hq, Phys.Listed, Phys.setRef_link]
    change Linked ((p.alloc f true).setRef f _).link _ g ↔ _
    rw [Phys.setRef_link]
    rfl
  have hnone : ∀ g, ¬ p.Maps d va g := by
    rintro g ⟨pde, pte, hwalk, -⟩
    rw [Phys.translate_of_no_table htable] at hwalk
    simp at hwalk
  have hpde : q.word d (pdx va) = page2pa f ||| pteP ||| pteW ||| pteU := by
    rw [hword, if_neg fun hd' => hne hd hd'.1, if_pos ⟨rfl, rfl⟩]
  have hfresh : f ∉ r := (List.nodup_cons.mp hl.nodup).1
  refine ⟨⟨q.word d (pdx va), ?_⟩, fun d' hd' va' hother hwindow => ?_, fun hm => absurd hm (hnone pp), fun _ => ?_,
    fun g hg => absurd hg (hnone g), .inr ⟨f, htable, hf, ?_, fun g hg hgl => ?_, ?_, fun j hj => ?_⟩⟩
  · have hpte : q.word (pgnum (q.word d (pdx va))) (ptx va) = mkPte pp perm := by
      rw [hpde, hnum, hword, if_pos ⟨rfl, rfl⟩]
    rw [Phys.translate_of_present (by rw [hpde]; exact hpresent)
      (by rw [hpte]; exact mkPte_present pp perm), hpte]
  · by_cases hslot : d' = d ∧ pdx va' = pdx va
    · -- the other pages of the new table: nothing was mapped, and nothing is
      obtain ⟨rfl, hpdx⟩ := hslot
      have hnone' : p.translate d' va' = none :=
        Phys.translate_of_no_table (by rw [hpdx, htable])
      rw [hnone', Phys.translate_of_hole]
      rw [hpdx, hpde, hnum, hword, if_neg fun hj => hother ⟨rfl, hpdx, hj.2⟩,
        if_neg fun hd' => hne hd hd'.1.symm, if_pos rfl]
      decide
    · have hpde' : q.word d' (pdx va') = p.word d' (pdx va') := by
        rw [hword, if_neg fun hj => hne hd' hj.1, if_neg hslot, if_neg (hne hd')]
      by_cases hp : p.word d' (pdx va') &&& pteP = 0
      · rw [Phys.translate_of_no_table hp, Phys.translate_of_no_table (by rw [hpde', hp])]
      · have htf := hftable d' hd' _ hp
        have hpte' : q.word (pgnum (p.word d' (pdx va'))) (ptx va') =
            p.word (pgnum (p.word d' (pdx va'))) (ptx va') := by
          rw [hword, if_neg fun hj => htf hj.1, if_neg fun hj => hwindow ⟨htable, hj⟩, if_neg htf]
        simp only [Phys.translate, hpde', hpte']
  · rw [← hq, Phys.setRef_ref_self, Phys.toNat_succ hroom]
  · rw [hlisted]
    exact hfresh
  · rw [hlisted]
    exact (List.mem_cons.mp (hl.linked_iff.mp hgl)).resolve_left hg
  · rw [hpde, hentry]
  · rw [hword, if_neg fun h => hj h.2, if_neg fun h => hne hd h.1.symm, if_pos rfl]

/-- `page_insert` with a new page table. -/
theorem pageInsert_grow (h : p.Tidy D) (hd : d ∈ D) {f : Nat}
    (htable : p.word d (pdx va) &&& pteP = 0) (head : p.pageFreeList = some f)
    (hpp : ¬ p.Listed pp) (hroom : (p.ref pp).toNat ≤ 65534) :
    ∃ q, pageInsert d pp va perm p = .ret 0 q ∧ Phys.Inserted D d pp va perm p q := by
  obtain ⟨l, hl, hlt⟩ := h.free
  obtain ⟨r, rfl⟩ : ∃ r, l = f :: r := by
    rw [head] at hl
    cases hl with
    | cons rest => exact ⟨_, rfl⟩
  have hf : p.Listed f := hl.linked_iff.mpr (by simp)
  have hppf : pp ≠ f := by
    rintro rfl
    exact hpp hf
  have hfd : f ≠ d := by
    rintro rfl
    exact (h.free_table f hf).1 hd
  have hwalk := pgdirWalk_create htable head (hlt f (by simp)) h.npages_le
  have hzero : (p.growTable d f (pdx va)).word f (ptx va) = 0 := by
    rw [word_growTable, if_neg fun h => hfd h.1, if_pos rfl]
  have href : (p.growTable d f (pdx va)).ref pp = p.ref pp := by
    change ((p.alloc f true).setRef f _).ref pp = p.ref pp
    rw [Phys.setRef_ref_of_ne _ _ hppf]
    exact congrFun (Phys.setLink_ref _ _) pp
  refine ⟨_, pageInsert_empty hwalk (by rw [hzero]; decide), ?_⟩
  rw [href]
  exact h.insertGrow hd htable hl (hlt f (by simp)) hppf hroom

/-- `page_insert` of a page that is in use, with room for another reference, fails and changes
nothing, or maps the page. -/
theorem pageInsert_end_to_end (h : p.Tidy D) (hd : d ∈ D) (hva : va < utop)
    (hperm : perm.toNat < 4096) (hpp : pp < p.npages) (hused : ¬ p.Listed pp)
    (hroom : (p.ref pp).toNat ≤ 65534) :
    pageInsert d pp va perm p = .ret (-eNoMem) p ∨
      ∃ q, pageInsert d pp va perm p = .ret 0 q ∧ Phys.Inserted D d pp va perm p q ∧
        pgnum (mkPte pp perm) = pp := by
  have hnum : pgnum (mkPte pp perm) = pp := pgnum_mkPte (by have := h.npages_le; omega) hperm
  by_cases htable : p.word d (pdx va) &&& pteP = 0
  · cases head : p.pageFreeList with
    | none => exact .inl (pageInsert_noMem (pgdirWalk_noMem htable head))
    | some f =>
        obtain ⟨q, hrun, hins⟩ := pageInsert_grow h hd htable head hused hroom
        exact .inr ⟨q, hrun, hins, hnum⟩
  · obtain ⟨q, hrun, hins⟩ := pageInsert_table h hd hva htable hpp hroom
    exact .inr ⟨q, hrun, hins, hnum⟩

/-- A directory in the page 1 with nothing but its self-map; the page 2 is free. -/
def Phys.lone : Phys :=
  { (Phys.blank 8).setWord 1 (pdx uvpt) (page2pa 1 ||| pteP ||| pteU) with
    pageFreeList := some 2 }

theorem Phys.lone_word (g : Nat) (j : Idx) : Phys.lone.word g j =
    if g = 1 ∧ j = pdx uvpt then page2pa 1 ||| pteP ||| pteU else 0 := by
  change ((Phys.blank 8).setWord 1 (pdx uvpt) (page2pa 1 ||| pteP ||| pteU)).word g j = _
  rw [Phys.word_setWord]
  congr 1
  exact readWord_zero j

theorem Phys.lone_listed (f : Nat) : Phys.lone.Listed f ↔ f = 2 := by
  have hlist : IsList Phys.lone.link Phys.lone.pageFreeList [2] := .cons .nil
  rw [Phys.Listed, hlist.linked_iff, List.mem_singleton]

theorem Phys.lone_tidy : Phys.lone.Tidy {1} := by
  have huser : ∀ (d : Nat) (i : Idx), i.val < userPdes → Phys.lone.word d i &&& pteP = 0 := by
    intro d i hi
    rw [Phys.lone_word, if_neg]
    · decide
    · rintro ⟨-, rfl⟩
      exact absurd hi (by decide)
  have hnone : ∀ d va, va < utop → Phys.lone.translate d va = none := fun d va hva =>
    Phys.translate_of_no_table (huser d _ ((pdx_lt_iff va).mpr hva))
  refine ⟨by decide, ⟨[2], .cons .nil, by decide⟩, fun _ _ => rfl,
    fun d _ i hi hp => absurd (huser d i hi) hp, fun d _ i hi hp => absurd (huser d i hi) hp,
    fun d _ _ _ i _ hi hp => absurd (huser d i hi) hp, fun f hf => ⟨?_, fun d _ i hp => ?_⟩,
    fun f _ d _ va pde pte hva hwalk => ?_, fun d _ va pde pte hva hwalk => ?_⟩
  · rw [Phys.lone_listed] at hf
    simp [hf]
  · rw [Phys.lone_listed] at hf
    rw [Phys.lone_word] at hp ⊢
    split at hp
    · rw [hf, if_pos ‹_›]
      decide
    · exact absurd (by decide) hp
  · simp [hnone d va hva] at hwalk
  · simp [hnone d va hva] at hwalk

theorem Phys.lone_noTable : Phys.lone.word 1 (pdx 0) &&& pteP = 0 := by
  rw [Phys.lone_word, if_neg (by decide)]
  decide

/-- The page 3 is mapped at 0 with a new page table. -/
theorem pageInsert_end_to_end_lone : Phys.lone.Tidy {1} ∧ ¬ Phys.lone.Listed 3 ∧
    ∃ q, pageInsert 1 3 0 pteU Phys.lone = .ret 0 q ∧ Phys.Inserted {1} 1 3 0 pteU Phys.lone q := by
  have hused : ¬ Phys.lone.Listed 3 := by simp [Phys.lone_listed]
  have hmem : (1 : Nat) ∈ ({1} : Set Nat) := rfl
  refine ⟨Phys.lone_tidy, hused, ?_⟩
  rcases pageInsert_end_to_end Phys.lone_tidy hmem (by decide : (0 : Word) < utop)
    (by decide : pteU.toNat < 4096) (by decide) hused
    (by decide) with hfail | ⟨q, hrun, hins, -⟩
  · obtain ⟨q, hrun, -⟩ : ∃ q, pageInsert 1 3 0 pteU Phys.lone = .ret 0 q ∧ _ :=
      pageInsert_grow Phys.lone_tidy hmem Phys.lone_noTable rfl hused (by decide)
    rw [hfail] at hrun
    exact absurd (Outcome.ret.inj hrun).1 (by decide)
  · exact ⟨q, hrun, hins⟩

/-- The count of a page that is mapped nowhere does not matter. -/
theorem Phys.Tidy.setRef {f : Nat} (h : p.Tidy D)
    (hf : ∀ d ∈ D, ∀ va, va < utop → ¬ p.Maps d va f) (count : BitVec 16) :
    (p.setRef f count).Tidy D := by
  have hlisted : ∀ g, (p.setRef f count).Listed g ↔ p.Listed g := by
    intro g
    rw [Phys.Listed, Phys.setRef_link]
    rfl
  obtain ⟨l, hl, hlt⟩ := h.free
  refine ⟨h.npages_le, ⟨l, ?_, hlt⟩, fun g hg => ?_, h.table_lt, h.table_dir, h.table_inj,
    fun g hg => h.free_table g ((hlisted g).mp hg), fun g hg => h.free_mapped g ((hlisted g).mp hg),
    fun d hd va pde pte hva hwalk => ?_⟩
  · rw [Phys.setRef_link]
    exact hl
  · rw [Phys.setRef_link]
    exact h.unlinked g (mt (hlisted g).mpr hg)
  · have hne : pgnum pte ≠ f := fun hnum => hf d hd va hva ⟨pde, pte, hwalk, hnum⟩
    rw [Phys.setRef_ref_of_ne _ _ hne]
    exact h.count d hd va pde pte hva hwalk

/-- The next reference of a page that has 65535 already wraps its count. -/
theorem pageInsert_wraps : ∃ p q : Phys, p.Tidy {1} ∧ ¬ p.Listed 3 ∧
    pageInsert 1 3 0 pteU p = .ret 0 q ∧ (p.ref 3).toNat = 65535 ∧ (q.ref 3).toNat = 0 := by
  have hnone : ∀ d ∈ ({1} : Set Nat), ∀ va, va < utop → ¬ Phys.lone.Maps d va 3 := by
    rintro d - va hva ⟨pde, pte, hwalk, -⟩
    have hpde : Phys.lone.word d (pdx va) &&& pteP = 0 := by
      rw [Phys.lone_word, if_neg]
      · decide
      · rintro ⟨-, huvpt⟩
        have hlt := (pdx_lt_iff va).mpr hva
        rw [huvpt] at hlt
        exact absurd hlt (by decide)
    rw [Phys.translate_of_no_table hpde] at hwalk
    cases hwalk
  have htidy := Phys.lone_tidy.setRef hnone 65535
  have hused : ¬ (Phys.lone.setRef 3 65535).Listed 3 := by
    rw [Phys.Listed, Phys.setRef_link]
    change ¬ Phys.lone.Listed 3
    simp [Phys.lone_listed]
  have hwalk := pgdirWalk_create (p := Phys.lone.setRef 3 65535) (f := 2) Phys.lone_noTable rfl
    (by decide) htidy.npages_le
  have hzero : ((Phys.lone.setRef 3 65535).growTable 1 2 (pdx 0)).word 2 (ptx 0) = 0 := by
    rw [word_growTable, if_neg (by decide), if_pos rfl]
  refine ⟨_, _, htidy, hused, pageInsert_empty hwalk (by rw [hzero]; decide), ?_, ?_⟩
  · rw [Phys.setRef_ref_self]
    rfl
  · rw [Phys.setRef_ref_self]
    decide

/-- The new page table appears at `UVPT`, where nothing was mapped before. -/
theorem lone_shows_table : ∃ q, Phys.lone.Tidy {1} ∧ ¬ Phys.lone.Listed 3 ∧
    pageInsert 1 3 0 pteU Phys.lone = .ret 0 q ∧ ¬ Phys.SamePage 0 uvpt ∧
    q.translate 1 uvpt ≠ Phys.lone.translate 1 uvpt := by
  have hwalk := pgdirWalk_create Phys.lone_noTable rfl (show 2 < Phys.lone.npages by decide)
    Phys.lone_tidy.npages_le
  have hzero : (Phys.lone.growTable 1 2 (pdx 0)).word 2 (ptx 0) = 0 := by
    rw [word_growTable, if_neg (by decide), if_pos rfl]
  have hrun : pageInsert 1 3 0 pteU Phys.lone = .ret 0 _ :=
    pageInsert_empty hwalk (by rw [hzero]; decide)
  generalize hq : ((Phys.lone.growTable 1 2 (pdx 0)).setWord 2 (ptx 0) (mkPte 3 pteU)).setRef 3
    ((Phys.lone.growTable 1 2 (pdx 0)).ref 3 + 1) = q at hrun
  -- the words of the directory after the insertion
  have hword : ∀ j, q.word 1 j = if j = pdx 0 then page2pa 2 ||| pteP ||| pteW ||| pteU
      else Phys.lone.word 1 j := by
    intro j
    rw [← hq]
    change ((Phys.lone.growTable 1 2 (pdx 0)).setWord 2 (ptx 0) (mkPte 3 pteU)).word 1 j = _
    rw [Phys.word_setWord, if_neg (by simp), word_growTable]
    simp
  have hself : q.word 1 (pdx uvpt) = page2pa 1 ||| pteP ||| pteU := by
    rw [hword, if_neg (by decide), Phys.lone_word, if_pos ⟨rfl, rfl⟩]
  have htable : q.word 1 (ptx uvpt) = page2pa 2 ||| pteP ||| pteW ||| pteU := by
    rw [hword, if_pos (by decide)]
  have hnum : pgnum (page2pa 1 ||| pteP ||| pteU) = 1 := by decide
  refine ⟨q, Phys.lone_tidy, by simp [Phys.lone_listed], hrun, by decide, ?_⟩
  have hbefore : Phys.lone.translate 1 uvpt = none := by
    refine Phys.translate_of_hole ?_
    rw [Phys.lone_word 1 (pdx uvpt), if_pos ⟨rfl, rfl⟩, hnum, Phys.lone_word, if_neg (by decide)]
    decide
  rw [hbefore, Phys.translate_of_present]
  · simp
  · rw [hself]
    decide
  · rw [hself, hnum, htable]
    decide

/-- `page_insert` may change what is mapped at `UVPT`, and a count that is full. -/
theorem pageInsert_shows_table : (∃ p q : Phys, p.Tidy {1} ∧ ¬ p.Listed 3 ∧
      pageInsert 1 3 0 pteU p = .ret 0 q ∧ ¬ Phys.SamePage 0 uvpt ∧
      q.translate 1 uvpt ≠ p.translate 1 uvpt) ∧
    ∃ p q : Phys, p.Tidy {1} ∧ ¬ p.Listed 3 ∧ pageInsert 1 3 0 pteU p = .ret 0 q ∧
      (q.ref 3).toNat ≠ (p.ref 3).toNat + 1 := by
  obtain ⟨q, htidy, hused, hrun, hpage, hshows⟩ := lone_shows_table
  obtain ⟨p', q', htidy', hused', hrun', hfull, hwrapped⟩ := pageInsert_wraps
  exact ⟨⟨Phys.lone, q, htidy, hused, hrun, hpage, hshows⟩, p', q', htidy', hused', hrun', by omega⟩

end Insert

end Jos
