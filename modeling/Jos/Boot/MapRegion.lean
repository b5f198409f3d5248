import Jos.Boot.Mmio

/-!
# Static mappings (`boot_map_region`)

What a call changes besides the pages of its region: the new page tables are counted, and they show
up where the directory maps itself. `Maps` says it for consecutive pages; it holds of one page and
composes.
-/

namespace Jos

open Prog

/-- The entry `i` of the directory `d` maps the directory itself. -/
def Phys.IsSelf (p : Phys) (d : Nat) (i : Idx) : Prop :=
  p.word d i &&& pteP ≠ 0 ∧ pgnum (p.word d i) = d

/-- The page directory `d` and the free list `l`. The page tables are pages of their own, except
where the directory maps itself. -/
structure Tables (d : Nat) (l : List Nat) (p : Phys) : Prop where
  npages_le : p.npages ≤ 65536
  free : IsList p.link p.pageFreeList l
  listed : ∀ f ∈ l, f < p.npages ∧ f ≠ d
  table : ∀ i, p.word d i &&& pteP ≠ 0 → pgnum (p.word d i) < p.npages ∧ pgnum (p.word d i) ∉ l
  distinct : ∀ i j, p.word d i &&& pteP ≠ 0 → p.word d j &&& pteP ≠ 0 →
    pgnum (p.word d i) ≠ d → pgnum (p.word d i) = pgnum (p.word d j) → i = j

/-- The page with entry `j` in the page table `i` is one of `k` pages from `first` on. -/
def Within (first k : Nat) (i j : Idx) : Prop :=
  first ≤ pageNumber i j ∧ pageNumber i j < first + k

instance (first k : Nat) (i j : Idx) : Decidable (Within first k i j) := instDecidableAnd

/-- From `p` to `q`, `k` pages from number `first` on have been mapped to consecutive frames, and
the page tables that were missing have been taken off the free list. -/
structure Maps (d first k : Nat) (pa perm : Word) (l : List Nat) (p : Phys) (l' : List Nat)
    (q : Phys) : Prop where
  tables : Tables d l' q
  suffix : l' <:+ l
  entry : ∀ i j, ¬p.IsSelf d i → q.entryOf d i j =
    if Within first k i j then
      (pa + BitVec.ofNat 32 (4096 * (pageNumber i j - first))) ||| perm ||| pteP
    else p.entryOf d i j
  pde : ∀ i, p.word d i &&& pteP ≠ 0 → q.word d i = p.word d i
  created : ∀ i j, p.word d i &&& pteP = 0 → Within first k i j →
    ∃ f ∈ l, f ∉ l' ∧ q.word d i = page2pa f ||| pteP ||| pteW ||| pteU
  absent : ∀ i, p.word d i &&& pteP = 0 → (∀ j, ¬Within first k i j) → q.word d i = p.word d i
  taken : ∀ f ∈ l, f ∉ l' →
    ∃ i, p.word d i &&& pteP = 0 ∧ q.word d i &&& pteP ≠ 0 ∧ pgnum (q.word d i) = f
  ref : ∀ g, (g ∈ l → g ∈ l') → q.ref g = p.ref g
  counted : ∀ g ∈ l, g ∉ l' → q.ref g = p.ref g + 1

/-- The entries of the region's pages in `d` that have no page table. -/
def missing (p : Phys) (d first k : Nat) : Finset Idx :=
  Finset.univ.filter fun i => p.word d i &&& pteP = 0 ∧ ∃ j, Within first k i j

section Tables

variable {d f : Nat} {l l' l'' : List Nat} {p q r : Phys} {i j : Idx} {va pa perm w : Word}
  {first k m : Nat}

/-- The kernel's directory, which maps itself at `UVPT`. -/
theorem KernDir.tables (h : KernDir d l p) : Tables d l p := by
  have hnpages := h.npages_le
  have hdir := h.dir_lt
  have hself : pgnum (p.word d (pdx uvpt)) = d := by
    rw [h.self]
    exact pgnum_mkPte (by omega) (by decide)
  refine ⟨hnpages, h.free, h.listed, fun i hi => ?_, fun i j hi hj hne heq => ?_⟩
  · by_cases hiu : i = pdx uvpt
    · rw [hiu, hself]
      exact ⟨hdir, fun hmem => (h.listed d hmem).2 rfl⟩
    · obtain ⟨hlt, -, hnot⟩ := h.table i hiu hi
      exact ⟨hlt, hnot⟩
  · by_cases hiu : i = pdx uvpt
    · rw [hiu] at hne
      exact absurd hself hne
    · by_cases hju : j = pdx uvpt
      · rw [hju, hself] at heq
        exact absurd heq hne
      · exact h.distinct i j hiu hju hi hj heq

namespace Tables

/-- The first free page becomes a page table. -/
theorem grow (h : Tables d (f :: l) p) (i : Idx) : Tables d l (p.growTable d f i) := by
  obtain ⟨hflt, hfd⟩ := h.listed f (by simp)
  have hnpages := h.npages_le
  have hnodup := List.nodup_cons.mp h.free.nodup
  obtain ⟨hpresent, hnum⟩ := tablePde_spec (f := f) (by omega)
  have hself := p.growTable_word_self d f i
  have hword : ∀ j, j ≠ i → (p.growTable d f i).word d j = p.word d j := fun j hj =>
    p.growTable_word hfd.symm hj
  have hnew : ∀ j, j ≠ i → p.word d j &&& pteP ≠ 0 → pgnum (p.word d j) ≠ f :=
    fun j hj hpj heq => (h.table j hpj).2 (heq ▸ List.mem_cons_self)
  refine ⟨hnpages, ?_, fun g hg => h.listed g (List.mem_cons_of_mem f hg), fun j hpj => ?_,
    fun j j' hpj hpj' hne heq => ?_⟩
  · have hpop := h.free
    rw [h.free.head_eq] at hpop
    rw [p.growTable_link]
    change IsList _ (p.link f) l
    exact hpop.pop none
  · by_cases hji : j = i
    · rw [hji, hself, hnum]
      exact ⟨hflt, hnodup.1⟩
    · rw [hword j hji] at hpj ⊢
      obtain ⟨hlt, hnot⟩ := h.table j hpj
      exact ⟨hlt, fun hmem => hnot (List.mem_cons_of_mem f hmem)⟩
  · by_cases hji : j = i
    · by_cases hji' : j' = i
      · rw [hji, hji']
      · rw [hword j' hji'] at hpj' heq
        rw [hji, hself, hnum] at heq
        exact absurd heq.symm (hnew j' hji' hpj')
    · rw [hword j hji] at hpj hne heq
      by_cases hji' : j' = i
      · rw [hji', hself, hnum] at heq
        exact absurd heq (hnew j hji hpj)
      · rw [hword j' hji'] at hpj' heq
        exact h.distinct j j' hpj hpj' hne heq

/-- The entries of a page table are free to change. -/
theorem setWord (h : Tables d l p) {t : Nat} (ht : t ≠ d) (j : Idx) (w : Word) :
    Tables d l (p.setWord t j w) := by
  have hword : ∀ i, (p.setWord t j w).word d i = p.word d i := fun i =>
    p.word_congr (p.mem_setWord_of_ne w ht.symm)
  refine ⟨h.npages_le, h.free, h.listed, fun i => ?_, fun i j => ?_⟩
  · rw [hword]
    exact h.table i
  · rw [hword, hword]
    exact h.distinct i j

end Tables

/-- One page is one entry. -/
theorem within_one : Within (va.toNat / 4096) 1 i j ↔ i = pdx va ∧ j = ptx va := by
  rw [pageNumber_eq_iff, Within]
  omega

theorem growTable_ref (p : Phys) (d : Nat) (i : Idx) {g : Nat} (hg : g ≠ f) :
    (p.growTable d f i).ref g = p.ref g :=
  congrArg PageInfo.ref (p.growTable_pages d f i hg)

theorem growTable_ref_self (p : Phys) (d f : Nat) (i : Idx) :
    (p.growTable d f i).ref f = p.ref f + 1 := by
  simp [Phys.growTable, Phys.alloc, Phys.take, Phys.setWord, Phys.setPage, Phys.setRef,
    Phys.setLink, Phys.ref]

/-- The entries of one page after a store. -/
theorem entryOf_setWord (hne : pgnum (p.word d (pdx va)) ≠ d)
    (hp : p.word d (pdx va) &&& pteP ≠ 0) (hi : i ≠ pdx va → p.word d i &&& pteP ≠ 0 →
      pgnum (p.word d i) ≠ pgnum (p.word d (pdx va))) (w : Word) :
    (p.setWord (pgnum (p.word d (pdx va))) (ptx va) w).entryOf d i j =
      if i = pdx va ∧ j = ptx va then w else p.entryOf d i j := by
  have hword : ∀ i, (p.setWord (pgnum (p.word d (pdx va))) (ptx va) w).word d i = p.word d i :=
    fun i => p.word_congr (p.mem_setWord_of_ne w hne.symm)
  rw [Phys.entryOf, Phys.entryOf, hword]
  by_cases hiv : i = pdx va
  · rw [hiv, if_neg hp]
    by_cases hj : j = ptx va
    · rw [hj, Phys.word_setWord_self, if_pos ⟨rfl, rfl⟩]
    · rw [Phys.word_setWord_of_ne _ _ hj, if_neg (fun hboth => hj hboth.2), if_neg hp]
  · have hnot : ¬(i = pdx va ∧ j = ptx va) := fun hboth => hiv hboth.1
    rw [if_neg hnot]
    by_cases hpi : p.word d i &&& pteP = 0
    · rw [if_pos hpi, if_pos hpi]
    · rw [if_neg hpi, if_neg hpi]
      exact p.word_congr (p.mem_setWord_of_ne w (hi hiv hpi))

namespace Maps

theorem zero (h : Tables d l p) : Maps d first 0 pa perm l p l p := by
  have hnone : ∀ i j, ¬Within first 0 i j := by
    rintro i j ⟨h₁, h₂⟩
    omega
  refine ⟨h, List.suffix_rfl, fun i j _ => by rw [if_neg (hnone i j)], fun _ _ => rfl,
    fun i j _ hin => absurd hin (hnone i j), fun _ _ _ => rfl, fun f hf hnot => absurd hf hnot,
    fun _ _ => rfl, fun g hg hnot => absurd hg hnot⟩

/-- A page whose page table exists. -/
theorem found (h : Tables d l p) (hself : ¬p.IsSelf d (pdx va))
    (hp : p.word d (pdx va) &&& pteP ≠ 0) (pa perm : Word) :
    Maps d (va.toNat / 4096) 1 pa perm l p l
      (p.setWord (pgnum (p.word d (pdx va))) (ptx va) (pa ||| perm ||| pteP)) := by
  have hne : pgnum (p.word d (pdx va)) ≠ d := fun heq => hself ⟨hp, heq⟩
  have hword : ∀ i, (p.setWord (pgnum (p.word d (pdx va))) (ptx va)
      (pa ||| perm ||| pteP)).word d i = p.word d i := fun i =>
    p.word_congr (p.mem_setWord_of_ne _ hne.symm)
  refine ⟨h.setWord hne _ _, List.suffix_rfl, fun i j hi => ?_, fun i _ => hword i,
    fun i j hpi hin => ?_, fun i _ _ => hword i, fun f hf hnot => absurd hf hnot, fun _ _ => rfl,
    fun g hg hnot => absurd hg hnot⟩
  · rw [entryOf_setWord hne hp]
    · simp only [within_one]
      split
      · rename_i hiv
        rw [pageNumber_eq_iff.mp hiv, Nat.sub_self, Nat.mul_zero, BitVec.add_zero]
      · rfl
    · intro hiv hpi heq
      exact hiv (h.distinct i _ hpi hp (fun hd => hi ⟨hpi, hd⟩) heq)
  · rw [(within_one.mp hin).1] at hpi
    exact absurd hpi hp

/-- A page whose page table is new. -/
theorem grown (h : Tables d (f :: l) p) (hp : p.word d (pdx va) &&& pteP = 0) (pa perm : Word) :
    Maps d (va.toNat / 4096) 1 pa perm (f :: l) p l
      ((p.growTable d f (pdx va)).setWord f (ptx va) (pa ||| perm ||| pteP)) := by
  obtain ⟨hflt, hfd⟩ := h.listed f (by simp)
  have hnpages := h.npages_le
  have hnodup := List.nodup_cons.mp h.free.nodup
  obtain ⟨hpresent, hnum⟩ := tablePde_spec (f := f) (by omega)
  have hself := p.growTable_word_self d f (pdx va)
  have hgrow : Tables d l (p.growTable d f (pdx va)) := h.grow (pdx va)
  have hother : ∀ i, i ≠ pdx va → (p.growTable d f (pdx va)).word d i = p.word d i := fun i hi =>
    p.growTable_word hfd.symm hi
  have hword : ∀ i,
      ((p.growTable d f (pdx va)).setWord f (ptx va) (pa ||| perm ||| pteP)).word d i =
        (p.growTable d f (pdx va)).word d i := fun i =>
    Phys.word_congr _ (Phys.mem_setWord_of_ne _ _ hfd.symm)
  refine ⟨hgrow.setWord hfd _ _, List.suffix_cons f l, fun i j hi => ?_, fun i hpi => ?_,
    fun i j hpi hin => ?_, fun i hpi hout => ?_, fun g hg hnot => ?_, fun g hg => ?_,
    fun g hg hnot => ?_⟩
  · have hset := @entryOf_setWord d (p.growTable d f (pdx va)) i j va
      (by rw [hself, hnum]; exact hfd) (by rw [hself]; exact hpresent) (fun hiv hpi => by
        rw [hother i hiv] at hpi ⊢
        rw [hself, hnum]
        exact fun heq => (h.table i hpi).2 (heq ▸ List.mem_cons_self)) (pa ||| perm ||| pteP)
    rw [hself, hnum] at hset
    rw [hset]
    simp only [within_one]
    split
    · rename_i hiv
      rw [pageNumber_eq_iff.mp hiv, Nat.sub_self, Nat.mul_zero, BitVec.add_zero]
    · -- the new page table is empty
      rw [Phys.entryOf, Phys.entryOf]
      by_cases hiv : i = pdx va
      · rw [hiv, hself, if_neg hpresent, if_pos hp, hnum, Phys.word,
          p.growTable_mem_self _ hfd, readWord_zero]
      · rw [hother i hiv]
        by_cases hpi : p.word d i &&& pteP = 0
        · rw [if_pos hpi, if_pos hpi]
        · rw [if_neg hpi, if_neg hpi]
          exact p.word_congr (p.growTable_mem d f _
            (fun heq => (h.table i hpi).2 (heq ▸ List.mem_cons_self)) fun heq => hi ⟨hpi, heq⟩)
  · have hiv : i ≠ pdx va := by
      rintro rfl
      exact hpi hp
    rw [hword, hother i hiv]
  · rw [hword, (within_one.mp hin).1]
    exact ⟨f, List.mem_cons_self, hnodup.1, hself⟩
  · have hiv : i ≠ pdx va := by
      rintro rfl
      exact hout (ptx va) (within_one.mpr ⟨rfl, rfl⟩)
    rw [hword, hother i hiv]
  · obtain rfl : g = f := (List.mem_cons.mp hg).resolve_right hnot
    exact ⟨pdx va, hp, by rw [hword, hself]; exact hpresent, by rw [hword, hself, hnum]⟩
  · have hgf : g ≠ f := by
      rintro rfl
      exact hnodup.1 (hg List.mem_cons_self)
    exact growTable_ref p d (pdx va) hgf
  · obtain rfl : g = f := (List.mem_cons.mp hg).resolve_right hnot
    exact growTable_ref_self p d g (pdx va)

theorem isSelf_iff (h : Maps d first k pa perm l p l' q) (hp : Tables d l p) :
    q.IsSelf d i ↔ p.IsSelf d i := by
  by_cases hpi : p.word d i &&& pteP = 0
  · constructor
    · rintro ⟨hqi, hd⟩
      by_cases hin : ∃ j, Within first k i j
      · obtain ⟨j, hin⟩ := hin
        obtain ⟨f, hf, -, hword⟩ := h.created i j hpi hin
        obtain ⟨hflt, hfd⟩ := hp.listed f hf
        have hnpages := hp.npages_le
        rw [hword, (tablePde_spec (by omega)).2] at hd
        exact absurd hd hfd
      · rw [h.absent i hpi (not_exists.mp hin)] at hqi
        exact absurd hpi hqi
    · rintro ⟨hpi', -⟩
      exact absurd hpi hpi'
  · rw [Phys.IsSelf, Phys.IsSelf, h.pde i hpi]

theorem present_of_created (h : Maps d first k pa perm l p l' q) (hp : Tables d l p)
    (hpi : p.word d i &&& pteP = 0) (hin : Within first k i j) : q.word d i &&& pteP ≠ 0 := by
  obtain ⟨f, hf, -, hword⟩ := h.created i j hpi hin
  have hflt := (hp.listed f hf).1
  have hnpages := hp.npages_le
  rw [hword]
  exact (tablePde_spec (by omega)).1

/-- Regions that follow each other. -/
theorem append (h : Maps d first k pa perm l p l' q) (hp : Tables d l p)
    (h' : Maps d (first + k) m (pa + BitVec.ofNat 32 (4096 * k)) perm l' q l'' r) :
    Maps d first (k + m) pa perm l p l'' r := by
  have hsub : ∀ g, g ∈ l' → g ∈ l := fun g hg => h.suffix.subset hg
  have hsub' : ∀ g, g ∈ l'' → g ∈ l' := fun g hg => h'.suffix.subset hg
  have hwithin : ∀ i j, Within first (k + m) i j ↔
      Within first k i j ∨ Within (first + k) m i j := by
    intro i j
    rw [Within, Within, Within]
    omega
  refine ⟨h'.tables, h'.suffix.trans h.suffix, fun i j hi => ?_, fun i hpi => ?_,
    fun i j hpi hin => ?_, fun i hpi hout => ?_, fun f hf hnot => ?_, fun g hg => ?_,
    fun g hg hnot => ?_⟩
  · rw [h'.entry i j (mt (h.isSelf_iff hp).mp hi), h.entry i j hi]
    by_cases hsecond : Within (first + k) m i j
    · have hlow := hsecond.1
      rw [if_pos hsecond, if_pos ((hwithin i j).mpr (.inr hsecond)), BitVec.add_assoc,
        ← BitVec.ofNat_add, show 4096 * k + 4096 * (pageNumber i j - (first + k)) =
          4096 * (pageNumber i j - first) by omega]
    · rw [if_neg hsecond]
      simp only [hwithin, hsecond, or_false]
  · rw [h'.pde i (by rwa [h.pde i hpi]), h.pde i hpi]
  · by_cases hfirst : ∃ j', Within first k i j'
    · obtain ⟨j', hfirst⟩ := hfirst
      obtain ⟨f, hf, hnot, hword⟩ := h.created i j' hpi hfirst
      refine ⟨f, hf, fun hmem => hnot (hsub' f hmem), ?_⟩
      rw [h'.pde i (h.present_of_created hp hpi hfirst), hword]
    · have hsame := h.absent i hpi (not_exists.mp hfirst)
      have hsecond := ((hwithin i j).mp hin).resolve_left (not_exists.mp hfirst j)
      obtain ⟨f, hf, hnot, hword⟩ := h'.created i j (by rw [hsame]; exact hpi) hsecond
      exact ⟨f, hsub f hf, hnot, hword⟩
  · have hsame := h.absent i hpi fun j hin => hout j ((hwithin i j).mpr (.inl hin))
    rw [h'.absent i (by rw [hsame]; exact hpi) fun j hin => hout j ((hwithin i j).mpr (.inr hin)),
      hsame]
  · by_cases hmid : f ∈ l'
    · obtain ⟨i, hqi, hri, hnum⟩ := h'.taken f hmid hnot
      refine ⟨i, ?_, hri, hnum⟩
      by_contra hpi
      rw [h.pde i hpi] at hqi
      exact hpi hqi
    · obtain ⟨i, hpi, hqi, hnum⟩ := h.taken f hf hmid
      have hsame := h'.pde i hqi
      exact ⟨i, hpi, by rw [hsame]; exact hqi, by rw [hsame, hnum]⟩
  · rw [h'.ref g fun hmid => hg (hsub g hmid), h.ref g fun hmem => hsub' g (hg hmem)]
  · by_cases hmid : g ∈ l'
    · rw [h'.counted g hmid hnot, h.ref g fun _ => hmid]
    · rw [h'.ref g fun hmem => absurd hmem hmid, h.counted g hg hmid]

/-- No entry is missing that was not missing before. -/
theorem missing_subset (h : Maps d first 1 pa perm l p l' q) (k : Nat) :
    missing q d (first + 1) k ⊆ missing p d first (k + 1) := by
  intro i hi
  obtain ⟨-, hqi, j, hlow, hhigh⟩ := Finset.mem_filter.mp hi
  refine Finset.mem_filter.mpr ⟨Finset.mem_univ i, ?_, j, by omega, by omega⟩
  by_contra hpi
  rw [h.pde i hpi] at hqi
  exact hpi hqi

/-- A new page table is one entry less. -/
theorem missing_lt (h : Maps d first 1 pa perm l p l' q) (hp : Tables d l p)
    (hpi : p.word d i &&& pteP = 0) (hin : Within first 1 i j) (k : Nat) :
    (missing q d (first + 1) k).card < (missing p d first (k + 1)).card := by
  refine Finset.card_lt_card ⟨h.missing_subset k, fun hsub => ?_⟩
  have hmem : i ∈ missing p d first (k + 1) :=
    Finset.mem_filter.mpr ⟨Finset.mem_univ i, hpi, j, hin.1, by have := hin.2; omega⟩
  exact h.present_of_created hp hpi hin (Finset.mem_filter.mp (hsub hmem)).2.1

/-- The loop, with memory for the page tables. -/
theorem run (h : Tables d l p) (perm pa : Word) (hend : first + k ≤ 1048576)
    (hself : ∀ i j, Within first k i j → ¬p.IsSelf d i)
    (room : (missing p d first k).card ≤ l.length) :
    ∃ q l', bootMapRegion d perm k (BitVec.ofNat 32 (4096 * first)) pa p = .ret () q ∧
      Maps d first k pa perm l p l' q := by
  induction k generalizing first pa l p with
  | zero => exact ⟨p, l, rfl, .zero h⟩
  | succ k ih =>
      generalize hva : BitVec.ofNat 32 (4096 * first) = va
      have hfirst : va.toNat / 4096 = first := by
        rw [← hva, BitVec.toNat_ofNat]
        omega
      have hnext : va + 4096 = BitVec.ofNat 32 (4096 * (first + 1)) := by
        rw [← hva, Nat.mul_succ, BitVec.ofNat_add]
        rfl
      have hpa : pa + BitVec.ofNat 32 (4096 * 1) = pa + 4096 := rfl
      have hone : Within first 1 (pdx va) (ptx va) := by
        rw [Within, pageNumber_va, hfirst]
        omega
      have hin : Within first (k + 1) (pdx va) (ptx va) := ⟨hone.1, by have := hone.2; omega⟩
      have hnot := hself _ _ hin
      -- one page
      obtain ⟨q, l', ⟨p₁, pte, hwalk, hstore⟩, hq, hroom⟩ : ∃ q l',
          (∃ p₁ pte, pgdirWalk d va true p = .ret (some pte) p₁ ∧
            pte.store (pa ||| perm ||| pteP) p₁ = .ret () q) ∧
          Maps d first 1 pa perm l p l' q ∧ (missing q d (first + 1) k).card ≤ l'.length := by
        by_cases hp : p.word d (pdx va) &&& pteP = 0
        · have hmem : pdx va ∈ missing p d first (k + 1) :=
            Finset.mem_filter.mpr ⟨Finset.mem_univ _, hp, ptx va, hin⟩
          have hpos : 0 < l.length :=
            Nat.lt_of_lt_of_le (Finset.card_pos.mpr ⟨_, hmem⟩) room
          obtain ⟨f, l', rfl⟩ := List.exists_cons_of_length_pos hpos
          have hhead : p.pageFreeList = some f := h.free.head_eq
          have hq := grown h hp pa perm
          rw [hfirst] at hq
          have hcard := hq.missing_lt h hp hone k
          rw [List.length_cons] at room
          have hroom := Nat.le_of_lt_succ (Nat.lt_of_lt_of_le hcard room)
          exact ⟨_, l', ⟨p.growTable d f (pdx va), ⟨f, ptx va⟩,
            pgdirWalk_create hp hhead (h.listed f (by simp)).1 h.npages_le, rfl⟩, hq, hroom⟩
        · have hq := found h hnot hp pa perm
          rw [hfirst] at hq
          have hroom := Nat.le_trans (Finset.card_le_card (hq.missing_subset k)) room
          exact ⟨_, l, ⟨p, ⟨pgnum (p.word d (pdx va)), ptx va⟩,
            pgdirWalk_found hp (h.table _ hp).1 true, rfl⟩, hq, hroom⟩
      have hself' : ∀ i j, Within (first + 1) k i j → ¬q.IsSelf d i := by
        rintro i j ⟨hlow, hhigh⟩
        rw [hq.isSelf_iff h]
        exact hself i j ⟨by omega, by omega⟩
      obtain ⟨r, l'', hrun, hr⟩ := ih hq.tables (pa + 4096) (by omega) hself' hroom
      refine ⟨r, l'', ?_, ?_⟩
      · rw [bootMapRegion, hnext]
        exact (bind_ret _ hwalk).trans ((bind_ret _ hstore).trans hrun)
      · rw [Nat.add_comm k 1]
        exact hq.append h (by rwa [hpa])

end Maps

end Tables

/-- Whole pages, less than 2 GB, that do not go beyond the end of the address space. -/
structure MapArgs (va size pa : Word) : Prop where
  va_aligned : va.toNat % 4096 = 0
  pa_aligned : pa.toNat % 4096 = 0
  size_aligned : size.toNat % 4096 = 0
  size_lt : size.toNat < 2147483648
  fits : va.toNat + size.toNat ≤ 4294967296

/-- The address belongs to the region. -/
def InRegion (va size a : Word) : Prop :=
  va.toNat ≤ a.toNat ∧ a.toNat < va.toNat + size.toNat

/-- The page tables that the region needs and `d` does not have. -/
def missingTables (p : Phys) (d : Nat) (va size : Word) : Finset Idx :=
  missing p d (va.toNat / 4096) (size.toNat / 4096)

/-- The pages of the region are mapped as asked for. -/
def RegionMapped (d : Nat) (va size pa perm : Word) (q : Phys) : Prop :=
  ∀ off < size.toNat, ∃ pde, q.translate d (va + BitVec.ofNat 32 off) =
    some (pde, mkPte (pgnum (pa + BitVec.ofNat 32 off)) perm)

/-- The region is mapped, with new page tables from the free list. Other translations stay, except
that a new page table shows up where the directory maps itself. Only the new page tables are
counted. -/
structure MappedWithTables (d : Nat) (va size pa perm : Word) (l : List Nat) (p : Phys)
    (l' : List Nat) (q : Phys) : Prop where
  mapped : RegionMapped d va size pa perm q
  frame : ∀ a, ¬InRegion va size a → ¬p.IsSelf d (pdx a) → q.translate d a = p.translate d a
  self : ∀ a, p.IsSelf d (pdx a) → ptx a ∉ missingTables p d va size →
    q.translate d a = p.translate d a
  shown : ∀ a, p.IsSelf d (pdx a) → ptx a ∈ missingTables p d va size →
    p.translate d a = none ∧ q.translate d a = some (p.word d (pdx a), q.word d (ptx a))
  created : ∀ i ∈ missingTables p d va size,
    ∃ f ∈ l, f ∉ l' ∧ q.word d i = page2pa f ||| pteP ||| pteW ||| pteU
  kept : ∀ i, i ∉ missingTables p d va size → q.word d i = p.word d i
  taken : ∀ f ∈ l, f ∉ l' → ∃ i ∈ missingTables p d va size, pgnum (q.word d i) = f
  free : IsList q.link q.pageFreeList l' ∧ l' <:+ l
  ref : ∀ g, (g ∈ l → g ∈ l') → q.ref g = p.ref g
  counted : ∀ g ∈ l, g ∉ l' → q.ref g = p.ref g + 1

section Region

variable {d : Nat} {l l' : List Nat} {p q : Phys} {i : Idx} {va size pa perm a : Word}

/-- The page of an address, among those of the region. -/
theorem within_iff (h : MapArgs va size pa) :
    Within (va.toNat / 4096) (size.toNat / 4096) (pdx a) (ptx a) ↔ InRegion va size a := by
  have hva := h.va_aligned
  have hsize := h.size_aligned
  rw [Within, pageNumber_va, InRegion]
  omega

theorem inRegion_add (h : MapArgs va size pa) {off : Nat} (hoff : off < size.toNat) :
    (va + BitVec.ofNat 32 off).toNat = va.toNat + off ∧
      InRegion va size (va + BitVec.ofNat 32 off) := by
  have hfits := h.fits
  have hnat : (va + BitVec.ofNat 32 off).toNat = va.toNat + off := by
    rw [BitVec.toNat_add, BitVec.toNat_ofNat]
    omega
  refine ⟨hnat, ?_⟩
  rw [InRegion, hnat]
  omega

/-- The frame of an address in the region. -/
theorem pageAddr_add (hpa : pa.toNat % 4096 = 0) (off : Nat) :
    pageAddr (pgnum (pa + BitVec.ofNat 32 off)) = pa + BitVec.ofNat 32 (4096 * (off / 4096)) := by
  have hlt := (pa + BitVec.ofNat 32 off).isLt
  apply BitVec.eq_of_toNat_eq
  rw [pageAddr_toNat (by rw [pgnum_eq]; omega), pgnum_eq, BitVec.toNat_add, BitVec.toNat_add,
    BitVec.toNat_ofNat, BitVec.toNat_ofNat]
  omega

/-- What consecutive pages are for the region. -/
theorem Maps.mappedWithTables (args : MapArgs va size pa) (h : Tables d l p)
    (hself : ∀ a, InRegion va size a → ¬p.IsSelf d (pdx a))
    (hm : Maps d (va.toNat / 4096) (size.toNat / 4096) pa perm l p l' q) :
    MappedWithTables d va size pa perm l p l' q := by
  have hmissing : ∀ i, p.word d i &&& pteP = 0 → i ∉ missingTables p d va size →
      ∀ j, ¬Within (va.toNat / 4096) (size.toNat / 4096) i j := by
    intro i hpi hnot j hin
    exact hnot (Finset.mem_filter.mpr ⟨Finset.mem_univ i, hpi, j, hin⟩)
  have hkept : ∀ i, i ∉ missingTables p d va size → q.word d i = p.word d i := by
    intro i hnot
    by_cases hpi : p.word d i &&& pteP = 0
    · exact hm.absent i hpi (hmissing i hpi hnot)
    · exact hm.pde i hpi
  refine ⟨fun off hoff => ?_, fun a hout hnot => ?_, fun a hs hnot => ?_, fun a hs hin => ?_,
    fun i hi => ?_, hkept, fun f hf hnot => ?_, ⟨hm.tables.free, hm.suffix⟩, hm.ref, hm.counted⟩
  · obtain ⟨hnat, hin⟩ := inRegion_add args hoff
    have hentry := hm.entry (pdx (va + BitVec.ofNat 32 off)) (ptx (va + BitVec.ofNat 32 off))
      (hself _ hin)
    have hva := args.va_aligned
    rw [if_pos ((within_iff args).mpr hin), pageNumber_va, hnat,
      show (va.toNat + off) / 4096 - va.toNat / 4096 = off / 4096 by omega,
      ← pageAddr_add args.pa_aligned] at hentry
    change _ = mkPte (pgnum (pa + BitVec.ofNat 32 off)) perm at hentry
    refine ⟨q.word d (pdx (va + BitVec.ofNat 32 off)), ?_⟩
    rw [Phys.translate_eq, hentry, if_neg (mkPte_present _ _)]
  · have hentry := hm.entry (pdx a) (ptx a) hnot
    rw [if_neg (mt (within_iff args).mp hout)] at hentry
    rw [Phys.translate_eq, Phys.translate_eq, hentry]
    by_cases hpa : p.word d (pdx a) &&& pteP = 0
    · rw [Phys.entryOf, if_pos hpa, if_pos (by decide), if_pos (by decide)]
    · rw [hm.pde _ hpa]
  · rw [Phys.translate, Phys.translate]
    dsimp only
    rw [hm.pde _ hs.1, if_neg hs.1, if_neg hs.1, hs.2, hkept _ hnot]
  · obtain ⟨-, hpi, j, hj⟩ := Finset.mem_filter.mp hin
    rw [Phys.translate, Phys.translate]
    dsimp only
    rw [hm.pde _ hs.1, if_neg hs.1, if_neg hs.1, hs.2, if_pos hpi,
      if_neg (hm.present_of_created h hpi hj)]
    exact ⟨rfl, rfl⟩
  · obtain ⟨-, hpi, j, hj⟩ := Finset.mem_filter.mp hi
    exact hm.created i j hpi hj
  · obtain ⟨i, hpi, hqi, hnum⟩ := hm.taken f hf hnot
    refine ⟨i, ?_, hnum⟩
    by_contra hout
    rw [hkept i hout] at hqi
    exact hqi hpi

/-- `boot_map_region` with its `size`, for the loop over its pages. -/
theorem bootMapRegionSize_run (args : MapArgs va size pa) (h : Tables d l p)
    (hself : ∀ a, InRegion va size a → ¬p.IsSelf d (pdx a))
    (room : (missingTables p d va size).card ≤ l.length) (perm : Word) :
    ∃ q l', bootMapRegionSize d va size pa perm p = .ret () q ∧
      Maps d (va.toNat / 4096) (size.toNat / 4096) pa perm l p l' q := by
  have hva := args.va_aligned
  have hsize := args.size_aligned
  have hlt := args.size_lt
  have hfits := args.fits
  have hself' : ∀ i j, Within (va.toNat / 4096) (size.toNat / 4096) i j → ¬p.IsSelf d i := by
    intro i j hin
    have hpage : Within (va.toNat / 4096) (size.toNat / 4096) (pdx (pgaddr i j))
        (ptx (pgaddr i j)) := by
      rwa [pdx_pgaddr, ptx_pgaddr]
    have hnot := hself _ ((within_iff args).mp hpage)
    rwa [pdx_pgaddr] at hnot
  obtain ⟨q, l', hrun, hm⟩ := Maps.run h perm pa
    (show va.toNat / 4096 + size.toNat / 4096 ≤ 1048576 by omega) hself' room
  have hbase : BitVec.ofNat 32 (4096 * (va.toNat / 4096)) = va := by
    apply BitVec.eq_of_toNat_eq
    rw [BitVec.toNat_ofNat]
    omega
  refine ⟨q, l', ?_, hm⟩
  rw [hbase] at hrun
  rw [bootMapRegionSize, bootMapLoop_eq (k := size.toNat / 4096) (by omega) (by omega) (by omega)]
  exact hrun

end Region

/-- `boot_map_region` maps its region, with page tables for the entries that had none. -/
theorem boot_map_region_maps {d : Nat} {l : List Nat} {p : Phys} {va size pa : Word}
    (h : Tables d l p) (args : MapArgs va size pa)
    (hself : ∀ a, InRegion va size a → ¬p.IsSelf d (pdx a))
    (room : (missingTables p d va size).card ≤ l.length) (perm : Word) :
    ∃ q l', bootMapRegionSize d va size pa perm p = .ret () q ∧ Tables d l' q ∧
      MappedWithTables d va size pa perm l p l' q := by
  obtain ⟨q, l', hrun, hm⟩ := bootMapRegionSize_run args h hself room perm
  exact ⟨q, l', hrun, hm.tables, hm.mappedWithTables args h hself⟩

/-! ### Physical memory at `KERNBASE` -/

/-- What `mem_init` passes for it. -/
theorem kernbase_args : MapArgs kernbase 0x10000000 0 :=
  ⟨by decide, by decide, by decide, by decide, by decide⟩

/-- The directory maps itself at `UVPT` only. -/
theorem KernDir.not_self {d : Nat} {l : List Nat} {p : Phys} (h : KernDir d l p) {i : Idx}
    (hi : i ≠ pdx uvpt) : ¬p.IsSelf d i := fun hself => (h.table i hi hself.1).2.1 hself.2

/-- The addresses from `KERNBASE` on have the last 64 entries of the directory. -/
theorem kernbase_not_uvpt {a : Word} (h : InRegion kernbase 0x10000000 a) : pdx a ≠ pdx uvpt := by
  intro heq
  have hval := congrArg Fin.val heq
  have hlow : kernbase.toNat ≤ a.toNat := h.1
  rw [pdx_uvpt_val, pdx_val] at hval
  rw [show kernbase.toNat = 4026531840 from rfl] at hlow
  omega

theorem kernbase_missing (p : Phys) (d : Nat) :
    (missingTables p d kernbase 0x10000000).card ≤ 64 := by
  have hsub : missingTables p d kernbase 0x10000000 ⊆ Finset.Ici (960 : Idx) := by
    intro i hi
    obtain ⟨-, -, j, hlow, -⟩ := Finset.mem_filter.mp hi
    have hj := j.isLt
    rw [show kernbase.toNat / 4096 = 983040 from rfl, pageNumber] at hlow
    rw [Finset.mem_Ici, Fin.le_def]
    change 960 ≤ i.val
    omega
  have hcard := Finset.card_le_card hsub
  rwa [Fin.card_Ici] at hcard

theorem boot_map_region_maps_kernbase : ∃ p l q l',
    memInitStart qemu.toHardware qemu.powerOn = .ret () p ∧
    bootMapRegionSize qemu.kernPgdir kernbase 0x10000000 0 (pteW ||| pteP) p = .ret () q ∧
    Tables qemu.kernPgdir l' q ∧
    MappedWithTables qemu.kernPgdir kernbase 0x10000000 0 (pteW ||| pteP) l p l' q := by
  obtain ⟨p, l, hstart, htree, hfree, -⟩ := KernTree.start qemu
  have hlen := qemu.length_free hfree
  have hroom : 64 ≤ qemu.npages - qemu.firstFree := by decide
  obtain ⟨q, l', hrun, htables, hmaps⟩ := boot_map_region_maps htree.dir.tables kernbase_args
    (fun a ha => htree.dir.not_self (kernbase_not_uvpt ha))
    (by have := kernbase_missing p qemu.kernPgdir; omega) (pteW ||| pteP)
  exact ⟨p, l, q, l', hstart, hrun, htables, hmaps⟩

/-- In the state in which the memory map is set up: mapping physical memory counts a page that is
mapped, and its page table shows up at `UVPT`. Mapping a page at `UVPT` replaces a page table. -/
theorem boot_map_region_moves_more : ∃ p l,
    memInitStart qemu.toHardware qemu.powerOn = .ret () p ∧ Tables qemu.kernPgdir l p ∧
    (MapArgs kernbase 0x10000000 0 ∧
      (missingTables p qemu.kernPgdir kernbase 0x10000000).card ≤ l.length ∧
      ∃ q, bootMapRegionSize qemu.kernPgdir kernbase 0x10000000 0 (pteW ||| pteP) p = .ret () q ∧
        (∃ a, ¬InRegion kernbase 0x10000000 a ∧
          q.translate qemu.kernPgdir a ≠ p.translate qemu.kernPgdir a) ∧
        ∃ off < 0x10000000, q.ref (pgnum (0 + BitVec.ofNat 32 off)) ≠
          p.ref (pgnum (0 + BitVec.ofNat 32 off))) ∧
    MapArgs uvpt 4096 (page2pa qemu.kernPgdir) ∧
      missingTables p qemu.kernPgdir uvpt 4096 = ∅ ∧
      ∃ q, bootMapRegionSize qemu.kernPgdir uvpt 4096 (page2pa qemu.kernPgdir) pteP p = .ret () q ∧
        ∃ a, ¬InRegion uvpt 4096 a ∧
          q.translate qemu.kernPgdir a ≠ p.translate qemu.kernPgdir a := by
  obtain ⟨p, l, hstart, htree, hfree, hzero⟩ := KernTree.start qemu
  have hdir := htree.dir
  have hlen := qemu.length_free hfree
  have hroom : 64 ≤ qemu.npages - qemu.firstFree := by decide
  have hself : p.word qemu.kernPgdir (pdx uvpt) &&& pteP ≠ 0 ∧
      pgnum (p.word qemu.kernPgdir (pdx uvpt)) = qemu.kernPgdir := by
    rw [hdir.self]
    exact ⟨mkPte_present _ _, pgnum_mkPte (by decide) (by decide)⟩
  have hcard : (missingTables p qemu.kernPgdir kernbase 0x10000000).card ≤ l.length := by
    have := kernbase_missing p qemu.kernPgdir
    omega
  refine ⟨p, l, hstart, hdir.tables, ⟨kernbase_args, hcard, ?_⟩, ?_⟩
  · have hnot : ∀ a, InRegion kernbase 0x10000000 a → ¬p.IsSelf qemu.kernPgdir (pdx a) :=
      fun a ha => hdir.not_self (kernbase_not_uvpt ha)
    obtain ⟨q, l', hrun, hm⟩ := bootMapRegionSize_run kernbase_args hdir.tables hnot hcard
      (pteW ||| pteP)
    have hmaps := hm.mappedWithTables kernbase_args hdir.tables hnot
    have hmissing : pdx kernbase ∈ missingTables p qemu.kernPgdir kernbase 0x10000000 := by
      refine Finset.mem_filter.mpr ⟨Finset.mem_univ _, ?_, ptx kernbase, by decide, by decide⟩
      rw [hzero _ (by decide)]
      decide
    refine ⟨q, hrun, ⟨0xEF7C0000, ?_, ?_⟩, ?_⟩
    · rintro ⟨hlow, -⟩
      exact absurd hlow (by decide)
    · have hshown := hmaps.shown 0xEF7C0000 hself hmissing
      rw [hshown.1, hshown.2]
      simp
    · obtain ⟨f, hf, hout, -⟩ := hmaps.created _ hmissing
      have hflt : f < 32768 := (hfree f).mp hf |>.1
      have hnum : pgnum (0 + BitVec.ofNat 32 (f * 4096)) = f := by
        rw [pgnum_eq, BitVec.toNat_add, BitVec.toNat_ofNat, show (0 : Word).toNat = 0 from rfl]
        omega
      refine ⟨f * 4096, by omega, ?_⟩
      rw [hnum, hmaps.counted f hf hout]
      intro heq
      have hnat := congrArg BitVec.toNat heq
      have hlt := (p.ref f).isLt
      rw [BitVec.toNat_add, show (1 : BitVec 16).toNat = 1 from rfl] at hnat
      omega
  · refine ⟨⟨by decide, by decide, by decide, by decide, by decide⟩, ?_, ?_⟩
    · refine Finset.filter_eq_empty_iff.mpr ?_
      rintro i - ⟨hpi, j, hlow, hhigh⟩
      have hj := j.isLt
      have hi : i = pdx uvpt := by
        apply Fin.ext
        rw [pdx_uvpt_val]
        rw [show uvpt.toNat / 4096 = 979968 from rfl, pageNumber] at hlow hhigh
        rw [show (4096 : Word).toNat / 4096 = 1 from rfl] at hhigh
        omega
      rw [hi] at hpi
      exact hself.1 hpi
    · have hwalk : pgdirWalk qemu.kernPgdir uvpt true p =
          .ret (some ⟨qemu.kernPgdir, ptx uvpt⟩) p := by
        rw [pgdirWalk_found hself.1 (by rw [hself.2]; exact hdir.dir_lt), hself.2]
      refine ⟨p.setWord qemu.kernPgdir (ptx uvpt)
        (page2pa qemu.kernPgdir ||| pteP ||| pteP), ?_, 0x3BD000, ?_, ?_⟩
      · rw [bootMapRegionSize, bootMapLoop_eq (show (4096 : Word).toNat = 4096 * 1 from rfl)
          (by decide) (by decide), bootMapRegion, bind_ret _ hwalk]
        rfl
      · rintro ⟨hlow, -⟩
        exact absurd hlow (by decide)
      · have hzero' : p.word qemu.kernPgdir (pdx 0x3BD000) &&& pteP = 0 := by
          rw [hzero _ (by decide)]
          decide
        have hnew : (page2pa qemu.kernPgdir ||| pteP ||| pteP) &&& pteP ≠ 0 ∧
            pgnum (page2pa qemu.kernPgdir ||| pteP ||| pteP) = qemu.kernPgdir :=
          ⟨mkPte_present _ _, pgnum_mkPte (by decide) (by decide)⟩
        rw [Phys.translate, Phys.translate]
        dsimp only
        rw [if_pos hzero', show pdx 0x3BD000 = ptx uvpt by decide, Phys.word_setWord_self,
          if_neg hnew.1, hnew.2, show ptx 0x3BD000 = pdx uvpt by decide,
          Phys.word_setWord_of_ne _ _ (by decide), if_neg hself.1]
        simp

end Jos
