import Jos.Boot.PageInit
import Jos.Kernel.Isolation
import Jos.Pmap.Directory

/-!
# What booting leaves

`page_init` puts exactly the pages of `Hardware.Free` on the free list. Building the
kernel's half of the address space then takes page tables from that list, one for
each directory entry (`KernTree`). What is left over is what the allocator manages
from then on: with it comes a `Layout`, and the invariant of the memory manager
holds once `env_init` and `env_create` are done.
-/

namespace Jos

open Prog

/-- The pages that are free after `page_init`. -/
def Hardware.Free (m : Hardware) (f : Nat) : Prop :=
  f < m.npages ∧ f ≠ 0 ∧
    (f < m.npagesBasemem ∧ f ≠ mpentryPaddr / pgsize ∨
      m.npagesBasemem ≤ f ∧ ¬ (iophysmem / pgsize ≤ f ∧ f < extphysmem / pgsize) ∧
        ¬ (extphysmem / pgsize ≤ f ∧ f < m.firstFree))

/-- The first `n` pages are initialised. -/
structure PageInit (m : Hardware) (n : Nat) (p : Phys) : Prop where
  npages : p.npages = m.npages
  userPages : p.userPages = []
  free : ∃ l, IsList p.link p.pageFreeList l ∧ ∀ f, f ∈ l ↔ f < n ∧ m.Free f
  ref : ∀ f, m.Free f → p.ref f = 0
  reserved : ∀ f < n, ¬ m.Free f → p.pages f = ⟨none, 1⟩
  rest : ∀ f, n ≤ f → p.pages f = ⟨none, 0⟩

/-- `page_init` sorts the pages, and leaves memory alone. -/
theorem pageInit_spec {m : Hardware} {p : Phys} (h : PageInit m 0 p)
    (hlist : p.pageFreeList = none) :
    wp (pageInit m) (fun _ q => PageInit m m.npages q ∧ q.mem = p.mem) (fun _ _ => False)
      (fun _ => False) p := by
  obtain ⟨q, l, hrun, hq⟩ := pageInitUpTo_spec m.npages m.npagesBasemem m.firstFree hlist
  have hpages : ∀ f, p.pages f = ⟨none, 0⟩ := fun f => h.rest f (Nat.zero_le f)
  have hmem : ∀ f, m.Free f → f ∈ l := fun f hf => (hq.listed f).mpr ⟨hf.1, hf⟩
  rw [pageInit_eq, wp_ret hrun]
  refine ⟨⟨hq.npages.trans h.npages, hq.userPages.trans h.userPages, ⟨l, hq.free, hq.listed⟩,
    fun f hf => hq.ref f (hmem f hf), fun f hlt hf => ?_, fun f hle => ?_⟩, hq.mem⟩
  · obtain ⟨href, hlink⟩ := hq.reserved f hlt hf
    have hnone : q.link f = none := by
      rcases hlink with hnone | hold
      · exact hnone
      · rw [hold, Phys.link, hpages]
    rw [Phys.ref] at href
    rw [Phys.link] at hnone
    rw [← href, ← hnone]
  · rw [hq.rest f hle, hpages]

theorem page2pa_aligned (pp : Nat) : (page2pa pp).toNat % 4096 = 0 := pageAddr_aligned pp

/-- An address of the kernel's half, other than the self-map. -/
def KernelVa (va : Word) : Prop := userPdes ≤ (pdx va).val ∧ pdx va ≠ pdx uvpt

/-- The kernel's page directory while it is built; `l` is the free list. The number `n`
bounds the pages on it: each page that leaves it becomes a page table. -/
structure KernTree (m : Hardware) (n : Nat) (l : List Nat) (p : Phys) : Prop where
  npages : p.npages = m.npages
  userPages : p.userPages = []
  free : IsList p.link p.pageFreeList l
  managed : ∀ f ∈ l, m.Free f ∧ p.ref f = 0
  reserved : ∀ f < m.npages, ¬ m.Free f → p.pages f = ⟨none, 1⟩
  user : ∀ i : Idx, i.val < userPdes → p.word m.kernPgdir i &&& pteP = 0
  self : p.word m.kernPgdir (pdx uvpt) = page2pa m.kernPgdir ||| pteU ||| pteP
  table : ∀ i : Idx, i ≠ pdx uvpt → p.word m.kernPgdir i &&& pteP ≠ 0 →
    m.Free (pgnum (p.word m.kernPgdir i)) ∧ pgnum (p.word m.kernPgdir i) ∉ l
  distinct : ∀ i j : Idx, i ≠ pdx uvpt → j ≠ pdx uvpt → p.word m.kernPgdir i &&& pteP ≠ 0 →
    p.word m.kernPgdir j &&& pteP ≠ 0 →
    pgnum (p.word m.kernPgdir i) = pgnum (p.word m.kernPgdir j) → i = j
  readonly : ∀ i j : Idx, i ≠ pdx uvpt → p.word m.kernPgdir i &&& pteP ≠ 0 →
    p.word (pgnum (p.word m.kernPgdir i)) j &&& pteU ≠ 0 →
    p.word (pgnum (p.word m.kernPgdir i)) j &&& pteW = 0
  room : n ≤ l.length +
    (Finset.univ.filter fun i : Idx => p.word m.kernPgdir i &&& pteP ≠ 0).card

theorem Machine.kern_not_free (m : Machine) : ¬ m.Free m.kernPgdir ∧ m.kernPgdir < m.npages := by
  have hlt := m.firstFree_lt
  have hge := m.kernEnd_ge
  have hle := m.basemem_le
  have hk : m.kernPgdir = m.kernEnd := rfl
  have hff : m.kernEnd + 1 ≤ m.firstFree := by
    have hone : pagesFor pgsize = 1 := by decide
    simp only [Hardware.firstFree, Hardware.envsAlloc, Hardware.pagesAlloc, bootAlloc, hone]
    omega
  simp only [iophysmem, extphysmem, pgsize] at hge hle
  refine ⟨?_, by omega⟩
  rintro ⟨-, -, ⟨hlt', -⟩ | ⟨-, -, hext⟩⟩
  · omega
  · apply hext
    simp only [extphysmem, pgsize]
    omega

namespace KernTree

variable {m : Machine} {n : Nat} {l : List Nat} {p : Phys} {i : Idx} {f t : Nat}

theorem kern_not_mem (h : KernTree m.toHardware n l p) : m.kernPgdir ∉ l :=
  fun hmem => m.kern_not_free.1 (h.managed _ hmem).1

/-- An entry of a page table is written. -/
theorem setEntry (h : KernTree m.toHardware n l p) (hi : i ≠ pdx uvpt)
    (hp : p.word m.kernPgdir i &&& pteP ≠ 0) {j : Idx} {w : Word}
    (hw : w &&& pteU ≠ 0 → w &&& pteW = 0) :
    KernTree m.toHardware n l (p.setWord (pgnum (p.word m.kernPgdir i)) j w) := by
  have htable := h.table i hi hp
  have hkern : m.kernPgdir ≠ pgnum (p.word m.kernPgdir i) := by
    intro heq
    exact m.kern_not_free.1 (heq ▸ htable.1)
  have hword : ∀ i', (p.setWord (pgnum (p.word m.kernPgdir i)) j w).word m.kernPgdir i' =
      p.word m.kernPgdir i' := fun i' => p.word_congr (p.mem_setWord_of_ne w hkern)
  refine ⟨h.npages, h.userPages, h.free, h.managed, h.reserved, ?_, ?_, ?_, ?_, ?_, ?_⟩
  · simpa only [hword] using h.user
  · rw [hword]
    exact h.self
  · simpa only [hword] using h.table
  · simpa only [hword] using h.distinct
  · intro i' j'
    rw [hword]
    intro hi' hp'
    by_cases hii : i' = i
    · subst hii
      by_cases hjj : j' = j
      · subst hjj
        rw [Phys.word_setWord_self]
        exact hw
      · rw [Phys.word_setWord_of_ne _ _ hjj]
        exact h.readonly i' j' hi' hp'
    · have hne : pgnum (p.word m.kernPgdir i') ≠ pgnum (p.word m.kernPgdir i) :=
        fun heq => hii (h.distinct i' i hi' hi hp' hp heq)
      rw [p.word_congr (p.mem_setWord_of_ne w hne)]
      exact h.readonly i' j' hi' hp'
  · simpa only [hword] using h.room

/-- Page tables that are there stay. -/
def Grows (m : Hardware) (p q : Phys) : Prop :=
  ∀ i : Idx, p.word m.kernPgdir i &&& pteP ≠ 0 → q.word m.kernPgdir i &&& pteP ≠ 0

theorem setEntry_grows (h : KernTree m.toHardware n l p) (hi : i ≠ pdx uvpt)
    (hp : p.word m.kernPgdir i &&& pteP ≠ 0) (j : Idx) (w : Word) :
    Grows m.toHardware p (p.setWord (pgnum (p.word m.kernPgdir i)) j w) := by
  have hkern : m.kernPgdir ≠ pgnum (p.word m.kernPgdir i) := by
    intro heq
    exact m.kern_not_free.1 (heq ▸ (h.table i hi hp).1)
  intro i' hp'
  rwa [p.word_congr (p.mem_setWord_of_ne w hkern)]

/-- As a directory that is walked. -/
theorem dir (h : KernTree m.toHardware n l p) : KernDir m.kernPgdir l p := by
  refine ⟨by rw [h.npages]; exact m.npages_le, by rw [h.npages]; exact m.kern_not_free.2, h.free,
    fun f hf => ?_, h.self, fun i hi hp => ?_, h.distinct⟩
  · obtain ⟨hfree, -⟩ := h.managed f hf
    rw [h.npages]
    refine ⟨hfree.1, ?_⟩
    rintro rfl
    exact m.kern_not_free.1 hfree
  · obtain ⟨hfree, hnot⟩ := h.table i hi hp
    rw [h.npages]
    refine ⟨hfree.1, fun heq => ?_, hnot⟩
    exact m.kern_not_free.1 (heq ▸ hfree)

/-- The first free page becomes the page table of an empty directory entry. -/
theorem grow (h : KernTree m.toHardware n (f :: l) p) (hlow : userPdes ≤ i.val)
    (hi : i ≠ pdx uvpt) (hp : p.word m.kernPgdir i &&& pteP = 0) :
    KernTree m.toHardware n l (p.growTable m.kernPgdir f i) ∧
      (p.growTable m.kernPgdir f i).word m.kernPgdir i &&& pteP ≠ 0 ∧
      pgnum ((p.growTable m.kernPgdir f i).word m.kernPgdir i) = f ∧
      Grows m.toHardware p (p.growTable m.kernPgdir f i) := by
  have hmanaged := h.managed f (by simp)
  have hflt : f < 1048576 := by
    have hlt := hmanaged.1.1
    have hle := m.npages_le
    omega
  have hfk : f ≠ m.kernPgdir := (h.dir.listed f (by simp)).2
  have hnodup := List.nodup_cons.mp h.free.nodup
  have hdir := h.dir.grow hi hp
  set q := p.growTable m.kernPgdir f i with hq
  set w : Word := page2pa f ||| pteP ||| pteW ||| pteU with hw
  have hself : q.word m.kernPgdir i = w := p.growTable_word_self _ _ _
  have hpw : w &&& pteP ≠ 0 ∧ pgnum w = f := tablePde_spec hflt
  -- the other entries of the directory
  have hword : ∀ i', i' ≠ i → q.word m.kernPgdir i' = p.word m.kernPgdir i' := fun i' hne =>
    p.growTable_word hfk.symm hne
  have huser : ∀ i' : Idx, i'.val < userPdes → i' ≠ i := by
    rintro i' hlt rfl
    omega
  refine ⟨⟨h.npages, h.userPages, hdir.free, fun g hg => ?_, fun g hlt hg => ?_, fun i' hlt => ?_,
    hdir.self, fun i' hi' hp' => ?_, hdir.distinct, fun i' j' hi' hp' => ?_, ?_⟩, ?_, ?_, ?_⟩
  · have hne : g ≠ f := by
      rintro rfl
      exact hnodup.1 hg
    obtain ⟨hfree, href⟩ := h.managed g (List.mem_cons_of_mem f hg)
    refine ⟨hfree, ?_⟩
    rw [Phys.ref, hq, Phys.growTable_pages _ _ _ _ hne]
    exact href
  · have hne : g ≠ f := by
      rintro rfl
      exact hg hmanaged.1
    rw [hq, Phys.growTable_pages _ _ _ _ hne]
    exact h.reserved g hlt hg
  · rw [hword i' (huser i' hlt)]
    exact h.user i' hlt
  · refine ⟨?_, (hdir.table i' hi' hp').2.2⟩
    by_cases hii : i' = i
    · rw [hii, hself, hpw.2]
      exact hmanaged.1
    · rw [hword i' hii] at hp' ⊢
      exact (h.table i' hi' hp').1
  · by_cases hii : i' = i
    · subst hii
      rw [hself, hpw.2, Phys.word, hq, Phys.growTable_mem_self _ _ hfk, readWord_zero]
      simp
    · rw [hword i' hii] at hp' ⊢
      obtain ⟨-, hnk, hnot⟩ := h.dir.table i' hi' hp'
      have hne : pgnum (p.word m.kernPgdir i') ≠ f := by
        rintro heq
        exact hnot (heq ▸ List.mem_cons_self)
      rw [p.word_congr (p.growTable_mem m.kernPgdir f i hne hnk)]
      exact h.readonly i' j' hi' hp'
  · -- one page less on the list, one directory entry more
    have hroom := h.room
    have hset : (Finset.univ.filter fun i : Idx => q.word m.kernPgdir i &&& pteP ≠ 0) =
        insert i (Finset.univ.filter fun i : Idx => p.word m.kernPgdir i &&& pteP ≠ 0) := by
      ext i'
      rw [Finset.mem_insert, Finset.mem_filter, Finset.mem_filter]
      by_cases hii : i' = i
      · subst hii
        simpa [hself] using hpw.1
      · simp [hword i' hii, hii]
    rw [hset, Finset.card_insert_of_notMem (by simp [hp])]
    rw [List.length_cons] at hroom
    omega
  · rw [hself]
    exact hpw.1
  · rw [hself]
    exact hpw.2
  · intro i' hp'
    by_cases hii : i' = i
    · rw [hii, hself]
      exact hpw.1
    · rwa [hword i' hii]

/-- `pgdir_walk` in the kernel's half. It fails only if no page is left. -/
theorem walk (h : KernTree m.toHardware n l p) {va : Word} (hva : KernelVa va) :
    (pgdirWalk m.kernPgdir va true p = .ret none p ∧ l = []) ∨
      ∃ q l', pgdirWalk m.kernPgdir va true p =
          .ret (some ⟨pgnum (q.word m.kernPgdir (pdx va)), ptx va⟩) q ∧
        KernTree m.toHardware n l' q ∧ q.word m.kernPgdir (pdx va) &&& pteP ≠ 0 ∧
        Grows m.toHardware p q := by
  have hn : p.npages ≤ 65536 := by
    rw [h.npages]
    exact m.npages_le
  by_cases hp : p.word m.kernPgdir (pdx va) &&& pteP = 0
  · rcases h.free.head_cases with ⟨hhead, hnil⟩ | ⟨f, l', hhead, rfl, -⟩
    · exact .inl ⟨pgdirWalk_noMem hp hhead, hnil⟩
    · obtain ⟨hq, hp', hnum, hgrows⟩ := h.grow hva.1 hva.2 hp
      have hlt : f < p.npages := by
        rw [h.npages]
        exact (h.managed f (by simp)).1.1
      refine .inr ⟨_, l', ?_, hq, hp', hgrows⟩
      rw [pgdirWalk_create hp hhead hlt hn, hnum]
  · have hlt : pgnum (p.word m.kernPgdir (pdx va)) < p.npages := by
      rw [h.npages]
      exact (h.table _ hva.2 hp).1.1
    exact .inr ⟨p, l, pgdirWalk_found hp hlt true, h, hp, fun _ h => h⟩

/-- An aligned address has no permission bits. -/
theorem aligned_and {pa perm : Word} (ha : pa.toNat % 4096 = 0) (hm : perm.toNat < 4096) :
    pa &&& perm = 0 := by
  have hlt := pa.isLt
  have hpa : pa = pageAddr (pa.toNat / 4096) := by
    apply BitVec.eq_of_toNat_eq
    rw [pageAddr_toNat (by omega)]
    omega
  rw [hpa]
  exact pageAddr_and _ hm

/-- `boot_map_region` above `UTOP`, with permissions that let user mode at most read. -/
theorem bootMapRegion {perm : Word} (hperm : perm &&& pteU ≠ 0 → perm &&& pteW = 0)
    {k : Nat} {va pa : Word} (h : KernTree m.toHardware n l p)
    (hva : ∀ i < k, KernelVa (va + BitVec.ofNat 32 (4096 * i))) (ha : pa.toNat % 4096 = 0) :
    ∃ q l', bootMapRegion m.kernPgdir perm k va pa p = .ret () q ∧
      KernTree m.toHardware n l' q ∧ Grows m.toHardware p q ∧
      (0 < k → l ≠ [] → q.word m.kernPgdir (pdx va) &&& pteP ≠ 0) := by
  induction k generalizing va pa p l with
  | zero => exact ⟨p, l, rfl, h, fun _ h => h, fun hz => absurd hz (Nat.lt_irrefl 0)⟩
  | succ k ih =>
      have hfirst : KernelVa va := by
        have := hva 0 (Nat.succ_pos k)
        rwa [show va + BitVec.ofNat 32 (4096 * 0) = va from BitVec.add_zero va] at this
      rcases h.walk hfirst with ⟨hwalk, hnil⟩ | ⟨q, l', hwalk, hq, hp, hgrows⟩
      · refine ⟨p, l, ?_, h, fun _ h => h, fun _ hne => absurd hnil hne⟩
        rw [Jos.bootMapRegion, bind_ret _ hwalk]
        rfl
      · have hentry : (pa ||| perm ||| pteP) &&& pteU ≠ 0 →
            (pa ||| perm ||| pteP) &&& pteW = 0 := by
          have hU : (pa ||| perm ||| pteP) &&& pteU = perm &&& pteU := by
            rw [BitVec.and_or_distrib_right, BitVec.and_or_distrib_right,
              aligned_and ha (by decide), show pteP &&& pteU = 0 by decide]
            simp
          have hW : (pa ||| perm ||| pteP) &&& pteW = perm &&& pteW := by
            rw [BitVec.and_or_distrib_right, BitVec.and_or_distrib_right,
              aligned_and ha (by decide), show pteP &&& pteW = 0 by decide]
            simp
          rw [hU, hW]
          exact hperm
        have hset := hq.setEntry hfirst.2 hp (j := ptx va) hentry
        have hnext : ∀ i < k, KernelVa (va + 4096 + BitVec.ofNat 32 (4096 * i)) := by
          intro i hi
          have := hva (i + 1) (by omega)
          rwa [show 4096 * (i + 1) = 4096 + 4096 * i by omega, BitVec.ofNat_add,
            ← BitVec.add_assoc] at this
        have hnextpa : (pa + 4096).toNat % 4096 = 0 := by
          rw [BitVec.toNat_add, show (4096 : Word).toNat = 4096 from rfl]
          omega
        have hkeep := hq.setEntry_grows hfirst.2 hp (ptx va) (pa ||| perm ||| pteP)
        obtain ⟨r, l'', hrun, hr, hgrows', -⟩ := ih hset hnext hnextpa
        refine ⟨r, l'', ?_, hr, fun i hi => hgrows' i (hkeep i (hgrows i hi)), fun _ _ =>
          hgrows' _ (hkeep _ hp)⟩
        rw [Jos.bootMapRegion, bind_ret _ hwalk]
        exact hrun

/-- The self tests only touch the free list and free pages. -/
theorem selfTest {q : Phys} (h : KernTree m.toHardware n l p) (test : SelfTest p q) :
    ∃ l', KernTree m.toHardware n l' q ∧ l'.Perm l := by
  obtain ⟨l', hl', hperm⟩ := test.free l h.free
  have hmem : ∀ f, f ∉ l → q.mem f = p.mem f :=
    fun f hf => test.mem f fun hlinked => hf (h.free.linked_iff.mp hlinked)
  have hkern : ∀ i, q.word m.kernPgdir i = p.word m.kernPgdir i :=
    fun i => p.word_congr (hmem _ h.kern_not_mem)
  refine ⟨l', ⟨?_, ?_, hl', ?_, ?_, ?_, ?_, ?_, ?_, ?_, ?_⟩, hperm⟩
  · rw [test.npages, h.npages]
  · rw [test.userPages, h.userPages]
  · intro f hf
    rw [test.ref]
    exact h.managed f (hperm.mem_iff.mp hf)
  · intro f hlt hf
    have hnot : ¬ Linked p.link p.pageFreeList f :=
      fun hlinked => hf (h.managed f (h.free.linked_iff.mp hlinked)).1
    have hold := h.reserved f hlt hf
    have hlink : (q.pages f).link = none := by
      have := test.link f hnot
      rwa [Phys.link, Phys.link, hold] at this
    have href : (q.pages f).ref = 1 := by
      have := congrFun test.ref f
      rwa [Phys.ref, Phys.ref, hold] at this
    rw [← hlink, ← href]
  · simpa only [hkern] using h.user
  · rw [hkern]
    exact h.self
  · intro i hi
    rw [hkern, hperm.mem_iff]
    exact h.table i hi
  · simpa only [hkern] using h.distinct
  · intro i j hi
    rw [hkern]
    intro hp
    rw [p.word_congr (hmem _ (h.table i hi hp).2)]
    exact h.readonly i j hi hp
  · rw [hperm.length_eq]
    simpa only [hkern] using h.room

end KernTree

/-- A range of pages between `UTOP` and `UVPT`, or from `ULIM` on. -/
theorem kernelVa_of_range (va : Word) {k : Nat}
    (hrange : 4005560320 ≤ va.toNat ∧ va.toNat + 4096 * k ≤ 4013948928 ∨
      4018143232 ≤ va.toNat ∧ va.toNat + 4096 * k ≤ 4294967296) :
    ∀ i < k, KernelVa (va + BitVec.ofNat 32 (4096 * i)) := by
  intro i hi
  have hnat : (va + BitVec.ofNat 32 (4096 * i)).toNat = va.toNat + 4096 * i := by
    rw [BitVec.toNat_add, BitVec.toNat_ofNat]
    omega
  have huvpt : (pdx uvpt).val = 957 := by decide
  have hval := pdx_val (va + BitVec.ofNat 32 (4096 * i))
  rw [hnat] at hval
  refine ⟨?_, fun heq => ?_⟩
  · change 955 ≤ (pdx (va + BitVec.ofNat 32 (4096 * i))).val
    omega
  · rw [heq] at hval
    omega

namespace KernTree

variable {m : Machine} {n : Nat} {l : List Nat} {p : Phys}

theorem mmio_next {base : Word} {k : Nat} (hfit : base.toNat + k * 4096 ≤ 4022337536) :
    (base + BitVec.ofNat 32 (k * 4096)).toNat = base.toNat + k * 4096 := by
  rw [BitVec.toNat_add, BitVec.toNat_ofNat]
  omega

/-- A call of `mmio_map_region` that does not overflow its region. -/
theorem mmioMapRegion (h : KernTree m.toHardware n l p) {base pa : Word} {k : Nat}
    (hbase : 4018143232 ≤ base.toNat) (hfit : base.toNat + k * 4096 ≤ 4022337536)
    (ha : pa.toNat % 4096 = 0) :
    ∃ q l', mmioMapRegion m.kernPgdir base pa k p = .ret (base + BitVec.ofNat 32 (k * 4096)) q ∧
      KernTree m.toHardware n l' q ∧ Grows m.toHardware p q ∧
      (0 < k → l ≠ [] → q.word m.kernPgdir (pdx base) &&& pteP ≠ 0) := by
  have hsum := mmio_next hfit
  have hlim : ¬ base + BitVec.ofNat 32 (k * 4096) > mmiolim := by
    have hl : mmiolim.toNat = 4022337536 := by decide
    rw [gt_iff_lt, BitVec.lt_def, hsum, hl]
    omega
  have hperm : (pteW ||| ptePcd ||| ptePwt) &&& pteU ≠ 0 →
      (pteW ||| ptePcd ||| ptePwt) &&& pteW = 0 := by decide
  have hva : ∀ i < k, KernelVa (base + BitVec.ofNat 32 (4096 * i)) :=
    kernelVa_of_range base (.inr ⟨hbase, by omega⟩)
  obtain ⟨q, l', hrun, hq, hgrows, hpresent⟩ := h.bootMapRegion hperm hva ha
  refine ⟨q, l', ?_, hq, hgrows, hpresent⟩
  rw [Jos.mmioMapRegion, if_neg hlim, bind_ret _ hrun]
  rfl

/-- The registers of the local APICs. Past the limit of the region the kernel panics. -/
theorem lapicInits (h : KernTree m.toHardware n l p) {k : Nat} {base next : Word} {q : Phys}
    (hbase : mmiobase ≤ base) (hlim : base ≤ mmiolim)
    (run : lapicInits m.toHardware k base p = .ret next q) :
    ∃ l', KernTree m.toHardware n l' q := by
  have hlow : mmiobase.toNat = 4018143232 := by decide
  have hhigh : mmiolim.toNat = 4022337536 := by decide
  induction k generalizing base p l with
  | zero =>
      rw [Jos.lapicInits, pure_run] at run
      obtain ⟨-, rfl⟩ := Outcome.ret.inj run
      exact ⟨l, h⟩
  | succ k ih =>
      rw [Jos.lapicInits] at run
      cases hl : m.lapicaddr with
      | none =>
          have hnone : lapicInit m.toHardware base p = .ret base p := by
            rw [lapicInit, hl]
            rfl
          rw [bind_ret _ hnone] at run
          exact ih h hbase hlim run
      | some a =>
          have hbase' := BitVec.le_def.mp hbase
          have hlim' := BitVec.le_def.mp hlim
          by_cases hfit : base.toNat + 1 * 4096 ≤ 4022337536
          · obtain ⟨r, l', hrun, hr, -, -⟩ := h.mmioMapRegion (by omega) hfit (page2pa_aligned a)
            have hsome : lapicInit m.toHardware base p = .ret (base + BitVec.ofNat 32 (1 * 4096)) r := by
              rw [lapicInit, hl]
              exact hrun
            have hsum := mmio_next hfit
            rw [bind_ret _ hsome] at run
            exact ih hr (by rw [BitVec.le_def]; omega) (by rw [BitVec.le_def]; omega) run
          · have hover : base + BitVec.ofNat 32 (1 * 4096) > mmiolim := by
              rw [gt_iff_lt, BitVec.lt_def, BitVec.toNat_add, BitVec.toNat_ofNat]
              omega
            have hpanic : lapicInit m.toHardware base p = .panic .mmioLimit := by
              rw [lapicInit, hl]
              dsimp only
              rw [Jos.mmioMapRegion, if_pos hover]
              rfl
            rw [bind_panic _ hpanic] at run
            cases run

/-- Below the limit they succeed. -/
theorem lapicInits_total (h : KernTree m.toHardware n l p) (k : Nat) (base : Word)
    (hbase : 4018143232 ≤ base.toNat) (hfit : base.toNat + k * 4096 ≤ 4022337536) :
    ∃ next q l', Jos.lapicInits m.toHardware k base p = .ret next q ∧
      KernTree m.toHardware n l' q := by
  induction k generalizing base p l with
  | zero => exact ⟨base, p, l, rfl, h⟩
  | succ k ih =>
      have hless : base.toNat + k * 4096 ≤ 4022337536 :=
        (Nat.add_le_add_left (Nat.mul_le_mul_right 4096 (Nat.le_succ k)) _).trans hfit
      have hone : base.toNat + 1 * 4096 ≤ 4022337536 :=
        (Nat.add_le_add_left (Nat.mul_le_mul_right 4096 (Nat.succ_pos k)) _).trans hfit
      cases hl : m.lapicaddr with
      | none =>
          have hnone : lapicInit m.toHardware base p = .ret base p := by
            rw [lapicInit, hl]
            rfl
          obtain ⟨next, q, l', hrun, hq⟩ := ih h _ hbase hless
          refine ⟨next, q, l', ?_, hq⟩
          rw [Jos.lapicInits, bind_ret _ hnone, hrun]
      | some a =>
          obtain ⟨r, l', hrun, hr, -, -⟩ := h.mmioMapRegion (k := 1) hbase hone (page2pa_aligned a)
          have hsome : lapicInit m.toHardware base p = .ret (base + BitVec.ofNat 32 (1 * 4096)) r := by
            rw [lapicInit, hl]
            exact hrun
          have hsum := mmio_next hone
          have hbase' : 4018143232 ≤ (base + BitVec.ofNat 32 (1 * 4096)).toNat := by
            rw [hsum]
            exact hbase.trans (Nat.le_add_right _ _)
          obtain ⟨next, q, l'', hrun', hq⟩ := ih hr _ hbase'
            (by rw [hsum, Nat.add_assoc, ← Nat.add_mul, Nat.add_comm 1]; exact hfit)
          refine ⟨next, q, l'', ?_, hq⟩
          rw [Jos.lapicInits, bind_ret _ hsome, hrun']

/-- Each page that has left the free list became a page table. -/
theorem length_ge (h : KernTree m.toHardware n l p) : n ≤ l.length + 1024 := by
  have hcard := Finset.card_le_univ
    (Finset.univ.filter fun i : Idx => p.word m.kernPgdir i &&& pteP ≠ 0)
  rw [Fintype.card_fin] at hcard
  exact h.room.trans (Nat.add_le_add_left hcard _)

/-- The state before the first test. -/
theorem start (m : Machine) :
    ∃ q l, memInitStart m.toHardware m.powerOn = .ret () q ∧ KernTree m.toHardware l.length l q ∧
      (∀ f, f ∈ l ↔ m.Free f) ∧ ∀ i, i ≠ pdx uvpt → q.word m.kernPgdir i = 0 := by
  let p₀ : Phys := (m.powerOn.setPage m.kernPgdir fun _ => 0).setWord m.kernPgdir (pdx uvpt)
    (page2pa m.kernPgdir ||| pteU ||| pteP)
  have hinit : PageInit m.toHardware 0 p₀ := by
    refine ⟨rfl, rfl, ⟨[], .nil, fun f => ?_⟩, fun f _ => rfl, fun f hf => ?_, fun f _ => rfl⟩
    · simp
    · exact absurd hf (Nat.not_lt_zero f)
  have hspec : wp (memInitStart m.toHardware)
      (fun _ q => PageInit m.toHardware m.npages q ∧ q.mem = p₀.mem) (fun _ _ => False)
      (fun _ => False) m.powerOn := by
    rw [memInitStart, initPgdir]
    simp only [wp_bind, wp_modify]
    exact pageInit_spec hinit rfl
  obtain ⟨_, q, hrun, hpages, hmem⟩ := exists_of_wp hspec
  obtain ⟨l, hl, hiff⟩ := hpages.free
  have hfree : ∀ f, f ∈ l ↔ m.Free f :=
    fun f => (hiff f).trans ⟨fun hf => hf.2, fun hf => ⟨hf.1, hf⟩⟩
  have hword : ∀ i, i ≠ pdx uvpt → q.word m.kernPgdir i = 0 := by
    intro i hi
    rw [p₀.word_congr (by rw [hmem]), Phys.word_setWord_of_ne _ _ hi, Phys.word]
    simp only [Phys.setPage, Function.update_self]
    exact readWord_zero i
  have hpresent : ∀ i, i ≠ pdx uvpt → ¬ q.word m.kernPgdir i &&& pteP ≠ 0 := by
    intro i hi
    rw [hword i hi]
    simp
  have huser : ∀ i : Idx, i.val < userPdes → i ≠ pdx uvpt := by
    rintro i hi rfl
    exact absurd hi (by decide)
  refine ⟨q, l, hrun, ⟨hpages.npages, hpages.userPages, hl, ?_, hpages.reserved, ?_, ?_, ?_, ?_, ?_,
    ?_⟩, hfree, hword⟩
  · intro f hf
    have := (hfree f).mp hf
    exact ⟨this, hpages.ref f this⟩
  · intro i hi
    rw [hword i (huser i hi)]
    simp
  · rw [p₀.word_congr (by rw [hmem]), Phys.word_setWord_self]
  · intro i hi hp
    exact absurd hp (hpresent i hi)
  · intro i j hi hj hp
    exact absurd hp (hpresent i hi)
  · intro i j hi hp
    exact absurd hp (hpresent i hi)
  · exact Nat.le_add_right _ _

/-- `*pgdir_walk(pgdir, va, 0) = 0` in the kernel's half. -/
theorem clearEntry {va : Word} (h : KernTree m.toHardware n l p) (hva : KernelVa va)
    (hp : p.word m.kernPgdir (pdx va) &&& pteP ≠ 0) :
    ∃ q, clearEntry m.kernPgdir va p = .ret () q ∧ KernTree m.toHardware n l q ∧
      Grows m.toHardware p q := by
  have hlt : pgnum (p.word m.kernPgdir (pdx va)) < p.npages := by
    rw [h.npages]
    exact (h.table _ hva.2 hp).1.1
  refine ⟨_, ?_, h.setEntry hva.2 hp (j := ptx va) (w := 0) (by simp),
    h.setEntry_grows hva.2 hp (ptx va) 0⟩
  rw [Jos.clearEntry, bind_ret _ (pgdirWalk_found hp hlt false)]
  rfl

/-- The device addresses that `check_page` uses up. -/
theorem checkMmio (h : KernTree m.toHardware n l p) (hne : l ≠ []) :
    ∃ q l', checkMmio m.kernPgdir p = .ret (mmiobase + 12288) q ∧
      KernTree m.toHardware n l' q := by
  have hbase : 4018143232 ≤ mmiobase.toNat := by decide
  have hmm2 : mmiobase + BitVec.ofNat 32 (2 * 4096) = mmiobase + 8192 := by decide
  have hnext : mmiobase + 8192 + BitVec.ofNat 32 (1 * 4096) = mmiobase + 12288 := by decide
  obtain ⟨q₁, l₁, hrun₁, h₁, -, hpresent⟩ := h.mmioMapRegion (k := 2) hbase (by decide)
    (page2pa_aligned 0)
  rw [hmm2] at hrun₁
  obtain ⟨q₂, l₂, hrun₂, h₂, hgrows₂, -⟩ := h₁.mmioMapRegion (k := 1)
    (show 4018143232 ≤ (mmiobase + 8192).toNat by decide) (by decide) (page2pa_aligned 0)
  rw [hnext] at hrun₂
  have hva : ∀ a : Word, a = mmiobase ∨ a = mmiobase + 4096 ∨ a = mmiobase + 8192 →
      KernelVa a ∧ pdx a = pdx mmiobase := by
    rintro a (rfl | rfl | rfl) <;> exact ⟨⟨by decide, by decide⟩, by decide⟩
  have hp := hgrows₂ _ (hpresent (by decide) hne)
  obtain ⟨q₃, hrun₃, h₃, hgrows₃⟩ := h₂.clearEntry (hva _ (.inl rfl)).1 hp
  obtain ⟨q₄, hrun₄, h₄, hgrows₄⟩ := h₃.clearEntry (hva _ (.inr (.inl rfl))).1
    (by rw [(hva _ (.inr (.inl rfl))).2]; exact hgrows₃ _ hp)
  obtain ⟨q₅, hrun₅, h₅, -⟩ := h₄.clearEntry (hva _ (.inr (.inr rfl))).1
    (by rw [(hva _ (.inr (.inr rfl))).2]; exact hgrows₄ _ (hgrows₃ _ hp))
  refine ⟨q₅, l₂, ?_, h₅⟩
  have hzero : page2pa 0 = 0 := by decide
  rw [hzero] at hrun₁ hrun₂
  rw [Jos.checkMmio, bind_ret _ hrun₁, bind_ret _ hrun₂, bind_ret _ hrun₃, bind_ret _ hrun₄,
    bind_ret _ hrun₅]
  rfl

/-- The mappings above `UTOP`. -/
theorem mapKernel (h : KernTree m.toHardware n l p) :
    ∃ q l', mapKernel m.toHardware p = .ret () q ∧ KernTree m.toHardware n l' q := by
  have hread : (pteU ||| pteP) &&& pteU ≠ 0 → (pteU ||| pteP) &&& pteW = 0 := by decide
  have hkern : (pteW ||| pteP) &&& pteU ≠ 0 → (pteW ||| pteP) &&& pteW = 0 := by decide
  have hpages : pagesFor (m.npages * sizeofPageInfo) ≤ 128 := by
    have hle := m.npages_le
    simp only [pagesFor, sizeofPageInfo, pgsize]
    omega
  have hupages : upages.toNat = 4009754624 := by decide
  obtain ⟨q₁, l₁, hrun₁, h₁, -⟩ := h.bootMapRegion hread
    (kernelVa_of_range upages (k := pagesFor (m.npages * sizeofPageInfo))
      (.inl ⟨by omega, by omega⟩)) (page2pa_aligned m.pagesAlloc.1)
  obtain ⟨q₂, l₂, hrun₂, h₂, -⟩ := h₁.bootMapRegion hread
    (kernelVa_of_range uenvs (k := pagesFor (nenv * sizeofEnv)) (.inl (by decide)))
    (page2pa_aligned m.envsAlloc.1)
  obtain ⟨q₃, l₃, hrun₃, h₃, -⟩ := h₂.bootMapRegion hkern
    (kernelVa_of_range (kstackBase 0) (k := kstkPages) (.inr (by decide)))
    (page2pa_aligned m.bootstack)
  obtain ⟨q₄, l₄, hrun₄, h₄, -⟩ := h₃.bootMapRegion hkern
    (kernelVa_of_range kernbase (k := 65536) (.inr (by decide))) (page2pa_aligned 0)
  have hstacks : wp (memInitMp m.toHardware) (fun _ q => ∃ l', KernTree m.toHardware n l' q)
      (fun _ _ => False) (fun _ => False) q₄ := by
    refine wp_forRange (fun _ q => ∃ l', KernTree m.toHardware n l' q) ?_ ⟨l₄, h₄⟩
    rintro i q hi ⟨l', hq⟩
    have hrange : ∀ i < ncpuMax, 4018143232 ≤ (kstackBase i).toNat ∧
        (kstackBase i).toNat + 4096 * kstkPages ≤ 4294967296 := by decide
    obtain ⟨r, l'', hrun, hr, -⟩ := hq.bootMapRegion hkern
      (kernelVa_of_range (kstackBase i) (.inr (hrange i hi)))
      (page2pa_aligned (m.percpuKstacks i))
    exact (wp_ret hrun).mpr ⟨l'', hr⟩
  obtain ⟨_, q₅, hrun₅, l₅, h₅⟩ := exists_of_wp hstacks
  refine ⟨q₅, l₅, ?_, h₅⟩
  have hzero : page2pa 0 = 0 := by decide
  rw [hzero] at hrun₄
  rw [Jos.mapKernel, bind_ret _ hrun₁, bind_ret _ hrun₂, bind_ret _ hrun₃, bind_ret _ hrun₄]
  exact hrun₅

theorem memInitRest (h : KernTree m.toHardware n l p) (hne : l ≠ []) :
    ∃ q l', memInitRest m.toHardware p = .ret (mmiobase + 12288) q ∧
      KernTree m.toHardware n l' q := by
  obtain ⟨q₁, l₁, hrun₁, h₁⟩ := h.checkMmio hne
  obtain ⟨q₂, l₂, hrun₂, h₂⟩ := h₁.mapKernel
  refine ⟨q₂, l₂, ?_, h₂⟩
  rw [Jos.memInitRest, bind_ret _ hrun₁, bind_ret _ hrun₂]
  rfl

/-- The finished kernel half; what is still free belongs to the allocator. -/
def layout (h : KernTree m.toHardware n l p) : Layout where
  boot := p
  kern := m.kernPgdir
  owned f := f ∈ l
  npages_le := by
    rw [h.npages]
    exact m.npages_le
  owned_lt f hf := by
    rw [h.npages]
    exact (h.managed f hf).1.1
  kern_lt := by
    rw [h.npages]
    exact m.kern_not_free.2
  kern_reserved := h.kern_not_mem
  kern_empty := h.user
  table_reserved i _ hp := by
    by_cases hi : i = pdx uvpt
    · have hlt := m.kern_not_free.2
      have hle := m.npages_le
      have hself : p.word m.kernPgdir i = mkPte m.kernPgdir pteU := by
        rw [hi]
        exact h.self
      rw [hself, pgnum_mkPte (by omega) (by decide), h.npages]
      exact ⟨hlt, h.kern_not_mem⟩
    · obtain ⟨hfree, hnot⟩ := h.table i hi hp
      rw [h.npages]
      exact ⟨hfree.1, hnot⟩
  user_readonly i j _ hi hp hU := h.readonly i j hi hp hU

/-- Without any environment the invariant is about the free list only. -/
theorem inv (h : KernTree m.toHardware n l p) {dirs : EnvIdx → Option Nat}
    (hdirs : ∀ e, dirs e = none) : p.Inv h.layout dirs none := by
  have hpde : ∀ e i, p.pdeAt dirs e i = 0 := by
    intro e i
    simp [Phys.pdeAt, hdirs e]
  have htarget : ∀ s, p.target dirs s = none := by
    intro s
    cases s with
    | dir e => exact hdirs e
    | pde e i => rw [Phys.target, hpde]; exact entryFrame_zero
    | pte e i j =>
        rw [Phys.target, Phys.pteAt_of_none]
        · exact entryFrame_zero
        · rw [Phys.target, hpde]
          exact entryFrame_zero
  refine ⟨rfl, ⟨?_, ?_, ?_, ?_, ?_, fun _ _ => rfl, ?_, ?_⟩, ⟨⟨l, h.free, ?_, ?_⟩, ?_, fun _ _ => rfl,
    ?_⟩⟩
  · intro s f hf
    simp [htarget] at hf
  · intro s s' f hf
    simp [htarget] at hf
  · intro e i hi
    simp [htarget] at hi
  · intro e d i hd
    simp [hdirs] at hd
  · intro e d hd
    simp [hdirs] at hd
  · intro e i j f hf
    simp [htarget] at hf
  · intro e i j _
    refine Phys.pteAt_of_none ?_
    rw [htarget]
  · exact fun f hf => ⟨hf, (h.managed f hf).2⟩
  · exact fun f hf hnot => absurd hf hnot
  · intro f hf
    rw [(h.managed f hf).2, RefCount.eq_zero_iff.mpr fun s => by simp [htarget]]
    rfl
  · simp

end KernTree

end Jos
