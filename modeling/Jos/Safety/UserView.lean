import Jos.Pmap.Virtual
import Jos.Safety.Frames
import Jos.Safety.References

/-!
# The page tables as the user sees them (`lib/entry.S`)

Each page directory is its own page table for the 4 MB at `UVPT`. So the entry for
the page `pn` can be read at `uvpt + 4*pn`, without a system call, and directory
entry `i` at `uvpd + 4*i`; `fork` relies on it. The user sees what `pgdir_walk`
sees, as long as the directory is not freed while it is in use.
-/

namespace Jos

open Prog

/-- What the x86 walk of `d` finds at `uvpt` and `uvpd` are the entries themselves. -/
structure ViewsAgree (d : Nat) (p : Phys) : Prop where
  /-- Nothing is mapped at `va = uvpt + 4*pn` exactly if `pgdir_walk` returns null, and
  otherwise `va` is the very word that it points to. -/
  table : ∀ pn < 1048576, ∀ va, va = uvpt + 4 * BitVec.ofNat 32 pn → pgoff va % 4 = 0 ∧
    pgdirWalk d (BitVec.ofNat 32 pn * 4096) false p =
      .ret ((p.translate d va).map fun entries => ⟨pgnum entries.2, Fin.ofNat 1024 (pgoff va / 4)⟩)
        p
  directory : ∀ i : Idx, ∃ pde pte, p.translate d (uvpd + 4 * BitVec.ofNat 32 i) = some (pde, pte) ∧
    pgnum pte = d ∧ pgoff (uvpd + 4 * BitVec.ofNat 32 i) = 4 * i

namespace MemInv

variable {L : Layout} {k : Kernel} {e : EnvIdx} {d pn : Nat}

/-- The walk of an address in the self-map goes through the directory twice. -/
theorem translate_uvpt (h : MemInv L k) (hd : k.dirs e = some d) (hpn : pn < 1048576) :
    k.phys.translate d (uvpt + 4 * BitVec.ofNat 32 pn) =
      if k.phys.word d (pdx (BitVec.ofNat 32 pn * 4096)) &&& pteP = 0 then none
      else some (k.phys.word d (pdx uvpt), k.phys.word d (pdx (BitVec.ofNat 32 pn * 4096))) := by
  obtain ⟨hp, hnum⟩ := h.selfMap hd
  exact Phys.translate_uvpt hp hnum hpn

theorem viewsAgree (h : MemInv L k) (hd : k.dirs e = some d) : ViewsAgree d k.phys := by
  refine ⟨?_, fun i => ?_⟩
  · rintro pn hpn _ rfl
    rw [h.translate_uvpt hd hpn, pgoff_uvpt hpn, pgdirWalk_false]
    refine ⟨by omega, ?_⟩
    split
    · rfl
    · rename_i hp
      have hidx : Fin.ofNat 1024 (4 * (ptx (BitVec.ofNat 32 pn * 4096)).val / 4) =
          ptx (BitVec.ofNat 32 pn * 4096) := by
        apply Fin.ext
        have hlt := (ptx (BitVec.ofNat 32 pn * 4096)).isLt
        rw [Fin.val_ofNat]
        omega
      rw [if_neg (by have := h.table_lt hd hp; omega), hidx]
      rfl
  · have hi := i.isLt
    have hpn : 979968 + i.val < 1048576 := by omega
    obtain ⟨hp, hnum⟩ := h.selfMap hd
    have hpdx : pdx (BitVec.ofNat 32 (979968 + i) * 4096) = pdx uvpt := by
      apply Fin.ext
      have hval : (pdx uvpt).val = 957 := by decide
      rw [hval, pdx_val, pn_toNat hpn]
      omega
    refine ⟨k.phys.word d (pdx uvpt), k.phys.word d (pdx uvpt), ?_, hnum, ?_⟩
    · rw [uvpd_eq, h.translate_uvpt hd hpn, hpdx, if_neg hp]
    · rw [uvpd_eq, pgoff_uvpt hpn, ptx_val, pn_toNat hpn]
      omega

end MemInv

/-- In every run in which nothing is removed where nothing is mapped, and no page gets a
65536th reference. -/
theorem user_view_agrees {m : Machine} {k₀ k : Kernel} {hand : List Nat}
    (booted : Booted m [] k₀) (run : PageRun (fun k op => op.Sane k) k₀ k hand) :
    ∀ e d, k.status e ≠ .free → k.dirs e = some d → ViewsAgree d k.phys := by
  obtain ⟨L, -, hstart, -⟩ := booted.holdInv
  exact fun e d _ hd => (hstart.run run).mem.viewsAgree hd

/-- For example in the first address space. -/
theorem user_view_agrees_firstPage : ∃ k₀ k d f, Booted qemu [] k₀ ∧
    PageRun (fun k op => op.Sane k) k₀ k [] ∧ FirstPage d f k ∧ ViewsAgree d k.phys := by
  obtain ⟨k₀, k, d, f, booted, run, hpage⟩ := qemu_firstPage
  exact ⟨k₀, k, d, f, booted, run, hpage, user_view_agrees booted run 0 d hpage.used hpage.pgdir⟩

/-! ### A directory that is freed while it is in use -/

/-- The environment 0 has a page table `t` with holes, in which `f` is mapped at `0x800000`. -/
structure HoleEnv (d t f : Nat) (k : Kernel) : Prop where
  pgdir : k.dirs 0 = some d
  used : k.status 0 ≠ .free
  holes : k.phys.Holes d t 0x801000 0x802000
  entry : k.phys.word t (ptx 0x800000) = mkPte f (pteU ||| pteW)
  page_lt : f < k.phys.npages
  npages_le : k.phys.npages ≤ 65536
  dir_ne : d ≠ 0
  table_ne : t ≠ 0

namespace HoleEnv

variable {d t f : Nat} {k : Kernel}

theorem pageAt (h : HoleEnv d t f k) : k.pageAt 0 0x800000 = some f := by
  have hlt := h.page_lt
  have hn := h.npages_le
  refine (Phys.maps_iff h.pgdir (by decide)).mp ?_
  have hpdx : pdx 0x800000 = pdx 0x801000 := by decide
  rw [Phys.maps_of_table (by rw [hpdx]; exact h.holes.present), hpdx, h.holes.table, h.entry]
  exact ⟨mkPte_present _ _, pgnum_mkPte (by omega) (by decide)⟩

/-- Only the memory of other pages has changed. -/
theorem congr (h : HoleEnv d t f k) {k' : Kernel} (hdirs : k'.dirs 0 = k.dirs 0)
    (hstatus : k'.status 0 = k.status 0) (hn : k'.phys.npages = k.phys.npages)
    (hdir : k'.phys.mem d = k.phys.mem d)
    (htable : ∀ j, k'.phys.word t j = k.phys.word t j) : HoleEnv d t f k' := by
  have hword : k'.phys.word d (pdx 0x801000) = k.phys.word d (pdx 0x801000) :=
    k.phys.word_congr hdir
  refine ⟨hdirs.trans h.pgdir, by rw [hstatus]; exact h.used,
    ⟨h.holes.sameTable, h.holes.distinct, ?_, ?_, ?_, h.holes.table_ne, ?_, ?_⟩, ?_, ?_, ?_,
    h.dir_ne, h.table_ne⟩
  · rw [hword]
    exact h.holes.present
  · rw [hword]
    exact h.holes.table
  · rw [hn]
    exact h.holes.table_lt
  · rw [htable]
    exact h.holes.first
  · rw [htable]
    exact h.holes.second
  · rw [htable]
    exact h.entry
  · rw [hn]
    exact h.page_lt
  · rw [hn]
    exact h.npages_le

/-- Unmapping a hole frees the page 0. -/
theorem unmap (h : HoleEnv d t f k) (hzero : k.phys.pages 0 = ⟨none, 1⟩) :
    ∃ p, PageOp.exec [] (.remove 0 0x801000) k = .ret [] { k with phys := p } ∧
      HoleEnv d t f { k with phys := p } ∧ p.pageFreeList = some 0 ∧ p.ref 0 = 0 ∧
      ∀ g, g ≠ t → p.mem g = k.phys.mem g := by
  have hlink : k.phys.link 0 = none := congrArg PageInfo.link hzero
  have href : k.phys.ref 0 = 1 := congrArg PageInfo.ref hzero
  obtain ⟨hrun, -⟩ := h.holes.remove hlink
  have hmem : ∀ g, g ≠ t → ((k.phys.drop 0).setWord t (ptx 0x801000) 0).mem g = k.phys.mem g := by
    intro g hg
    rw [Phys.mem_setWord_of_ne _ _ hg, Phys.Inv.drop_mem]
  refine ⟨(k.phys.drop 0).setWord t (ptx 0x801000) 0, ?_, h.congr rfl rfl ?_ ?_ fun j => ?_, ?_, ?_,
    hmem⟩
  · rw [PageOp.exec, bind_ret _ (pgdirOf_run h.pgdir), bind_ret _ (pmap_ret hrun)]
    rfl
  · exact Phys.Inv.drop_npages k.phys 0
  · exact hmem d h.holes.table_ne.symm
  · change ((k.phys.drop 0).setWord t (ptx 0x801000) 0).word t j = _
    by_cases hj : j = ptx 0x801000
    · rw [hj, Phys.word_setWord_self, h.holes.first]
    · rw [Phys.word_setWord_of_ne _ _ hj]
      exact k.phys.word_congr (by rw [Phys.Inv.drop_mem])
  · exact (Phys.drop_last href).1
  · change (k.phys.drop 0).ref 0 = 0
    rw [Phys.drop_ref_self, href]
    rfl

/-- The next environment gets the page 0 as its page directory. -/
theorem newEnv (h : HoleEnv d t f k) (hfree : k.phys.pageFreeList = some 0)
    (href : k.phys.ref 0 = 0) (slots : k.envFreeList = some 1) (hkern : k.kernPgdir ≠ 0) :
    ∃ p, PageOp.exec [] (.envAlloc 0) k = .ret [] { k.created 1 0 0 with phys := p } ∧
      HoleEnv d t f { k.created 1 0 0 with phys := p } ∧ p.pages 0 = ⟨none, 1⟩ ∧
      ∀ i, i ≠ pdx uvpt → p.word 0 i = k.phys.word k.kernPgdir i := by
  have hlt : 0 < k.phys.npages := Nat.lt_of_le_of_lt (Nat.zero_le _) h.page_lt
  have hmem : ∀ g, g ≠ 0 → (k.phys.newDir k.kernPgdir 0).mem g = k.phys.mem g := by
    intro g hg
    rw [Phys.newDir, Phys.mem_setWord_of_ne _ _ hg]
    change (((k.phys.alloc 0 true).setPage 0 _).mem g) = _
    rw [Phys.mem_setPage_of_ne _ _ hg]
    exact (k.phys.take 0).mem_setPage_of_ne _ hg
  have henvs : (k.created 1 0 0).envs 0 = k.envs 0 := by
    simp [Kernel.created, Kernel.setEnv]
  refine ⟨k.phys.newDir k.kernPgdir 0,
    bind_ret _ (envAlloc_run 0 slots hfree hlt h.npages_le), h.congr ?_ ?_ rfl (hmem d h.dir_ne)
      fun j => k.phys.word_congr (hmem t h.table_ne), ?_, fun i hi => ?_⟩
  · exact congrArg Env.pgdir henvs
  · exact congrArg Env.status henvs
  · have hpage : ∀ r, (((k.phys.alloc 0 true).setPage 0 ((k.phys.alloc 0 true).mem
        k.kernPgdir)).setRef 0 r).pages 0 = ⟨none, r⟩ := by
      intro r
      simp [Phys.setRef, Phys.setPage, Phys.alloc, Phys.take, Phys.setLink]
    have hzero : (k.phys.alloc 0 true).ref 0 = 0 := by
      have htake : (k.phys.take 0).ref = k.phys.ref := Phys.setLink_ref _ _
      change (k.phys.take 0).ref 0 = 0
      rw [htake, href]
    refine (hpage _).trans ?_
    change (⟨none, (k.phys.alloc 0 true).ref 0 + 1⟩ : PageInfo) = _
    rw [hzero]
    rfl
  · rw [Phys.newDir, Phys.word_setWord_of_ne _ _ hi]
    change readWord (Function.update (k.phys.alloc 0 true).mem 0 _ 0) i = _
    rw [Function.update_self]
    exact k.phys.word_congr ((k.phys.take 0).mem_setPage_of_ne _ hkern)

/-- A free page directory becomes its own page table. -/
theorem insert (h : HoleEnv d t f k) (hd : k.dirs 1 = some 0)
    (hfree : k.phys.pageFreeList = some 0)
    (hpde : k.phys.word 0 (pdx 0x800000) &&& pteP = 0) :
    ∃ p, PageOp.exec [] (.insert 1 f 0x800000 (pteU ||| pteW)) k =
        .ret [] { k with phys := p } ∧ p.word 0 (pdx uvpt) = 0 ∧
      p.word 0 (pdx 0x800000) = mkPte 0 (pteW ||| pteU) ∧ 0 < p.npages := by
  have hlt : 0 < k.phys.npages := Nat.lt_of_le_of_lt (Nat.zero_le _) h.page_lt
  have hwalk := pgdirWalk_create hpde hfree hlt h.npages_le
  -- the directory is cleared for its new use
  have hblank : ∀ i, i ≠ pdx 0x800000 →
      (k.phys.growTable 0 0 (pdx 0x800000)).word 0 i = 0 := by
    intro i hi
    rw [Phys.growTable, Phys.word_setWord_of_ne _ _ hi]
    change readWord (Function.update (k.phys.take 0).mem 0 _ 0) i = _
    rw [Function.update_self]
    exact readWord_zero i
  have hself : (k.phys.growTable 0 0 (pdx 0x800000)).word 0 (pdx 0x800000) =
      mkPte 0 (pteW ||| pteU) := by
    rw [Phys.growTable, Phys.word_setWord_self, page2pa, tablePde_eq]
  have hempty : (k.phys.growTable 0 0 (pdx 0x800000)).word 0 (ptx 0x800000) &&& pteP = 0 := by
    rw [hblank _ (by decide)]
    decide
  have hinto : insertInto 1 f 0x800000 (pteU ||| pteW) k = .ret 0 { k with
      phys := ((k.phys.growTable 0 0 (pdx 0x800000)).setWord 0 (ptx 0x800000)
        (mkPte f (pteU ||| pteW))).setRef f ((k.phys.growTable 0 0 (pdx 0x800000)).ref f + 1) } := by
    rw [insertInto, bind_ret _ (pgdirOf_run hd)]
    exact pmap_ret (pageInsert_empty hwalk hempty)
  have hword : ∀ i, i ≠ ptx 0x800000 →
      (((k.phys.growTable 0 0 (pdx 0x800000)).setWord 0 (ptx 0x800000)
        (mkPte f (pteU ||| pteW))).setRef f ((k.phys.growTable 0 0 (pdx 0x800000)).ref f + 1)).word
          0 i = (k.phys.growTable 0 0 (pdx 0x800000)).word 0 i :=
    fun i hi => Phys.word_setWord_of_ne _ _ hi
  refine ⟨_, bind_ret _ hinto, ?_, ?_, hlt⟩
  · rw [hword _ (by decide), hblank _ (by decide)]
  · rw [hword _ (by decide), hself]

end HoleEnv

theorem FirstPage.holeEnv {L : Layout} {m : Machine} {k : Kernel} {d f : Nat} (h : FirstPage d f k)
    (hmem : MemInv L k) (hsets : m.Sets L) : ∃ t, HoleEnv d t f k ∧ t ≠ k.kernPgdir := by
  have hidx : pdx 0x800000 = 2 ∧ ptx 0x800000 = 0 := by decide
  have hpage := h.pageAt
  have hentry := h.mapped
  rw [Kernel.entryAt, hidx.1, hidx.2] at hentry
  rw [Kernel.pageAt, hidx.1, hidx.2] at hpage
  obtain ⟨t, ht, holes⟩ := hmem.holes h.pgdir hpage fun j hj => h.unmapped 2 j fun heq => hj heq.2
  have hne : ∀ g, L.owned g → g ≠ 0 := by
    rintro _ hg rfl
    exact (hsets.owned 0 hg).2.1 rfl
  have howned := hmem.phys.tables.owned _ t ht
  refine ⟨t, ⟨h.pgdir, h.used, holes, ?_, hmem.phys.lt_npages (hmem.phys.tables.owned _ f hpage),
    hmem.phys.npages_le, hne d (hmem.phys.tables.dir_owned h.pgdir), hne t howned⟩, ?_⟩
  · rw [hidx.2, ← hentry]
    exact (Phys.pteAt_of_table ht).symm
  · rw [hmem.kern]
    rintro rfl
    exact L.kern_reserved howned

/-- Two removals where nothing is mapped: the first makes the reserved page 0 a page
directory, the second frees that directory, and the next `page_insert` takes it for a page
table. `pgdir_walk` finds a table, but the directory no longer maps itself. -/
theorem user_view_differs : ∃ k₀ k, Booted qemu [] k₀ ∧ PageRun (fun _ _ => True) k₀ k [] ∧
    k.status 1 ≠ .free ∧ k.dirs 1 = some 0 ∧ ¬ ViewsAgree 0 k.phys := by
  obtain ⟨k₀, k, d, f, booted, run, hpage⟩ := qemu_firstPage
  obtain ⟨L, hsets, h₀, -⟩ := booted.holdInv
  have hmem := (h₀.run run).mem
  obtain ⟨t, h, htk⟩ := hpage.holeEnv hmem hsets
  have hkern : k.kernPgdir ≠ 0 := by
    rw [hmem.kern, hsets.kern]
    decide
  have hempty : k.phys.word k.kernPgdir (pdx 0x800000) &&& pteP = 0 := by
    rw [hmem.kern, L.boot.word_congr (hmem.phys.tables.frozen L.kern L.kern_reserved)]
    exact L.kern_empty _ (by decide)
  have weak : PageRun (fun _ _ => True) k₀ k [] := run.weaken
  obtain ⟨p₁, hrun₁, h₁, hfree₁, href₁, hmem₁⟩ := h.unmap (hsets.page_zero hmem)
  have run₁ := weak.step (.remove 0 0x801000) ⟨h.used, by decide⟩ trivial hrun₁
  obtain ⟨p₂, hrun₂, h₂, hzero₂, hword₂⟩ := h₁.newEnv hfree₁ href₁ hpage.slots hkern
  have run₂ := run₁.step (.envAlloc 0) trivial trivial hrun₂
  obtain ⟨p₃, hrun₃, h₃, hfree₃, -, hmem₃⟩ := h₂.unmap hzero₂
  have run₃ := run₂.step (.remove 0 0x801000) ⟨h₂.used, by decide⟩ trivial hrun₃
  -- the free directory has no user half yet
  have hpde : p₃.word 0 (pdx 0x800000) &&& pteP = 0 := by
    rw [p₂.word_congr (hmem₃ 0 h₂.table_ne.symm), hword₂ _ (by decide),
      k.phys.word_congr (hmem₁ _ htk.symm)]
    exact hempty
  have hd₁ : (k.created 1 0 0).dirs 1 = some 0 := by simp [Kernel.dirs, Kernel.created]
  have hused₁ : (k.created 1 0 0).status 1 ≠ .free := by simp [Kernel.status, Kernel.created]
  obtain ⟨p₄, hrun₄, huvpt, htable, hlt⟩ := h₃.insert hd₁ hfree₃ hpde
  have run₄ := run₃.step (.insert 1 f 0x800000 (pteU ||| pteW))
    ⟨hused₁, by decide, by decide, .inr ⟨0, _, h₃.pageAt⟩⟩ trivial hrun₄
  refine ⟨k₀, _, booted, run₄, hused₁, hd₁, fun hviews => ?_⟩
  obtain ⟨-, hwalk⟩ := hviews.table 2048 (by decide) _ rfl
  have hnone : p₄.translate 0 (uvpt + 4 * BitVec.ofNat 32 2048) = none := by
    refine Phys.translate_of_no_table ?_
    rw [pdx_uvpt (by decide), huvpt]
    decide
  have hva : BitVec.ofNat 32 2048 * 4096 = (0x800000 : Word) := by decide
  have hnum : pgnum (mkPte 0 (pteW ||| pteU)) = 0 := pgnum_mkPte (by decide) (by decide)
  rw [hva, pgdirWalk_found (by rw [htable]; exact mkPte_present _ _) (by rw [htable, hnum]; exact hlt)]
    at hwalk
  obtain ⟨hfound, -⟩ := Outcome.ret.inj hwalk
  rw [hnone] at hfound
  simp at hfound

end Jos
