import Jos.Safety.Sharing

/-!
# Isolation in every reachable state

No page of the free list is in anybody's reach, the kernel's half of the address spaces does not
change, and user code reaches pages that were allocated as user pages only. Each holds as long as
no entry makes one of the requests of `SafeStep`, and fails after such a request.

What an environment can reach is what a walk of its page directory finds in memory: the machine
of these runs has no TLB. `Pmap/Tlb` models the one whose entries may be stale.
-/

namespace Jos

variable {m : Machine} {binaries : List Binary} {k₀ k : Kernel} {L : Layout}

/-- In every reachable state the pages of the free list, and with them the page that
`page_alloc` hands out, are out of everybody's reach: no walk leads to them. There is no TLB. -/
theorem free_pages_unused (booted : Booted m binaries k₀) (run : Run SafeStep k₀ k) :
    (∀ f, k.phys.Listed f → k.Unused f) ∧
      ∀ zero f p, pageAlloc zero k.phys = .ret (some f) p → k.Unused f := by
  obtain ⟨L, -, -, h, -⟩ := booted.run run
  refine ⟨fun f hf => h.unused_of_listed hf, fun zero f p halloc => h.unused_of_listed ?_⟩
  cases head : k.phys.pageFreeList with
  | none =>
      rw [pageAlloc_none head] at halloc
      simp at halloc
  | some g =>
      have hlt := h.phys.lt_npages (h.phys.alloc head true).2.1.owned
      rw [pageAlloc_some head hlt h.phys.npages_le] at halloc
      obtain ⟨hfg, -⟩ := Outcome.ret.inj halloc
      rw [Phys.Listed, head, ← Option.some.inj hfg]
      exact .here g

/-- Parent and child execute on two CPUs and share a page, and the child has unmapped another
one. -/
theorem free_pages_unused_qemu : ∃ k₀ k d d' f, Booted qemu [intProgram] k₀ ∧
    Run SafeStep k₀ k ∧ Shares d d' f k ∧ (∃ g, k.phys.Listed g) ∧
    ∀ g, k.phys.Listed g → k.Unused g := by
  obtain ⟨k₀, k, d, d', f, hbooted, hclean, hshares, -, hroom⟩ := qemu_shares
  have hrun : Run SafeStep k₀ k := Run.mono hclean fun _ _ h => h.safe
  obtain ⟨g, head⟩ := Phys.FreePages.head hroom
  have hlisted : k.phys.Listed g := by
    rw [Phys.Listed, head]
    exact .here g
  exact ⟨k₀, k, d, d', f, hbooted, hrun, hshares, ⟨g, hlisted⟩, (free_pages_unused hbooted hrun).1⟩

/-- The first environment unmaps a hole at `0x801000`, which puts the page 0 on the free list,
and maps that hole at `0x802000`. -/
theorem free_page_mapped : ∃ k₀ k, Booted qemu [intProgram] k₀ ∧ Run (fun _ _ => True) k₀ k ∧
    ∃ f, k.phys.Listed f ∧ ¬ k.Unused f := by
  obtain ⟨k₀, k, d, t, head, hbooted, hrun, hleak⟩ := qemu_leaks
  refine ⟨k₀, k, hbooted, hrun, 0, hleak.listed, fun hunused => ?_⟩
  obtain ⟨d', hd', -, -, hpages⟩ := hunused 0 (by rw [hleak.executes.running]; decide)
  obtain rfl : d = d' := Option.some.inj (hleak.executes.pgdir.symm.trans hd')
  exact hpages _ _ _ (by decide) hleak.mapped (by decide)

/-- In every reachable state the address spaces agree above `UTOP` with what `mem_init`
built, and the pages of `pages[]` and `envs[]` are in use as often as at the start. -/
theorem kernel_half_unchanged (booted : Booted m binaries k₀) (run : Run SafeStep k₀ k) :
    (∀ e d va, k.status e ≠ .free → (k.envs e).pgdir = some d → utop ≤ va → pdx va ≠ pdx uvpt →
      k.phys.word d (pdx va) = k₀.phys.word m.kernPgdir (pdx va) ∧
        (k.phys.word d (pdx va) &&& pteP ≠ 0 →
          k.phys.word (pgnum (k.phys.word d (pdx va))) (ptx va) =
            k₀.phys.word (pgnum (k.phys.word d (pdx va))) (ptx va))) ∧
      ∀ f, m.pagesAlloc.1 ≤ f → f < m.firstFree →
        k.phys.ref f = k₀.phys.ref f ∧ ¬ k.phys.Listed f := by
  obtain ⟨L, hsets, h₀, h, -⟩ := booted.run run
  refine ⟨fun e d va hlive hd hva huvpt => ?_, fun f hlow hhigh => ?_⟩
  · obtain ⟨hpde, hpte⟩ := h₀.kernel_half h hd hva huvpt
    rw [hsets.kern] at hpde
    exact ⟨hpde, fun hp => (hpte hp).2⟩
  · have hf : ¬ L.owned f := fun howned => m.arrays_not_free hlow hhigh (hsets.owned f howned)
    refine ⟨?_, fun hlisted => hf (h.phys.counts.ref_of_listed hlisted).1⟩
    rw [Phys.ref, h.phys.counts.frozen f hf, Phys.ref, h₀.phys.counts.frozen f hf]

/-- The child's directory has the entry of `kern_pgdir` for `UTOP`, and the pages of `pages[]` and
`envs[]` are in use as often as at the start. -/
theorem kernel_half_unchanged_qemu : ∃ k₀ k d d' f, Booted qemu [intProgram] k₀ ∧
    Run SafeStep k₀ k ∧ Shares d d' f k ∧
    k.phys.word d' (pdx utop) = k₀.phys.word qemu.kernPgdir (pdx utop) ∧
    ∀ g, qemu.pagesAlloc.1 ≤ g → g < qemu.firstFree →
      k.phys.ref g = k₀.phys.ref g ∧ ¬ k.phys.Listed g := by
  obtain ⟨k₀, k, d, d', f, hbooted, hclean, hshares, -, -⟩ := qemu_shares
  have hrun : Run SafeStep k₀ k := Run.mono hclean fun _ _ h => h.safe
  obtain ⟨hhalf, harrays⟩ := kernel_half_unchanged hbooted hrun
  have hlive : k.status 1 ≠ .free := by
    rw [hshares.child.running]
    decide
  exact ⟨k₀, k, d, d', f, hbooted, hrun, hshares,
    (hhalf 1 d' utop hlive hshares.child.pgdir (BitVec.le_refl utop) (by decide)).1, harrays⟩

/-- In every reachable state what user code can reach below `UTOP`, through the entries in memory
and not a TLB, are pages that were allocated as user pages: none that page_init reserves, and no
page table or directory. A source address with no mapping is refused. -/
theorem user_pages_isolated (booted : Booted m binaries k₀) (run : Run SafeStep k₀ k) :
    (∀ e d va pde pte, k.status e ≠ .free → (k.envs e).pgdir = some d → va < utop →
      k.phys.translate d va = some (pde, pte) → pte &&& pteU ≠ 0 →
      pgnum pte ∈ k.phys.userPages ∧ pgnum pte ≠ 0 ∧ pgnum pte ≠ mpentryPaddr / pgsize ∧
        ¬ (iophysmem / pgsize ≤ pgnum pte ∧ pgnum pte < extphysmem / pgsize) ∧
        ¬ (extphysmem / pgsize ≤ pgnum pte ∧ pgnum pte < m.firstFree) ∧
        ∀ e' d', k.status e' ≠ .free → (k.envs e').pgdir = some d' → pgnum pte ≠ d' ∧
          ∀ i, k.phys.word d' i &&& pteP ≠ 0 → pgnum (k.phys.word d' i) ≠ pgnum pte) ∧
      ∀ c cur tf cr2 input, k.mode c = .user → k.Enters c cur →
        SafeStep k (.trap c tf cr2 input) →
        (∀ src dst, tf.Calls .pageMap → k.envid2env cur tf.regs.edx true = some src →
          k.envid2env cur tf.regs.ebx true = some dst → ¬ k.Mapped src tf.regs.ecx →
          syscall c cur input tf.regs.eax tf.regs.edx tf.regs.ecx tf.regs.ebx tf.regs.edi
            tf.regs.esi (k.setTf cur tf) = .ret (-eInval) (k.setTf cur tf)) ∧
          ∀ dst, tf.Calls .ipcTrySend → k.envid2env cur tf.regs.edx false = some dst →
            (k.envs dst).ipcRecving = true → tf.regs.ebx < utop → ¬ k.Mapped cur tf.regs.ebx →
            syscall c cur input tf.regs.eax tf.regs.edx tf.regs.ecx tf.regs.ebx tf.regs.edi
              tf.regs.esi (k.setTf cur tf) = .ret (-eInval) (k.setTf cur tf) := by
  obtain ⟨L, hsets, -, h, hex⟩ := booted.run run
  refine ⟨fun e d va pde pte hlive hd hva walk _ => ?_,
    fun c cur tf cr2 input mode enters safe => ?_⟩
  · obtain ⟨huser, howned, hplain⟩ := h.target_of_mapped hd hva walk
    obtain ⟨-, hzero, hfree⟩ := hsets.owned _ howned
    have hbase := m.basemem_le
    have hgt := m.basemem_gt
    simp only [iophysmem, extphysmem, mpentryPaddr, pgsize] at hfree hbase hgt ⊢
    refine ⟨huser, hzero, by omega, by omega, by omega, fun e' d' _ hd' => ⟨?_, fun i hp heq => ?_⟩⟩
    · rintro rfl
      exact hplain (.inl ⟨e', hd'⟩)
    · rcases h.table_cases hd' hp with ht | ht | ht
      · exact hplain (.inr ⟨e', i, heq ▸ ht⟩)
      · exact hplain (.inl ⟨e', by rw [← heq, ht]; exact hd'⟩)
      · exact ht (heq ▸ howned)
  · have hused : (k.setTf cur tf).status cur ≠ .free := by
      rw [Kernel.setTf_status]
      exact ((hex.enter executing mode).own c cur rfl enters.1).1
    have h₁ : MemInv L (k.setTf cur tf) := h.setTf
    have hcall := (safe.memory cur enters).setTf
    refine ⟨fun src dst call hsrc hdst hnone => ?_, fun dst call hdst hrecv hva hnone => ?_⟩
    · rw [← Kernel.envid2env_setTf] at hsrc hdst
      refine h₁.map_refused hused hcall call hsrc hdst ?_
      · rw [Kernel.pageAt_setTf]
        exact MemInv.pageAt_of_unmapped hnone
    · rw [← Kernel.envid2env_setTf] at hdst
      refine h₁.send_refused hused hcall call hdst ?_ hva ?_
      · rw [← hrecv]
        exact Kernel.setEnv_field (f := Env.ipcRecving) (by rfl) dst
      · rw [Kernel.pageAt_setTf]
        exact MemInv.pageAt_of_unmapped hnone

/-- The page that the child has from its parent. -/
theorem user_pages_isolated_qemu : ∃ k₀ k d d' f, Booted qemu [intProgram] k₀ ∧
    Run SafeStep k₀ k ∧ Shares d d' f k ∧ f ∈ k.phys.userPages ∧ f ≠ 0 ∧ f ≠ d ∧ f ≠ d' := by
  obtain ⟨k₀, k, d, d', f, hbooted, hclean, hshares, -, -⟩ := qemu_shares
  have hrun : Run SafeStep k₀ k := Run.mono hclean fun _ _ h => h.safe
  obtain ⟨L, -, -, hmem, -⟩ := hbooted.run hrun
  obtain ⟨walk, -⟩ := hmem.page_walk hshares.child.pgdir (show (0x800000 : Word) < utop by decide)
    hshares.childPage
  have hentry : k.phys.pteAt k.dirs 1 (pdx 0x800000) (ptx 0x800000) = mkPte f (pteU ||| pteP) :=
    hshares.shared.child
  rw [hentry] at walk
  have huser : mkPte f (pteU ||| pteP) &&& pteU ≠ 0 := by
    rw [mkPte_and f _ (by decide)]
    decide
  have hnum : pgnum (mkPte f (pteU ||| pteP)) = f := pgnum_mkPte hshares.shared.lt (by decide)
  have hlive : k.status 0 ≠ .free ∧ k.status 1 ≠ .free := by
    rw [hshares.family.parent.running, hshares.child.running]
    decide
  obtain ⟨hpage, hzero, -, -, -, hother⟩ := (user_pages_isolated hbooted hrun).1 1 d' _ _ _ hlive.2
    hshares.child.pgdir (by decide) walk huser
  rw [hnum] at hpage hzero hother
  exact ⟨k₀, k, d, d', f, hbooted, hrun, hshares, hpage, hzero,
    (hother 0 d hlive.1 hshares.family.parent.pgdir).1,
    (hother 1 d' hlive.2 hshares.child.pgdir).1⟩

/-- Mapping the hole gives the first environment the page 0 to read. -/
theorem page_zero_mapped : ∃ k₀ k d pde pte, Booted qemu [intProgram] k₀ ∧
    Run (fun _ _ => True) k₀ k ∧ k.status 0 ≠ .free ∧ (k.envs 0).pgdir = some d ∧
    k.phys.translate d 0x802000 = some (pde, pte) ∧ pte &&& pteU ≠ 0 ∧ pgnum pte = 0 := by
  obtain ⟨k₀, k, d, t, head, hbooted, hrun, hleak⟩ := qemu_leaks
  refine ⟨k₀, k, d, _, _, hbooted, hrun, ?_, hleak.executes.pgdir, hleak.mapped, by decide,
    by decide⟩
  rw [hleak.executes.running]
  decide

end Jos
