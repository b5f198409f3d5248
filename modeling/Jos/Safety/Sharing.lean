import Jos.Safety.Receipts
import Jos.User.Calls

/-!
# A shared page

A run on `qemu` that goes on after the message of `qemu_sends`: CPU 2 executes the child, which
has the parent's page at `0x800000`, while the parent stays on CPU 0. The child allocates a page
of its own and unmaps it, so that the page is free again.
-/

namespace Jos

open Prog

/-- The parent executes on CPU 0 and the child on CPU 2, and they share the page `f`. -/
structure Shares (d d' f : Nat) (k : Kernel) : Prop where
  family : Family d d' 3 .running k
  child : k.Executes 2 1 d'
  shared : k.Shared f

/-- The page that the child allocates and unmaps. -/
def spareVa : Word := 0x801000

namespace Shares

variable {L : Layout} {d d' f n : Nat} {k k' : Kernel} {w : Word}

theorem like (h : Shares d d' f k) (hl : k.Like k') : Shares d d' f k' := by
  refine ⟨h.family.like hl, hl.executes h.child, ?_, ?_, h.shared.lt⟩
  · rw [Kernel.pageAt, hl.phys, hl.dirs]
    exact h.shared.parent
  · rw [Kernel.entryAt, hl.phys, hl.dirs]
    exact h.shared.child

theorem childPage (h : Shares d d' f k) : k.pageAt 1 0x800000 = some f := by
  have hentry := h.shared.child
  rw [Kernel.entryAt] at hentry
  rw [Kernel.pageAt, Phys.target, hentry, entryFrame_mkPte h.shared.lt (by decide)]

/-- The memory may change where the child has its own page. -/
theorem edited (h : Shares d d' f k) (hedit : MemInv.Edited L k 1 (pdx spareVa) (ptx spareVa) w k') :
    Shares d d' f k' := by
  have hparent : k'.pte 0 2 0 = k.pte 0 2 0 := hedit.rest 0 2 0 (by decide)
  have hchild : k'.entryAt 1 0x800000 = k.entryAt 1 0x800000 :=
    hedit.rest 1 (pdx 0x800000) (ptx 0x800000) (by decide)
  have hpage : k'.pageAt 0 0x800000 = k.pageAt 0 0x800000 := hedit.target (by decide)
  obtain ⟨hends, -⟩ := hedit.ends
  have hfamily : Family d d' 3 .running { k with phys := k'.phys } := by
    refine h.family.setPhys ?_
    obtain ⟨g, hg, hentry⟩ := h.family.page
    refine ⟨g, hg, ?_⟩
    rw [Kernel.pte, Kernel.pte, hends] at hparent
    exact hparent.trans hentry
  refine ⟨?_, ?_, hpage.trans h.shared.parent, hchild.trans h.shared.child, h.shared.lt⟩
  · rw [hends]
    exact hfamily
  · rw [hends]
    exact ⟨h.child.unlocked, h.child.cpu, h.child.running, h.child.pgdir⟩

/-- `sys_page_alloc` by the child. -/
theorem allocs (h : Shares d d' f k) (hmem : MemInv L k) (room : k.phys.FreePages (n + 2)) :
    ∃ k' g, Step k (.trap 2 (callFrame .pageAlloc 0 spareVa (pteU ||| pteW ||| pteP) 0 0) 0 0) k' ∧
      Shares d d' f k' ∧ k.phys.Listed g ∧ k'.pageAt 1 spareVa = some g ∧ k'.phys.FreePages n := by
  obtain ⟨k₁, k', g, hedit, hlt, hlisted, hleft, hstep, hlike⟩ := h.child.allocs hmem
    (show vaOk spareVa from ⟨by decide, by decide⟩)
    (show permOk (pteU ||| pteW ||| pteP) from ⟨by decide, by decide⟩) room
  have h₁ : Shares d d' f k₁ := (h.like (.setTf k 1 _)).edited hedit
  refine ⟨k', g, hstep, h₁.like hlike, hlisted, ?_, ?_⟩
  · have hpte : k'.pte 1 (pdx spareVa) (ptx spareVa) = mkPte g (pteU ||| pteW ||| pteP) := by
      rw [Kernel.pte, hlike.phys, hlike.dirs]
      exact hedit.self
    rw [Kernel.pte] at hpte
    rw [Kernel.pageAt, Phys.target, hpte, entryFrame_mkPte hlt (by decide)]
  · rw [hlike.phys]
    exact hleft

/-- The child may unmap what it has mapped. -/
theorem clean_unmap {va : Word} {g : Nat} (h : Shares d d' f k) (page : k.pageAt 1 va = some g) :
    CleanStep k (.trap 2 (callFrame .pageUnmap 0 va 0 0 0) 0 0) := by
  have hcall := callFrame_calls .pageUnmap 0 va 0 0 0
  refine ⟨fun _ => .of_calls fun call hc => by rw [hc.unique hcall]; decide, fun cur enters =>
    ⟨fun e _ target _ hhole => ?_, fun _ _ hc => absurd (hc.unique hcall) (by decide),
      fun _ hc => absurd (hc.unique hcall) (by decide)⟩,
    .of_calls fun call hc => by rw [hc.unique hcall]; decide⟩
  obtain rfl : 1 = cur := Option.some.inj (h.child.own.symm.trans enters.1)
  obtain rfl : 1 = e := Option.some.inj ((Kernel.envid2env_zero true).symm.trans target)
  exact absurd (page.symm.trans hhole.2) (by simp)

/-- `sys_page_unmap` by the child. -/
theorem unmaps {g : Nat} (h : Shares d d' f k) (hmem : MemInv L k)
    (page : k.pageAt 1 spareVa = some g) (room : k.phys.FreePages n) :
    ∃ k', Step k (.trap 2 (callFrame .pageUnmap 0 spareVa 0 0 0) 0 0) k' ∧
      Shares d d' f k' ∧ k'.pageAt 1 spareVa = none ∧ k'.phys.FreePages n := by
  let tf := callFrame .pageUnmap 0 spareVa 0 0 0
  have hlive : (k.setTf 1 tf).status 1 ≠ .free := by
    rw [Kernel.setTf_status, h.child.running]
    decide
  have hpage : (k.setTf 1 tf).pageAt 1 spareVa = some g := by
    rw [Kernel.pageAt_setTf, page]
  obtain ⟨k₁, hrun, hedit, hleft⟩ := hmem.setTf.sysPageUnmap_total hlive
    (Kernel.envid2env_zero true) (show vaOk spareVa from ⟨by decide, by decide⟩) hpage
  have hsys : syscall 2 1 0 (SysCall.pageUnmap).number 0 spareVa 0 0 0 (k.setTf 1 tf) =
      .ret 0 k₁ := by
    rw [syscall, SysCall.ofNumber_number]
    exact hrun
  have h₁ : Shares d d' f k₁ := (h.like (.setTf k 1 tf)).edited hedit
  obtain ⟨k', hstep, hlike⟩ := h.child.returns hsys h₁.child
  refine ⟨k', hstep, h₁.like hlike, ?_, ?_⟩
  · have hpte : k'.pte 1 (pdx spareVa) (ptx spareVa) = 0 := by
      rw [Kernel.pte, hlike.phys, hlike.dirs]
      exact hedit.self
    rw [Kernel.pte] at hpte
    rw [Kernel.pageAt, Phys.target, hpte]
    decide
  · rw [hlike.phys]
    exact hleft n room

end Shares

/-- CPU 2 picks the child up, and the child allocates a page and unmaps it. -/
theorem qemu_shares : ∃ k₀ k d d' f, Booted qemu [intProgram] k₀ ∧ Run CleanStep k₀ k ∧
    Shares d d' f k ∧ k.pageAt 1 spareVa = none ∧ k.phys.FreePages 60 := by
  obtain ⟨k₀, l, k₁, k₂, d, d', f, hbooted, history, hclean, hstep, hsends, hfamily, -, hshared,
    hroom⟩ := qemu_sends
  obtain ⟨hstart, hchild, hfamily'⟩ := hfamily.starts (by decide) (by decide)
  have hrun : Run CleanStep k₀ (k₂.ran 2 1 d') :=
    (history.send hclean hstep hsends).run.tail ⟨_, .start k₂ 2, hstart⟩
  have hshares : Shares d d' f (k₂.ran 2 1 d') := by
    refine ⟨hfamily', hchild, ?_, ?_, hshared.lt⟩
    · rw [Kernel.pageAt, Kernel.ran_phys.1, Kernel.ran_dirs]
      exact hshared.parent
    · rw [Kernel.entryAt, Kernel.ran_phys.1, Kernel.ran_dirs]
      exact hshared.child
  have hroom' : (k₂.ran 2 1 d').phys.FreePages (60 + 2) := by
    rw [Kernel.ran_phys.1]
    exact hroom
  obtain ⟨L, -, -, hmem, -⟩ := hbooted.run (Run.mono hrun fun _ _ h => h.safe)
  obtain ⟨k₃, g, hallocs, hshares₃, -, hpage, hroom₃⟩ := hshares.allocs hmem hroom'
  have hcall := callFrame_calls .pageAlloc 0 spareVa (pteU ||| pteW ||| pteP) 0 0
  have hrun₃ : Run CleanStep k₀ k₃ :=
    hrun.tail ⟨_, .of_calls fun call hc => by rw [hc.unique hcall]; decide, hallocs⟩
  obtain ⟨L', -, -, hmem₃, -⟩ := hbooted.run (Run.mono hrun₃ fun _ _ h => h.safe)
  obtain ⟨k, hunmaps, hshares', hnone, hroom'⟩ := hshares₃.unmaps hmem₃ hpage hroom₃
  exact ⟨k₀, k, d, d', f, hbooted, hrun₃.tail ⟨_, hshares₃.clean_unmap hpage, hunmaps⟩, hshares',
    hnone, hroom'⟩

end Jos
