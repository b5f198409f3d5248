import Jos.Safety.Sharing

/-!
# System calls and panics

In every reachable state a system call returns, destroys an environment or
schedules, unless it makes one of the requests that break the memory manager
(`SafeStep`), looks for a page to send at an address where the kernel has mapped
something that is no page, or prints a string that does not end before something
unmapped (`Calm`).
-/

namespace Jos

open Prog

variable {m : Machine} {binaries : List Binary} {k₀ k : Kernel} {cur : EnvIdx} {tf : Trapframe}

theorem Calm.setTf (h : Calm k cur tf) : Calm (k.setTf cur tf) cur tf := by
  have hrecv : ∀ e, ((k.setTf cur tf).envs e).ipcRecving = (k.envs e).ipcRecving :=
    Kernel.setEnv_field (f := Env.ipcRecving) (by rfl)
  constructor
  · simp only [Kernel.envid2env_setTf, Kernel.dirs_setTf, hrecv]
    exact h.lookup
  · simp only [Kernel.dirs_setTf]
    exact h.string

/-- No system call panics, whatever its number and its arguments. -/
theorem syscall_never_panics (booted : Booted m binaries k₀) (run : Run SafeStep k₀ k) {c : Nat}
    (mode : k.mode c = .user) (enters : k.Enters c cur) (trapno : tf.trapno = tSyscall)
    {cr2 input : Word} (safe : SafeStep k (.trap c tf cr2 input)) (calm : Calm k cur tf)
    (why : Panic) :
    syscall c cur input tf.regs.eax tf.regs.edx tf.regs.ecx tf.regs.ebx tf.regs.edi tf.regs.esi
      (k.setTf cur tf) ≠ .panic why := by
  obtain ⟨L, -, -, h, hex⟩ := booted.run run
  have hused : k.status cur ≠ .free := ((hex.enter executing mode).own c cur rfl enters.1).1
  have hcr3 : (k.setTf cur tf).dirs cur = some ((k.setTf cur tf).cpus c).cr3 := by
    obtain ⟨e, hcur, -, hdir⟩ := hex.user c (by simp) mode
    obtain rfl : cur = e := Option.some.inj (enters.1.symm.trans hcur)
    rw [Kernel.dirs_setTf]
    exact hdir
  have hslots : (k.setTf cur tf).SlotsFree := by
    obtain ⟨l, hl, hfree⟩ := hex.slots
    refine ⟨l, hl.congr fun e _ => ?_, fun e he => ?_⟩
    · exact Kernel.setEnv_field (f := Env.link) (by rfl) e
    · rw [Kernel.setTf_status]
      exact hfree e he
  have hwp : wp (syscall c cur input tf.regs.eax tf.regs.edx tf.regs.ecx tf.regs.ebx tf.regs.edi
      tf.regs.esi) (fun _ k' => MemInv L k') (fun _ k' => MemInv L k') (fun _ => False)
      (k.setTf cur tf) :=
    h.setTf.syscall hslots enters.1 (by rwa [Kernel.setTf_status]) hcr3 trapno
      (safe.memory cur enters).setTf (.inl calm.setTf)
  intro hpanic
  rw [wp_panic_eq hpanic] at hwp
  exact hwp

/-- The child unmaps the page that it has from its parent. -/
theorem syscall_never_panics_qemu : ∃ k₀ k d d' f, Booted qemu [intProgram] k₀ ∧
    Run SafeStep k₀ k ∧ Shares d d' f k ∧ ∀ why,
      syscall 2 1 0 (SysCall.pageUnmap).number 0 0x800000 0 0 0
        (k.setTf 1 (callFrame .pageUnmap 0 0x800000 0 0 0)) ≠ .panic why := by
  obtain ⟨k₀, k, d, d', f, hbooted, hclean, hshares, -, -⟩ := qemu_shares
  have hrun : Run SafeStep k₀ k := Run.mono hclean fun _ _ h => h.safe
  have hcalls : ∀ call, (callFrame .pageUnmap 0 0x800000 0 0 0).Calls call → call = .pageUnmap :=
    fun call hcall => hcall.unique (callFrame_calls .pageUnmap 0 0x800000 0 0 0)
  have hsafe : SafeStep k (.trap 2 (callFrame .pageUnmap 0 0x800000 0 0 0) 0 0) :=
    (hshares.clean_unmap hshares.childPage).safe
  refine ⟨k₀, k, d, d', f, hbooted, hrun, hshares,
    syscall_never_panics hbooted hrun hshares.child.mode
      ⟨hshares.child.own, by rw [hshares.child.running]; decide⟩ rfl hsafe ⟨?_, ?_⟩⟩
  · intro _ _ hcall
    exact absurd (hcalls _ hcall) (by decide)
  · intro _ hcall
    exact absurd (hcalls _ hcall) (by decide)

/-- The first environment gets the page 0 on the free list and into its address space, and
then unmaps it. -/
theorem unmap_panics : ∃ k₀ k, Booted qemu [intProgram] k₀ ∧ Run (fun _ _ => True) k₀ k ∧
    k.RunsOn 0 0 ∧ k.status 0 = .running ∧
    syscall 0 0 0 (SysCall.pageUnmap).number 0 0x802000 0 0 0
      (k.setTf 0 (callFrame .pageUnmap 0 0x802000 0 0 0)) = .panic .pageFree := by
  obtain ⟨k₀, k, d, t, head, hbooted, hrun, hleak⟩ := qemu_leaks
  refine ⟨k₀, k, hbooted, hrun, hleak.executes.runsOn, hleak.executes.running, ?_⟩
  have hremove : pageRemove d 0x802000 k.phys = .panic .pageFree := by
    have hnum : pgnum (k.phys.word t (ptx 0x802000)) = 0 := by
      rw [hleak.entry]
      decide
    have hpos : 0 < k.phys.npages := Nat.lt_of_le_of_lt (Nat.zero_le t) hleak.table_lt
    have hlookup := pageLookup_some hleak.walk (by rw [hleak.table]; exact hleak.table_lt)
      (by rw [hleak.table, hnum]; exact hpos)
    rw [hleak.table, hnum] at hlookup
    rw [pageRemove, bind_ret _ hlookup]
    exact bind_panic _ (pageDecref_panic hleak.ref (by rw [hleak.link]; simp))
  rw [syscall, SysCall.ofNumber_number]
  dsimp only
  rw [sysPageUnmap, bind_ret _ (envid2env_run (Kernel.envid2env_zero true))]
  dsimp only
  rw [if_neg (not_not.mpr (by decide)), bind_ret _ (pgdirOf_run (Kernel.setTf_pgdir hleak.executes.pgdir))]
  exact bind_panic _ (zoom_panic hremove)

end Jos
