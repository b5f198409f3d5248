import Jos.User.CopyPage

/-!
# A handler that faults itself

If the first instruction of the upcall faults, the kernel delivers this fault too, 56 bytes
below on the exception stack, and so on. The storm ends when the record no longer fits:
`user_mem_assert` finds the page below the exception stack and destroys the environment.
-/

namespace Jos

open Prog

variable {L : Layout} {k k₁ : Kernel} {c d n last : Nat} {cur : EnvIdx} {tf tf₁ : Trapframe}
  {cr2 input : Word}

theorem uxstack_toNat : uxstack.toNat = 4005556224 := by decide

theorem uxstacktop_toNat : uxstacktop.toNat = 4005560320 := by decide

/-- The environment `cur` takes a page fault on CPU `c`. The page below its exception stack is
not writable for it. -/
structure Storming (L : Layout) (k : Kernel) (c : Nat) (cur : EnvIdx) (d : Nat) (tf : Trapframe) :
    Prop where
  mem : MemInv L k
  own : k.curenv c = some cur
  alive : k.status cur ≠ .dying
  pgdir : k.dirs cur = some d
  cr3 : (k.cpus c).cr3 = d
  ring : tf.cs &&& 3 = 3
  trapno : tf.trapno = tPgflt
  below : ∀ va, va.toNat / 4096 = uxstack.toNat / 4096 - 1 → ¬ k.phys.userAccess d va true

/-- The first instruction of the upcall faults: nothing has been executed. -/
structure Refault (k₁ : Kernel) (cur : EnvIdx) (tf₁ : Trapframe) : Prop where
  eip : tf₁.eip = (k₁.envs cur).tf.eip
  esp : tf₁.esp = (k₁.envs cur).tf.esp
  cs : tf₁.cs = (k₁.envs cur).tf.cs
  trapno : tf₁.trapno = tPgflt

/-- The trap destroys the environment; if it has an upcall, `user_mem_assert` does it. -/
structure Destroyed (c : Nat) (cur : EnvIdx) (tf : Trapframe) (cr2 input : Word) (k k' : Kernel) :
    Prop where
  run : trap c tf cr2 input k = .exit () k'
  free : k'.status cur = .free
  stopped : k'.curenv c ≠ some cur
  assert : (k.envs cur).pgfaultUpcall ≠ 0 →
    userMemAssert c cur (utrapframeAddr tf.esp) utrapframeSize (pteU ||| pteW ||| pteP)
      (k.setTf cur tf) = .exit () k'

/-- The trap starts the upcall. The record is on the exception-stack page, and no other page
of memory changes. -/
structure Delivery (c : Nat) (cur : EnvIdx) (d : Nat) (tf : Trapframe) (cr2 input : Word)
    (k k₁ : Kernel) : Prop where
  run : trap c tf cr2 input k = .exit () k₁
  resumed : k₁.cpus c = ⟨some cur, .user, d⟩
  frame : (k₁.envs cur).tf =
    { tf with eip := (k.envs cur).pgfaultUpcall, esp := utrapframeAddr tf.esp }
  low : uxstack.toNat ≤ (utrapframeAddr tf.esp).toNat
  high : (utrapframeAddr tf.esp).toNat + 52 ≤ uxstacktop.toNat
  writes : ∃ pde pte, k.phys.translate d uxstack = some (pde, pte) ∧
    ∀ f, f ≠ pgnum pte → k₁.phys.mem f = k.phys.mem f

/-- After at most `n` deliveries, each record below the last one, the environment is
destroyed, whatever the hardware reports with the faults. -/
def StormEnds (c : Nat) (cur : EnvIdx) (d : Nat) : Nat → Nat → Kernel → Trapframe → Prop
  | 0, _, k, tf => ∀ cr2 input, ∃ k', Destroyed c cur tf cr2 input k k'
  | n + 1, last, k, tf => ∀ cr2 input, (∃ k', Destroyed c cur tf cr2 input k k') ∨
      ∃ k₁, Delivery c cur d tf cr2 input k k₁ ∧ (utrapframeAddr tf.esp).toNat < last ∧
        ∀ tf₁, Refault k₁ cur tf₁ → StormEnds c cur d n (utrapframeAddr tf.esp).toNat k₁ tf₁

/-- Where the record goes, seen from the exception stack. -/
theorem utrapframeAddr_toNat (esp : Word) : (utrapframeAddr esp).toNat =
    if uxstack.toNat ≤ esp.toNat ∧ esp.toNat < uxstacktop.toNat then esp.toNat - 56
    else uxstacktop.toNat - 52 := by
  have hiff : (esp ≥ uxstacktop - 4096 ∧ esp < uxstacktop) ↔
      uxstack.toNat ≤ esp.toNat ∧ esp.toNat < uxstacktop.toNat := by
    rw [ge_iff_le, BitVec.le_def, BitVec.lt_def, uxstack]
  rw [utrapframeAddr]
  by_cases hin : uxstack.toNat ≤ esp.toNat ∧ esp.toNat < uxstacktop.toNat
  · rw [if_pos (hiff.mpr hin), if_pos hin, BitVec.toNat_sub_of_le]
    · rfl
    · have hlow := hin.1
      rw [uxstack_toNat] at hlow
      rw [BitVec.le_def]
      change 56 ≤ esp.toNat
      omega
  · rw [if_neg (fun h => hin (hiff.mp h)), if_neg hin]
    rfl

/-- Bytes that are stored on one page change no other. -/
theorem kernelStores_mem {p q : Phys} {f : Nat} {va : Word} {bytes : List Byte}
    (walk : ∀ i < bytes.length, ∃ pde pte,
      p.translate d (va + BitVec.ofNat 32 i) = some (pde, pte) ∧ pgnum pte = f)
    (plain : p.Plain d f) (run : kernelStores d va bytes p = .ret () q) {g : Nat} (hg : g ≠ f) :
    q.mem g = p.mem g := by
  induction bytes generalizing p va with
  | nil =>
      obtain ⟨-, rfl⟩ := Outcome.ret.inj run
      rfl
  | cons b bytes ih =>
      rw [kernelStores] at run
      obtain ⟨⟨⟩, p₁, hstore, hrest⟩ := bind_eq_ret run
      obtain ⟨pde, pte, hwalk, rfl⟩ := walk 0 (Nat.succ_pos _)
      rw [show va + BitVec.ofNat 32 0 = va from BitVec.add_zero va] at hwalk
      obtain rfl : p₁ = p.setByte (pgnum pte) (pgoff va) b := by
        rw [kernelStore, get_bind, hwalk] at hstore
        dsimp only at hstore
        split at hstore
        · simp at hstore
        · exact (Outcome.ret.inj hstore).2.symm
      have hstores := Phys.Stores.setByte plain (pgoff va) b
      have hnext : ∀ i, va + BitVec.ofNat 32 (i + 1) = va + 1 + BitVec.ofNat 32 i :=
        fun i => (add_one_add_ofNat va i).symm
      rw [ih (fun i hi => ?_) (hstores.plain.mpr plain) hrest]
      · exact p.mem_setPage_of_ne _ hg
      · obtain ⟨pde', pte', hwalk', hnum⟩ := walk (i + 1) (Nat.succ_lt_succ hi)
        rw [hnext] at hwalk'
        exact ⟨pde', pte', (hstores.translate _).trans hwalk', hnum⟩

namespace Storming

theorem used (h : Storming L k c cur d tf) : k.status cur ≠ .free := by
  intro hfree
  have hnone := (h.mem.live cur).mp hfree
  rw [h.pgdir] at hnone
  simp at hnone

/-- A record that passes `user_mem_assert` is on the exception-stack page. -/
theorem onStack (h : Storming L k c cur d tf)
    (allowed : userMemCheck d (utrapframeAddr tf.esp) utrapframeSize
      (pteU ||| pteW ||| pteP ||| pteU) k.phys = .ret none k.phys) :
    uxstack.toNat ≤ (utrapframeAddr tf.esp).toNat ∧
      (utrapframeAddr tf.esp).toNat + 52 ≤ uxstacktop.toNat := by
  have haccess := h.mem.utrapframe_access h.pgdir allowed (i := 0) (by decide)
  rw [show utrapframeAddr tf.esp + BitVec.ofNat 32 0 = utrapframeAddr tf.esp from
    BitVec.add_zero _] at haccess
  have haddr := utrapframeAddr_toNat tf.esp
  have hbelow : (utrapframeAddr tf.esp).toNat / 4096 ≠ uxstack.toNat / 4096 - 1 :=
    fun hpage => h.below _ hpage haccess
  rw [uxstack_toNat, uxstacktop_toNat] at *
  split at haddr <;> omega

theorem destroys (h : Storming L k c cur d tf) : ∃ k',
    envDestroy c cur (k.setTf cur tf) = .exit () k' ∧ k'.status cur = .free ∧
      k'.curenv c ≠ some cur := by
  refine h.mem.setTf.envDestroy_exits h.own ?_
  rw [Kernel.setTf_status]
  exact h.used

theorem trap_eq (h : Storming L k c cur d tf) {k' : Kernel}
    (hfault : pageFaultHandler c tf cr2 (k.setTf cur tf) = .exit () k') :
    trap c tf cr2 input k = .exit () k' := by
  have hdispatch : trapDispatch c tf cr2 input (k.setTf cur tf) = .exit () k' := by
    rw [trapDispatch, get_bind, if_pos h.trapno]
    exact hfault
  rw [trap, when_pos _ h.ring, bind_ret _ (trapEnter_saves h.own h.alive), bind_exit _ hdispatch]

theorem handler_eq (h : Storming L k c cur d tf) :
    pageFaultHandler c tf cr2 (k.setTf cur tf) =
      (if (k.envs cur).pgfaultUpcall ≠ 0 then do
        userMemAssert c cur (utrapframeAddr tf.esp) utrapframeSize (pteU ||| pteW ||| pteP)
        let k ← get
        pmap (kernelStores (k.cpus c).cr3 (utrapframeAddr tf.esp) (utrapframe tf cr2))
        modify fun k => k.setTf cur
          { (k.envs cur).tf with
            eip := (k.envs cur).pgfaultUpcall, esp := utrapframeAddr tf.esp }
        envRun c cur
      else Jos.envDestroy c cur) (k.setTf cur tf) := by
  have hown : (k.setTf cur tf).curenv c = some cur := h.own
  have hupcall : ((k.setTf cur tf).envs cur).pgfaultUpcall = (k.envs cur).pgfaultUpcall :=
    Kernel.setEnv_field (f := Env.pgfaultUpcall) (by rfl) cur
  rw [pageFaultHandler, get_bind, if_neg (by rw [h.ring]; decide)]
  simp only [hown, hupcall]

/-- One fault of the storm. -/
theorem fault (h : Storming L k c cur d tf) (cr2 input : Word) :
    (∃ k', Destroyed c cur tf cr2 input k k') ∨
      ∃ k₁, Delivery c cur d tf cr2 input k k₁ ∧
        ∀ tf₁, Refault k₁ cur tf₁ → Storming L k₁ c cur d tf₁ := by
  obtain ⟨k', hdestroy, hfree, hstopped⟩ := h.destroys
  by_cases upcall : (k.envs cur).pgfaultUpcall = 0
  · refine .inl ⟨k', h.trap_eq ?_, hfree, hstopped, fun hne => absurd upcall hne⟩
    rw [h.handler_eq, if_neg (not_not.mpr upcall), hdestroy]
  have htables : ∀ i, k.phys.word d i &&& pteP ≠ 0 → pgnum (k.phys.word d i) < k.phys.npages :=
    fun i hi => h.mem.table_lt h.pgdir hi
  obtain ⟨r, hcheck⟩ := userMemCheck_ret (utrapframeAddr tf.esp) utrapframeSize
    (pteU ||| pteW ||| pteP ||| pteU) htables
  cases r with
  | some addr =>
      have hassert : userMemAssert c cur (utrapframeAddr tf.esp) utrapframeSize
          (pteU ||| pteW ||| pteP) (k.setTf cur tf) = .exit () k' := by
        have hpgdir : pgdirOf cur (k.setTf cur tf) = .ret d (k.setTf cur tf) :=
          pgdirOf_run (Kernel.setTf_pgdir h.pgdir)
        have hrun : pmap (userMemCheck d (utrapframeAddr tf.esp) utrapframeSize
            (pteU ||| pteW ||| pteP ||| pteU)) (k.setTf cur tf) =
              .ret (some addr) (k.setTf cur tf) := pmap_ret hcheck
        rw [userMemAssert, bind_ret _ hpgdir, bind_ret _ hrun]
        exact hdestroy
      refine .inl ⟨k', h.trap_eq ?_, hfree, hstopped, fun _ => hassert⟩
      rw [h.handler_eq, if_pos upcall]
      exact bind_exit _ hassert
  | none =>
      obtain ⟨hlow, hhigh⟩ := h.onStack hcheck
      have hdelivers := h.mem.delivers h.own h.alive h.pgdir h.cr3 upcall h.ring h.trapno hcheck
      obtain ⟨q, hstores, hq, -, hrun⟩ := hdelivers.trap_run cr2 input
      refine .inr ⟨_, ⟨hrun, Kernel.ran_cpus_self, Kernel.upcalled_tf, hlow, hhigh, ?_⟩,
        fun tf₁ hre => ?_⟩
      · obtain ⟨pde, pte, walk, hpde, hpte, hplain⟩ := hdelivers.plain 0 (by decide)
        have hpage : ∀ i < 52, k.phys.translate d (utrapframeAddr tf.esp + BitVec.ofNat 32 i) =
            k.phys.translate d uxstack := by
          intro i hi
          apply Phys.translate_page
          rw [uxstack_toNat] at hlow ⊢
          rw [uxstacktop_toNat] at hhigh
          rw [BitVec.toNat_add, BitVec.toNat_ofNat]
          omega
        rw [hpage 0 (by decide)] at walk
        refine ⟨pde, pte, walk, fun g hg => ?_⟩
        rw [Kernel.upcalled_phys]
        refine kernelStores_mem (fun i hi => ⟨pde, pte, ?_, rfl⟩) hplain hstores hg
        rw [utrapframe_length] at hi
        rw [hpage i hi, walk]
      · have hinv : q.Inv L (k.setTf cur tf).dirs none := by
          have haccess : ∀ i < (utrapframe tf cr2).length,
              k.phys.userAccess d (utrapframeAddr tf.esp + BitVec.ofNat 32 i) true := by
            rw [utrapframe_length]
            exact hdelivers.writable
          obtain ⟨q', hstores', hinv, -⟩ := h.mem.phys.kernelStores h.pgdir haccess
          rw [(Outcome.ret.inj (hstores.symm.trans hstores')).2, Kernel.dirs_setTf]
          exact hinv
        have hused : ∀ tf', (({ k.setTf cur tf with phys := q } : Kernel).setTf cur tf').status
            cur ≠ .free := by
          intro tf'
          rw [Kernel.setTf_status]
          exact fun hf => h.used ((Kernel.setTf_status cur).symm.trans hf)
        refine ⟨(h.mem.setTf.of_phys hinv).setTf.ran (hused _), ?_, ?_, ?_, ?_, ?_, hre.trapno,
          fun va hva => ?_⟩
        · exact congrArg Cpu.env Kernel.ran_cpus_self
        · rw [Kernel.upcalled, Kernel.ran_status_self]
          decide
        · rw [Kernel.upcalled, Kernel.ran_dirs, Kernel.dirs_setTf]
          exact (congrFun Kernel.dirs_setTf cur).trans h.pgdir
        · exact congrArg Cpu.cr3 Kernel.ran_cpus_self
        · rw [hre.cs, Kernel.upcalled_tf]
          exact h.ring
        · rw [Kernel.upcalled_phys, hq.userAccess]
          exact h.below va hva

end Storming

/-- One record less fits above the start of the page. -/
theorem frames_left {off : Nat} (h : off / 56 ≤ n + 1) : (off - 56) / 56 ≤ n := by omega

/-- The storm is over after as many deliveries as there is room for records below `%esp`. -/
theorem Storming.ends (h : Storming L k c cur d tf)
    (room : if uxstack.toNat ≤ tf.esp.toNat ∧ tf.esp.toNat < uxstacktop.toNat then
      (tf.esp.toNat - uxstack.toNat) / 56 ≤ n ∧ tf.esp.toNat ≤ last
      else 73 ≤ n ∧ uxstacktop.toNat ≤ last) : StormEnds c cur d n last k tf := by
  induction n generalizing last k tf with
  | zero =>
      intro cr2 input
      rcases h.fault cr2 input with hdestroyed | ⟨k₁, hdelivery, -⟩
      · exact hdestroyed
      · exfalso
        have hlow := hdelivery.low
        rw [utrapframeAddr_toNat] at hlow
        rw [uxstack_toNat, uxstacktop_toNat] at *
        split at hlow
        all_goals
          split at room <;> omega
  | succ n ih =>
      intro cr2 input
      rcases h.fault cr2 input with hdestroyed | ⟨k₁, hdelivery, hnext⟩
      · exact .inl hdestroyed
      · have hlow := hdelivery.low
        have haddr := utrapframeAddr_toNat tf.esp
        rw [uxstack_toNat, uxstacktop_toNat] at *
        have hnext' : ∀ tf₁, Refault k₁ cur tf₁ → tf₁.esp = utrapframeAddr tf.esp := by
          intro tf₁ hre
          rw [hre.esp, hdelivery.frame]
        by_cases hin : 4005556224 ≤ tf.esp.toNat ∧ tf.esp.toNat < 4005560320
        · rw [if_pos hin] at room haddr
          obtain ⟨hroom, hlast⟩ := room
          refine .inr ⟨k₁, hdelivery, by omega, fun tf₁ hre => ih (hnext tf₁ hre) ?_⟩
          rw [hnext' tf₁ hre, if_pos ⟨hlow, by omega⟩]
          refine ⟨?_, Nat.le_refl _⟩
          rw [show (utrapframeAddr tf.esp).toNat - 4005556224 = tf.esp.toNat - 4005556224 - 56 by
            omega]
          exact frames_left hroom
        · rw [if_neg hin] at room haddr
          have htop : (utrapframeAddr tf.esp).toNat = 4005556224 + 4044 := haddr
          obtain ⟨hroom, hlast⟩ := room
          refine .inr ⟨k₁, hdelivery, by omega, fun tf₁ hre => ih (hnext tf₁ hre) ?_⟩
          rw [hnext' tf₁ hre, if_pos ⟨hlow, by omega⟩]
          exact ⟨by omega, Nat.le_refl _⟩

/-- From any page fault there are at most 73 deliveries, as many as records of 52 bytes fit on the
exception stack with a word between them. -/
theorem fault_storm_ends (h : Storming L k c cur d tf) :
    StormEnds c cur d 73 uxstacktop.toNat k tf := by
  refine h.ends ?_
  rw [uxstack_toNat, uxstacktop_toNat]
  split <;> omega

/-- `sys_env_set_pgfault_upcall` for the environment itself. -/
theorem Kernel.Executes.setUpcall (h : k.Executes c cur d) (func : Word) :
    ∃ k', Step k (.trap c (callFrame .envSetPgfaultUpcall 0 func 0 0 0) 0 0) k' ∧
      k'.Executes c cur d ∧ k'.phys = k.phys ∧ k'.dirs = k.dirs ∧
      (k'.envs cur).pgfaultUpcall = func ∧ (k'.envs cur).id = (k.envs cur).id := by
  set tf := callFrame .envSetPgfaultUpcall 0 func 0 0 0 with htf
  set k₁ := (k.setTf cur tf).setEnv cur
    { (k.setTf cur tf).envs cur with pgfaultUpcall := func } with hk₁
  have hsys : syscall c cur 0 (SysCall.number .envSetPgfaultUpcall) 0 func 0 0 0
      (k.setTf cur tf) = .ret 0 k₁ := by
    rw [syscall, SysCall.ofNumber_number]
    dsimp only
    rw [sysEnvSetPgfaultUpcall, bind_ret _ (envid2env_run (Kernel.envid2env_zero true))]
    rfl
  have henv : k₁.envs cur = { k.envs cur with tf, pgfaultUpcall := func } := by
    rw [hk₁, Kernel.setEnv_envs_self, Kernel.setTf, Kernel.setEnv_envs_self]
  have hdirs : k₁.dirs = k.dirs :=
    (funext fun e => Kernel.setEnv_field (f := Env.pgdir) (by rfl) e).trans Kernel.dirs_setTf
  have hx : k₁.Executes c cur d := by
    refine ⟨h.unlocked, h.cpu, ?_, (congrFun hdirs cur).trans h.pgdir⟩
    rw [Kernel.status, henv]
    exact h.running
  obtain ⟨k', hstep, hlike⟩ := h.returns hsys hx
  refine ⟨k', hstep, hlike.executes hx, hlike.phys, hlike.dirs.trans hdirs, ?_, ?_⟩
  · rw [hlike.field (f := Env.pgfaultUpcall) (fun _ => rfl), henv]
  · rw [hlike.field (f := Env.id) (fun _ => rfl), henv]

/-- The fault is delivered if there is an exception stack. -/
theorem Storming.delivery (h : Storming L k c cur d tf) (hu : InUser L c cur d k)
    (hx : k.Executes c cur d) (upcall : (k.envs cur).pgfaultUpcall ≠ 0)
    (stack : k.StackWritable cur) (fault : UserFault tf) (cr2 input : Word) :
    ∃ k₁, Delivery c cur d tf cr2 input k k₁ := by
  obtain ⟨g, hg⟩ := stack.1
  rcases h.fault cr2 input with ⟨k', hdestroyed⟩ | ⟨k₁, hdelivery, -⟩
  · obtain ⟨m, k₁, hrun, -, hlike, -⟩ := hu.upcall hx upcall hg stack fault cr2 input
    have heq : k' = k₁ := (Outcome.exit.inj (hdestroyed.run.symm.trans hrun)).2
    have hstatus : k₁.status cur = .running := (hlike.status cur).trans hx.running
    rw [← heq, hdestroyed.free] at hstatus
    simp at hstatus
  · exact ⟨k₁, hdelivery⟩

/-- The first environment allocates an exception stack, sets a bad upcall and faults. -/
theorem fault_storm_ends_badhandler : ∃ k₀ k d k₁, Booted qemu [intProgram] k₀ ∧
    Run SafeStep k₀ k ∧ k.Executes 0 0 d ∧ (k.envs 0).pgfaultUpcall = 0xDEADBEEF ∧
    StormEnds 0 0 d 73 uxstacktop.toNat k (.pageFault 4) ∧
    Delivery 0 0 d (.pageFault 4) 0x900000 0 k k₁ := by
  obtain ⟨k₀, k, d, L, hbooted, hrun, hruns, -, hmem₀⟩ := qemu_runs
  obtain ⟨k₁, k₂, g, hedit, hlt, -, -, hstep₂, hlike₂⟩ := hruns.executes.allocs (n := 62) hmem₀
    (show vaOk uxstack from ⟨by decide, by decide⟩)
    (show permOk (pteU ||| pteW ||| pteP) from ⟨by decide, by decide⟩) hruns.free
  have hx₂ : k₂.Executes 0 0 d :=
    hlike₂.executes (hedit.ends.executes ((Kernel.Like.setTf k 0 _).executes hruns.executes))
  obtain ⟨k₃, hstep₃, hx₃, hphys, hdirs, hupcall, hid₃⟩ := hx₂.setUpcall 0xDEADBEEF
  have hallocs := callFrame_calls .pageAlloc 0 uxstack (pteU ||| pteW ||| pteP) 0 0
  have hsets := callFrame_calls .envSetPgfaultUpcall 0 0xDEADBEEF 0 0 0
  have hrun₂ : Run SafeStep k₀ k₂ :=
    hrun.tail ⟨_, .of_calls fun call hc => by rw [hc.unique hallocs]; decide, hstep₂⟩
  have hrun₃ : Run SafeStep k₀ k₃ :=
    hrun₂.tail ⟨_, .of_calls fun call hc => by rw [hc.unique hsets]; decide, hstep₃⟩
  obtain ⟨L', -, -, hmem, -⟩ := hbooted.run hrun₃
  -- the entries of the first environment
  have hself : k₃.entryAt 0 uxstack = mkPte g (pteU ||| pteW ||| pteP) := by
    rw [Kernel.entryAt, hphys, hdirs, hlike₂.phys, hlike₂.dirs]
    exact hedit.self
  have hrest : ∀ i j, ¬ ((0 : EnvIdx) = 0 ∧ i = pdx uxstack ∧ j = ptx uxstack) →
      k₃.phys.pteAt k₃.dirs 0 i j = k.phys.pteAt k.dirs 0 i j := by
    intro i j hne
    rw [hphys, hdirs, hlike₂.phys, hlike₂.dirs]
    have hpte := hedit.rest 0 i j hne
    rw [Kernel.pte, Kernel.pte, Kernel.dirs_setTf] at hpte
    exact hpte
  have hring : (0x1B : BitVec 16) &&& 3 = 3 := by decide
  have hstorming : Storming L' k₃ 0 0 d (.pageFault 4) := by
    refine ⟨hmem, hx₃.own, by rw [hx₃.running]; decide, hx₃.pgdir, by rw [hx₃.cpu], hring,
      rfl, fun va hva haccess => ?_⟩
    -- nothing is mapped below the exception stack
    rw [uxstack_toNat] at hva
    have hpage : pageNumber (pdx va) (ptx va) = 977918 := by
      rw [pageNumber, pdx_val, ptx_val]
      omega
    have hother : ¬ ((0 : EnvIdx) = 0 ∧ pdx va = pdx uxstack ∧ ptx va = ptx uxstack) := by
      rintro ⟨-, hi, hj⟩
      rw [hi, hj] at hpage
      exact absurd hpage (by decide)
    have hempty := hruns.unmapped (pdx va) (ptx va) (by rw [hpage]; decide)
      (by rw [hpage]; decide)
    obtain ⟨pde, pte, walk, -⟩ := haccess
    have htop : utop.toNat = 4005560320 := by decide
    have htarget := Phys.Inv.target_of_translate (show k₃.dirs 0 = some d from hx₃.pgdir)
      (by rw [BitVec.lt_def]; omega) walk
    rw [Phys.target, hrest _ _ hother, hempty] at htarget
    exact absurd (entryFrame_zero.symm.trans htarget) (by simp)
  have hid : envx (k₃.envs 0).id = 0 := by
    have hid₁ : (k₁.envs 0).id = 0x1000 := by
      rw [hedit.ends.1]
      exact ((Kernel.Like.setTf k 0 _).field (f := Env.id) (fun _ => rfl) 0).trans hruns.id
    rw [hid₃, hlike₂.field (f := Env.id) fun _ => rfl, hid₁]
    decide
  have hstack : k₃.StackWritable 0 := by
    refine ⟨⟨g, ?_⟩, ?_⟩
    · have hentry := hself
      rw [Kernel.entryAt] at hentry
      rw [Kernel.pageAt, Phys.target, hentry, entryFrame_mkPte hlt (by decide)]
    · rw [hself, UserPte, mkPte_and g _ (by decide), mkPte_and g _ (by decide)]
      decide
  obtain ⟨k₄, hdelivery⟩ := hstorming.delivery
    ⟨hmem, by rw [hx₃.running]; decide, hx₃.pgdir, by rw [hx₃.cpu], hid⟩ hx₃
    (by rw [hupcall]; decide) hstack ⟨hring, rfl, ⟨by decide, by decide⟩, by decide⟩ 0x900000 0
  exact ⟨k₀, k₃, d, k₄, hbooted, hrun₃, hx₃, hupcall, fault_storm_ends hstorming, hdelivery⟩

end Jos
