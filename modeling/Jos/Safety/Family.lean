import Jos.Safety.Frames
import Jos.Sched.Receiving

/-!
# A parent and its child

A run on `qemu` in which the first environment forks a child, and CPU 1 executes
it. From here a single request of the parent, which stays on CPU 0 all the time,
is enough to bring about what the invariants of the scheduler exclude.
-/

namespace Jos

open Prog

/-- A step that keeps clear of every request for an environment that another CPU executes, and
carries no `env_ipc_recving` over to another state of its environment. -/
structure CleanStep (k : Kernel) (ev : Event) : Prop where
  entry : ∀ ok, SafeEntry ok k ev.cpu ev.frame
  memory : MemSafe k ev.cpu ev.frame
  clears : ClearsFlag k ev.cpu ev.frame

theorem CleanStep.safe {k : Kernel} {ev : Event} (h : CleanStep k ev) : SafeStep k ev :=
  ⟨h.entry Executing, h.memory⟩

theorem ClearsFlag.of_calls {k : Kernel} {c : Nat} {tf : Trapframe}
    (h : ∀ call, tf.Calls call → call ∉ [SysCall.envSetStatus, .exofork]) : ClearsFlag k c tf :=
  ⟨fun _ _ _ hc => absurd (by decide) (h _ hc), fun _ _ _ hc => absurd (by decide) (h _ hc)⟩

theorem CleanStep.of_calls {k : Kernel} {ev : Event}
    (h : ∀ call, ev.frame.Calls call → call ∉
      [SysCall.envSetStatus, .envDestroy, .ipcTrySend, .pageUnmap, .pageMap, .exofork]) :
    CleanStep k ev :=
  ⟨fun _ => .of_calls fun _ hc hmem => h _ hc (by simp only [List.mem_cons] at hmem ⊢; tauto),
    .of_calls fun _ hc hmem => h _ hc (by simp only [List.mem_cons] at hmem ⊢; tauto),
    .of_calls fun _ hc hmem => h _ hc (by simp only [List.mem_cons] at hmem ⊢; tauto)⟩

theorem CleanStep.start (k : Kernel) (c : Nat) : CleanStep k (.start c) :=
  .of_calls fun _ hc => absurd hc.1 (show (0 : Word) ≠ tSyscall by decide)

/-- CPU 0 executes the first environment, with the page directory `d`. Its child in the
slot 1 has the page directory `d'` and the status `st`. The CPUs from `n` on have not called
the scheduler yet. -/
structure Family (d d' n : Nat) (st : EnvStatus) (k : Kernel) : Prop where
  parent : k.Executes 0 0 d
  parentId : (k.envs 0).id = 0x1000
  childId : (k.envs 1).id = 0x1001
  childParent : (k.envs 1).parentId = 0x1000
  pgdir : (k.envs 1).pgdir = some d'
  child : k.status 1 = st
  others : ∀ e, e ≠ 0 → e ≠ 1 → k.status e = .free
  cpus : ∀ c, n ≤ c → k.curenv c = none ∧ k.mode c = if c < 3 then .starting else .unused
  page : ∃ f < 1048576, k.phys.pteAt k.dirs 0 2 0 = mkPte f (pteU ||| pteW)

namespace Family

variable {d d' n : Nat} {st st' : EnvStatus} {k k' : Kernel} {tf : Trapframe} {c : Nat}

theorem like (h : Family d d' n st k) (hl : k.Like k') : Family d d' n st k' := by
  refine ⟨hl.executes h.parent, ?_, ?_, ?_, ?_, ?_, fun e he he' => ?_, fun c hc => ?_, ?_⟩
  · rw [hl.field (f := Env.id) fun _ => rfl, h.parentId]
  · rw [hl.field (f := Env.id) fun _ => rfl, h.childId]
  · rw [hl.field (f := Env.parentId) fun _ => rfl, h.childParent]
  · rw [hl.field (f := Env.pgdir) fun _ => rfl, h.pgdir]
  · rw [hl.status, h.child]
  · rw [hl.status, h.others e he he']
  · rw [Kernel.curenv, Kernel.mode, hl.cpus]
    exact h.cpus c hc
  · rw [hl.phys, hl.dirs]
    exact h.page

theorem setTf (h : Family d d' n st k) : Family d d' n st (k.setTf 0 tf) := h.like (.setTf k 0 tf)

theorem mapped (h : Family d d' n st k) : ∃ f < 1048576, k.pageAt 0 0x800000 = some f := by
  obtain ⟨f, hlt, hpte⟩ := h.page
  refine ⟨f, hlt, ?_⟩
  rw [Kernel.pageAt, Phys.target, show pdx 0x800000 = 2 by decide,
    show ptx 0x800000 = 0 by decide, hpte, entryFrame_mkPte hlt (by decide)]

/-- New contents for the slot of the child. -/
theorem setChild (h : Family d d' n st k) {env : Env} (hid : env.id = 0x1001)
    (hparent : env.parentId = 0x1000) (hpgdir : env.pgdir = some d') (hst : env.status = st') :
    Family d d' n st' (k.setEnv 1 env) := by
  have hne : ∀ e : EnvIdx, e ≠ 1 → (k.setEnv 1 env).envs e = k.envs e :=
    fun e he => Kernel.setEnv_envs_of_ne _ he
  have hzero := hne 0 (by decide)
  have hdirs : (k.setEnv 1 env).dirs = k.dirs := by
    funext e
    by_cases he : e = 1
    · subst he
      simp [Kernel.dirs, hpgdir, h.pgdir]
    · rw [Kernel.dirs, hne e he, Kernel.dirs]
  refine ⟨⟨h.parent.unlocked, h.parent.cpu, ?_, ?_⟩, ?_, ?_, ?_, ?_, ?_, fun e he he' => ?_, h.cpus,
    by rw [hdirs]; exact h.page⟩
  · rw [Kernel.status, hzero]
    exact h.parent.running
  · rw [hzero, h.parent.pgdir]
  · rw [hzero, h.parentId]
  · simpa using hid
  · simpa using hparent
  · simpa using hpgdir
  · simpa [Kernel.status] using hst
  · rw [Kernel.status, hne e he']
    exact h.others e he he'

theorem setStatus (h : Family d d' n st k) : Family d d' n st' (k.setStatus 1 st') :=
  h.setChild h.childId h.childParent h.pgdir rfl

/-- The parent may operate on the child. -/
theorem target (h : Family d d' n st k) (live : st ≠ .free) (checkperm : Bool) :
    k.envid2env 0 0x1001 checkperm = some 1 := by
  have hslot : envx 0x1001 = 1 := by decide
  have hstatus : (k.envs 1).status ≠ .free := by
    rw [← h.child] at live
    exact live
  rw [Kernel.envid2env, if_neg (by decide)]
  dsimp only
  rw [hslot, if_neg (by simp [hstatus, h.childId]), if_neg (by simp [h.childParent, h.parentId])]

/-- `sys_env_set_status` by the parent, whatever the child is doing. -/
theorem setsStatus (h : Family d d' n st k) (live : st ≠ .free) {arg : Word}
    (harg : statusArg arg = some st') :
    ∃ k', Step k (.trap 0 (callFrame .envSetStatus 0x1001 arg 0 0 0) 0 0) k' ∧
      (k.setStatus 1 st').Like k' := by
  have hsys : syscall 0 0 0 (SysCall.envSetStatus).number 0x1001 arg 0 0 0
      (k.setTf 0 (callFrame .envSetStatus 0x1001 arg 0 0 0)) =
      .ret 0 ((k.setTf 0 (callFrame .envSetStatus 0x1001 arg 0 0 0)).setStatus 1 st') := by
    rw [syscall, SysCall.ofNumber_number]
    dsimp only
    rw [sysEnvSetStatus, harg]
    dsimp only
    rw [bind_ret _ (envid2env_run (h.setTf.target live true))]
    rfl
  obtain ⟨k', hstep, hlike⟩ := h.parent.returns hsys h.setTf.setStatus.parent
  refine ⟨k', hstep, .trans ?_ hlike⟩
  exact (Kernel.Like.setTf k 0 _).setEnv rfl

/-- Nobody else is runnable: a scan that starts on a CPU without an environment finds the
child. -/
theorem scan (h : Family d d' n .runnable k) : k.schedScan nenv none = some 1 := by
  have hzero : k.status (nextIndex none) ≠ .runnable := by
    change k.status 0 ≠ .runnable
    rw [h.parent.running]
    decide
  exact (schedScan_next 1023 hzero).trans (schedScan_here 1022 h.child)

/-- The next CPU executes the child. -/
theorem starts (h : Family d d' n .runnable k) (hn : 0 < n) (hlt : n < 3) :
    Step k (.start n) (k.ran n 1 d') ∧ (k.ran n 1 d').Executes n 1 d' ∧
      Family d d' (n + 1) .running (k.ran n 1 d') := by
  have hidle := h.cpus n (Nat.le_refl n)
  rw [if_pos hlt] at hidle
  have hpre : k.preempted n = k := by rw [Kernel.preempted, hidle.1]
  have hne : ∀ e : EnvIdx, e ≠ 1 → (k.ran n 1 d').envs e = k.envs e := by
    intro e he
    rw [Kernel.ran_envs_of_ne he, hpre]
  have hself := Kernel.ran_envs_self (k := k) (c := n) (e := 1) (d := d')
  rw [hpre] at hself
  have hzero := hne 0 (by decide)
  have hcpu : ∀ c, c ≠ n → (k.ran n 1 d').cpus c = k.cpus c := fun c hc =>
    Kernel.ran_cpus_of_ne hc
  have hstart := start_runs hidle.2 h.parent.unlocked hidle.1 h.scan h.pgdir
  have hlock : (k.ran n 1 d').Unlocked := by
    intro c
    by_cases hc : c = n
    · subst hc
      rw [Kernel.mode, Kernel.ran_cpus_self]
      simp
    · rw [Kernel.mode, hcpu c hc]
      exact h.parent.unlocked c
  refine ⟨hstart, ⟨hlock, Kernel.ran_cpus_self, Kernel.ran_status_self, ?_⟩, ⟨⟨hlock, ?_, ?_, ?_⟩, ?_, ?_, ?_, ?_, ?_, fun e he he' => ?_,
    fun c hc => ?_, ?_⟩⟩
  · rw [hself, h.pgdir]
  · rw [hcpu 0 (by omega), h.parent.cpu]
  · rw [Kernel.status, hzero]
    exact h.parent.running
  · rw [hzero, h.parent.pgdir]
  · rw [hzero, h.parentId]
  · rw [hself, h.childId]
  · rw [hself, h.childParent]
  · rw [hself, h.pgdir]
  · exact Kernel.ran_status_self
  · rw [Kernel.status, hne e he']
    exact h.others e he he'
  · rw [Kernel.curenv, Kernel.mode, hcpu c (by omega)]
    exact h.cpus c (by omega)
  · have hdirs : (k.ran n 1 d').dirs = k.dirs :=
      funext (Kernel.ran_field (f := Env.pgdir) fun _ _ _ _ => rfl)
    rw [Kernel.ran_phys.1, hdirs]
    exact h.page

/-- The parent destroys the child while another CPU executes it. -/
theorem dooms (h : Family d d' n .running k) :
    ∃ k', Step k (.trap 0 (callFrame .envDestroy 0x1001 0 0 0 0) 0 0) k' ∧
      (k.setStatus 1 .dying).Like k' := by
  let tf := callFrame .envDestroy 0x1001 0 0 0 0
  have hsys : syscall 0 0 0 (SysCall.envDestroy).number 0x1001 0 0 0 0 (k.setTf 0 tf) =
      .ret 0 ((k.setTf 0 tf).setStatus 1 .dying) := by
    have hown : (k.setTf 0 tf).curenv 0 ≠ some 1 := by
      rw [h.setTf.parent.own]
      decide
    rw [syscall, SysCall.ofNumber_number]
    dsimp only
    rw [sysEnvDestroy, bind_ret _ (envid2env_run (h.setTf.target (by decide) true))]
    dsimp only
    rw [envDestroy]
    rw [bind_ret (t := (k.setTf 0 tf).setStatus 1 .dying) (a := ())]
    · rfl
    · rw [get_bind, if_pos ⟨h.setTf.child, hown⟩]
      rfl
  obtain ⟨k', hstep, hlike⟩ := h.parent.returns hsys h.setTf.setStatus.parent
  exact ⟨k', hstep, .trans ((Kernel.Like.setTf k 0 tf).setEnv rfl) hlike⟩

/-- The end of a running child is allowed. -/
theorem clean_doom (h : Family d d' n .running k) :
    CleanStep k (.trap 0 (callFrame .envDestroy 0x1001 0 0 0 0) 0 0) := by
  have hcall := callFrame_calls .envDestroy 0x1001 0 0 0 0
  refine ⟨fun _ => .destroy_of hcall fun cur e enters target _ => ?_,
    .of_calls fun _ hc => by rw [hc.unique hcall]; decide,
    .of_calls fun _ hc => by rw [hc.unique hcall]; decide⟩
  obtain rfl : 0 = cur := Option.some.inj (h.parent.own.symm.trans enters.1)
  obtain rfl : 1 = e := Option.some.inj ((h.target (by decide) true).symm.trans target)
  exact h.child

/-- `sys_env_destroy` by the parent, once the child's end is known. -/
theorem destroys {k₂ : Kernel} (h : Family d d' n st k) (live : st ≠ .free)
    (hdestroy : envDestroy 0 1 (k.setTf 0 (callFrame .envDestroy 0x1001 0 0 0 0)) = .ret () k₂)
    (hexec : k₂.Executes 0 0 d) :
    ∃ k', Step k (.trap 0 (callFrame .envDestroy 0x1001 0 0 0 0) 0 0) k' ∧ k₂.Like k' := by
  have hsys : syscall 0 0 0 (SysCall.envDestroy).number 0x1001 0 0 0 0
      (k.setTf 0 (callFrame .envDestroy 0x1001 0 0 0 0)) = .ret 0 k₂ := by
    rw [syscall, SysCall.ofNumber_number]
    dsimp only
    rw [sysEnvDestroy, bind_ret _ (envid2env_run (h.setTf.target live true))]
    exact bind_ret _ hdestroy
  exact h.parent.returns hsys hexec

/-- It destroys a child that is not running. -/
theorem frees {L : Layout} (h : Family d d' n .dying k) (hmem : MemInv L k) :
    ∃ k', Step k (.trap 0 (callFrame .envDestroy 0x1001 0 0 0 0) 0 0) k' ∧
      k'.status 1 = .free ∧ k'.cpus = k.cpus := by
  let tf := callFrame .envDestroy 0x1001 0 0 0 0
  have h₁ : Family d d' n .dying (k.setTf 0 tf) := h.setTf
  have hmem₁ : MemInv L (k.setTf 0 tf) := hmem.setTf
  generalize hk₁ : k.setTf 0 tf = k₁ at h₁ hmem₁
  have hown : k₁.curenv 0 ≠ some 1 := by
    rw [h₁.parent.own]
    decide
  have hstatus : k₁.status 1 ≠ .free ∧ k₁.status 1 ≠ .running := by
    rw [h₁.child]
    decide
  -- a zombie is not running, so its slot is released at once
  obtain ⟨u, k₂, hdestroy, hreleased⟩ : ∃ u k₂, envDestroy 0 1 k₁ = .ret u k₂ ∧
      (k₁.released 1).Same k₂ := by
    have hwp := wp_and (hmem₁.envDestroy (c := 0) (E := fun _ => False) hstatus.1)
      (envDestroy_other (X := fun _ _ => False) hown)
    refine exists_of_wp (wp_mono hwp (fun _ k₂ hq => ?_) (fun _ _ hx => hx.2) (fun _ he => he.1))
    exact (hq.2.resolve_left fun hr => hstatus.2 hr.1).2
  have hzero : (k₁.envs 0).Same (k₂.envs 0) := by
    have hsame := hreleased.envs 0
    rwa [Kernel.released, Kernel.setEnv_envs_of_ne _ (by decide : (0 : EnvIdx) ≠ 1)] at hsame
  have hcpus : k₂.cpus = k₁.cpus := hreleased.cpus
  have hexec : k₂.Executes 0 0 d := by
    refine ⟨fun c => ?_, by rw [hcpus, h₁.parent.cpu], ?_, ?_⟩
    · rw [Kernel.mode, hcpus]
      exact h₁.parent.unlocked c
    · rw [Kernel.status, hzero.status]
      exact h₁.parent.running
    · rw [hzero.pgdir, h₁.parent.pgdir]
  obtain ⟨k', hstep, hlike⟩ := h.destroys (by decide) (by rw [hk₁]; exact hdestroy) hexec
  refine ⟨k', hstep, ?_, ?_⟩
  · rw [hlike.status, Kernel.status, (hreleased.envs 1).status, Kernel.released]
    simp
  · rw [hlike.cpus, hcpus, ← hk₁]
    rfl

/-- CPU `c` lets go of the child. -/
theorem setCpu (h : Family d d' (c + 1) st k) (hc : 0 < c) {cpu : Cpu}
    (hmode : cpu.mode ≠ .monitor) : Family d d' (c + 1) st (k.setCpu c cpu) := by
  have hne : ∀ c', c' ≠ c → (k.setCpu c cpu).cpus c' = k.cpus c' :=
    fun c' hc' => Function.update_of_ne hc' _ _
  refine ⟨⟨fun c' => ?_, (hne 0 (by omega)).trans h.parent.cpu, h.parent.running, h.parent.pgdir⟩,
    h.parentId, h.childId, h.childParent, h.pgdir, h.child, h.others, fun c' hc' => ?_, h.page⟩
  · by_cases hc' : c' = c
    · subst hc'
      simpa [Kernel.mode, Kernel.setCpu] using hmode
    · rw [Kernel.mode, hne c' hc']
      exact h.parent.unlocked c'
  · rw [Kernel.curenv, Kernel.mode, hne c' (by omega)]
    exact h.cpus c' hc'

/-- The child waits for a message, with a page at `va` if that is below `UTOP`. Nobody is
runnable, so its CPU halts. -/
theorem receives (h : Family d d' (c + 1) .running k) (hc : 0 < c) (hchild : k.Executes c 1 d')
    (va : Word) (aligned : ¬ (va < utop ∧ pgoff va ≠ 0)) :
    ∃ k', Step k (.trap c (callFrame .ipcRecv va 0 0 0 0) 0 0) k' ∧
      Family d d' (c + 1) .notRunnable k' ∧ k'.phys = k.phys ∧ k'.dirs = k.dirs ∧
      (k'.envs 1).ipcRecving = true ∧
      (k'.envs 1).ipcDstva = (if va ≥ utop then utop else va) ∧ k'.curenv c = none ∧
      ∀ c', c' ≠ c → k'.cpus c' = k.cpus c' := by
  let tf := callFrame .ipcRecv va 0 0 0 0
  let k₁ := (k.setTf 1 tf).waiting 1 va
  have htf : Family d d' (c + 1) .running (k.setTf 1 tf) := h.like (.setTf k 1 tf)
  have h₁ : Family d d' (c + 1) .notRunnable k₁ :=
    htf.setChild htf.childId htf.childParent htf.pgdir rfl
  have hself : k₁.envs 1 = { (k.setTf 1 tf).envs 1 with
      ipcDstva := if va ≥ utop then utop else va, ipcRecving := true, status := .notRunnable } := by
    change ((k.setTf 1 tf).setEnv 1 _).envs 1 = _
    rw [Kernel.setEnv_envs_self]
  have hscan : k₁.schedScan nenv (some (envx (k₁.envs 1).id)) = none := by
    refine schedScan_none fun e => ?_
    by_cases h0 : e = 0
    · rw [h0, h₁.parent.running]
      decide
    · by_cases h1 : e = 1
      · rw [h1, h₁.child]
        decide
      · rw [h₁.others e h0 h1]
        decide
  have hyield : (schedYield c : KM Word) k₁ =
      .exit () (k₁.setCpu c { env := none, mode := .halted, cr3 := k₁.kernPgdir }) := by
    have hown : k₁.curenv c = some 1 := hchild.own
    have hwait : k₁.status 1 ≠ .running := by
      rw [h₁.child]
      decide
    rw [schedYield, get_bind, hown, Option.map_some, hscan]
    dsimp only
    rw [if_neg hwait, schedHalt, get_bind, if_pos ⟨0, .inr (.inl h₁.parent.running)⟩]
    rfl
  have hsys : syscall c 1 0 (SysCall.ipcRecv).number va 0 0 0 0 (k.setTf 1 tf) =
      .exit () (k₁.setCpu c { env := none, mode := .halted, cr3 := k₁.kernPgdir }) := by
    rw [syscall, SysCall.ofNumber_number]
    dsimp only
    rw [sysIpcRecv, if_neg aligned, modify_bind, sysYield]
    exact hyield
  refine ⟨_, hchild.leaves hsys, h₁.setCpu hc (by simp), rfl, ?_, ?_, ?_, ?_, fun c' hc' => ?_⟩
  · change ((k.setTf 1 tf).waiting 1 va).dirs = k.dirs
    have htf : (k.setTf 1 tf).dirs = k.dirs := Kernel.dirs_setTf
    rw [← htf]
    exact funext (Kernel.setEnv_field (f := Env.pgdir) rfl)
  · exact congrArg Env.ipcRecving hself
  · exact congrArg Env.ipcDstva hself
  · simp [Kernel.curenv, Kernel.setCpu]
  · exact Function.update_of_ne hc' _ _

end Family

theorem Kernel.forked_dirs {k : Kernel} {e : EnvIdx} {id : Word} {f : Nat} {tf : Trapframe} :
    (k.forked e id f tf).dirs = Function.update k.dirs e (some f) := by
  funext e'
  by_cases he : e' = e
  · subst he
    rw [Kernel.dirs, Kernel.forked, Kernel.setEnv_envs_self, Function.update_self]
  · rw [Kernel.dirs, Kernel.forked, Kernel.setEnv_envs_of_ne _ he, Function.update_of_ne he,
      Kernel.dirs]

/-- The child that `sys_exofork` makes in the slot 1. -/
theorem Family.forked {d f : Nat} {k : Kernel} {L : Layout} (tf : Trapframe)
    (h : k.Executes 0 0 d) (hmem : MemInv L k) (hpage : k.phys.pageFreeList = some f)
    (hid : (k.envs 0).id = 0x1000)
    (others : ∀ e, e ≠ 0 → (k.envs e).id = 0 ∧ k.status e = .free)
    (cpus : ∀ c, 1 ≤ c → k.curenv c = none ∧ k.mode c = if c < 3 then .starting else .unused)
    (page : ∃ g < 1048576, k.phys.pteAt k.dirs 0 2 0 = mkPte g (pteU ||| pteW)) :
    Family d f 1 .notRunnable { k.forked 1 (k.envs 0).id f tf with
      phys := k.phys.newDir k.kernPgdir f } := by
  have hself : (k.forked 1 (k.envs 0).id f tf).envs 1 =
      { k.envs 1 with
        pgdir := some f
        id := nextEnvId (k.envs 1).id 1
        parentId := (k.envs 0).id
        type := .user
        status := .notRunnable
        runs := 0
        tf
        pgfaultUpcall := 0 } := Kernel.setEnv_envs_self k 1 _
  have hne : ∀ e, e ≠ 1 → (k.forked 1 (k.envs 0).id f tf).envs e = k.envs e :=
    fun e he => Kernel.setEnv_envs_of_ne _ he
  have hzero := hne 0 (by decide)
  have hnone : k.dirs 1 = none := (hmem.live 1).mp (others 1 (by decide)).2
  refine ⟨⟨h.unlocked, h.cpu, ?_, ?_⟩, ?_, ?_, ?_, ?_, ?_, fun e he he' => ?_, cpus, ?_⟩
  · rw [Kernel.status, hzero]
    exact h.running
  · rw [hzero, h.pgdir]
  · rw [hzero, hid]
  · rw [hself, (others 1 (by decide)).1]
    change nextEnvId 0 1 = 0x1001
    decide
  · rw [hself, hid]
  · rw [hself]
  · rw [Kernel.status, hself]
  · rw [Kernel.status, hne e he']
    exact (others e he).2
  · change ∃ g < 1048576, (k.phys.newDir k.kernPgdir f).pteAt
      (k.forked 1 (k.envs 0).id f tf).dirs 0 2 0 = mkPte g (pteU ||| pteW)
    rw [Kernel.forked_dirs, hmem.kern, (hmem.phys.newDir hpage hnone).2.1]
    exact page

/-- The first environment forks. -/
theorem FirstRuns.forks {d : Nat} {k : Kernel} {L : Layout} (h : FirstRuns d k)
    (hmem : MemInv L k) :
    ∃ d' k', Step k (.trap 0 (callFrame .exofork 0 0 0 0 0) 0 0) k' ∧
      Family d d' 1 .notRunnable k' ∧ (∀ e, (k'.envs e).ipcRecving = false) ∧
      k'.phys.FreePages 63 ∧ k'.OnlyFirst ∧ k.phys.pageFreeList = some d' ∧
      k'.phys = k.phys.newDir k.kernPgdir d' := by
  obtain ⟨f, hf⟩ := h.free.head
  have hlike := Kernel.Like.setTf k 0 (callFrame .exofork 0 0 0 0 0)
  generalize hk₁ : k.setTf 0 (callFrame .exofork 0 0 0 0 0) = k₁ at hlike
  have hmem₁ : MemInv L k₁ := hk₁ ▸ hmem.setTf
  have hf₁ : k₁.phys.pageFreeList = some f := by rw [hlike.phys, hf]
  have hslot : k₁.envFreeList = some 1 := by rw [hlike.envFreeList, h.slots]
  have hothers : ∀ e, e ≠ 0 → (k₁.envs e).id = 0 ∧ k₁.status e = .free := by
    intro e he
    rw [hlike.field (f := Env.id) (fun _ => rfl), hlike.status]
    exact ⟨congrArg Env.id (h.others e he), congrArg Env.status (h.others e he)⟩
  obtain ⟨g, hg, hentry, -⟩ := h.mapped 2 0 (by decide)
  have hfamily := Family.forked ((k₁.envs 0).tf.setEax 0) (hlike.executes h.executes) hmem₁ hf₁
    (by rw [hlike.field (f := Env.id) fun _ => rfl, h.id]) hothers
    (fun c hc => by rw [Kernel.curenv, Kernel.mode, hlike.cpus]; exact h.cpus c (by omega))
    (by rw [hlike.phys, hlike.dirs]; exact ⟨g, hg, hentry⟩)
  have hlt := hmem₁.phys.lt_npages (hmem₁.phys.alloc hf₁ true).2.1.owned
  have hsys := sysExofork_run hslot (show (0 : EnvIdx) ≠ 1 by decide) hf₁ hlt hmem₁.phys.npages_le
  obtain ⟨k', hstep, hlike'⟩ : ∃ k', Step k (.trap 0 (callFrame .exofork 0 0 0 0 0) 0 0) k' ∧ _ :=
    h.executes.returns (by rw [hk₁, syscall, SysCall.ofNumber_number]; exact hsys) hfamily.parent
  have hfree : k₁.phys.FreePages 64 := by
    rw [hlike.phys]
    exact h.free
  have hnone : ∀ e, e ≠ 0 → k₁.dirs e = none := fun e he =>
    (hmem₁.live e).mp (hothers e he).2
  have honly : k'.OnlyFirst := by
    intro e i j hother
    have hdirs : k'.dirs = Function.update k₁.dirs 1 (some f) :=
      hlike'.dirs.trans Kernel.forked_dirs
    have hphys : k'.phys = k₁.phys.newDir k₁.kernPgdir f := hlike'.phys
    rw [hphys, hdirs, hmem₁.kern, (hmem₁.phys.newDir hf₁ (hnone 1 (by decide))).2.1]
    by_cases he : e = 0
    · subst he
      have hpage : ¬ (pageNumber i j = 2048 ∨ pageNumber i j = stackPage) := fun h' =>
        hother ⟨rfl, h'⟩
      rw [not_or] at hpage
      rw [hlike.phys, hlike.dirs]
      exact h.unmapped i j hpage.1 hpage.2
    · exact Phys.pteAt_of_noDir (hnone e he)
  have hphys : k'.phys = k.phys.newDir k.kernPgdir f := by
    rw [hlike'.phys, hlike.phys, hlike.kernPgdir]
  refine ⟨f, k', hstep, hfamily.like hlike', ?_, ?_, honly, hf, hphys⟩
  swap
  · rw [hlike'.phys]
    exact newDir_freePages hfree hf₁
  intro e
  have hflag : (k.envs e).ipcRecving = false := by
    by_cases he : e = 0
    · rw [he, h.recving]
    · exact congrArg Env.ipcRecving (h.others e he)
  rw [hlike'.field (f := Env.ipcRecving) fun _ => rfl, ← hflag,
    ← hlike.field (f := Env.ipcRecving) fun _ => rfl]
  exact Kernel.setEnv_field (f := Env.ipcRecving) (by rfl) e

/-- A run to the state in which CPU 0 executes the parent and CPU 1 the child. -/
theorem qemu_family_free : ∃ k₀ k d d', Booted qemu [intProgram] k₀ ∧ Run CleanStep k₀ k ∧
    Family d d' 2 .running k ∧ k.Executes 1 1 d' ∧ k.phys.FreePages 63 ∧ k.OnlyFirst ∧
    ∀ e, (k.envs e).ipcRecving = false := by
  obtain ⟨k₀, hbooted, hfirst, hcpus⟩ := qemu_boots
  obtain ⟨d, k₁, hstart₀, hruns⟩ := hfirst.runs hcpus
  have hrun : Run CleanStep k₀ k₁ := .single ⟨.start 0, .start k₀ 0, hstart₀⟩
  obtain ⟨L, -, -, hmem, -⟩ := hbooted.run (hrun.mono fun _ _ h => h.safe)
  obtain ⟨d', k₂, hfork, hfamily, hflag, hfree, honly, -, -⟩ := hruns.forks hmem
  obtain ⟨k₃, hset, hlike⟩ :=
    hfamily.setsStatus (by decide) (show statusArg 2 = some .runnable by decide)
  obtain ⟨hstart, hchild, hfamily'⟩ := (hfamily.setStatus.like hlike).starts (by decide) (by decide)
  have hclean₁ : CleanStep k₁ (.trap 0 (callFrame .exofork 0 0 0 0 0) 0 0) := by
    have hcall := callFrame_calls .exofork 0 0 0 0 0
    refine ⟨fun _ => .of_calls fun call hc => by rw [hc.unique hcall]; decide,
      .of_calls fun call hc => by rw [hc.unique hcall]; decide,
      ⟨fun _ _ _ hc => absurd (hc.unique hcall) (by decide), fun _ e _ _ head => ?_⟩⟩
    obtain rfl : 1 = e := Option.some.inj (hruns.slots.symm.trans head)
    exact congrArg Env.ipcRecving (hruns.others 1 (by decide))
  have hclean₂ : CleanStep k₂ (.trap 0 (callFrame .envSetStatus 0x1001 2 0 0 0) 0 0) := by
    have hcall := callFrame_calls .envSetStatus 0x1001 2 0 0 0
    refine ⟨fun _ => .setStatus_of hcall fun _ e _ _ ⟨c, hc, hruns⟩ => ?_,
      .of_calls fun call hc => by rw [hc.unique hcall]; decide,
      ⟨fun cur e enters _ target _ => ?_, fun _ _ _ hc => absurd (hc.unique hcall) (by decide)⟩⟩
    · have hc' : c ≠ 0 := hc
      have hnone := (hfamily.cpus c (by omega)).1
      rw [hruns.2] at hnone
      simp at hnone
    · obtain rfl : 0 = cur := Option.some.inj (hfamily.parent.own.symm.trans enters.1)
      obtain rfl : 1 = e := Option.some.inj ((hfamily.target (by decide) true).symm.trans target)
      exact hflag 1
  refine ⟨k₀, _, d, d', hbooted, ?_, hfamily', hchild, ?_, ?_, fun e => ?_⟩
  rotate_left
  · rw [Kernel.ran_phys.1, hlike.phys]
    exact hfree
  · rw [Kernel.OnlyFirst, Kernel.ran_phys.1, Kernel.ran_dirs, hlike.phys, hlike.dirs]
    have hdirs : (k₂.setStatus 1 .runnable).dirs = k₂.dirs :=
      funext (Kernel.setEnv_field (f := Env.pgdir) rfl)
    rw [hdirs]
    exact honly
  · rw [Kernel.ran_field (f := Env.ipcRecving) fun _ _ _ _ => rfl,
      hlike.field (f := Env.ipcRecving) fun _ => rfl, ← hflag e]
    exact Kernel.setEnv_field (f := Env.ipcRecving) (by rfl) e
  exact ((hrun.tail ⟨_, hclean₁, hfork⟩).tail ⟨_, hclean₂, hset⟩).tail ⟨_, .start k₃ 1, hstart⟩

theorem qemu_family : ∃ k₀ k d d', Booted qemu [intProgram] k₀ ∧ Run CleanStep k₀ k ∧
    Family d d' 2 .running k ∧ k.Executes 1 1 d' := by
  obtain ⟨k₀, k, d, d', hbooted, hrun, hfamily, hchild, -⟩ := qemu_family_free
  exact ⟨k₀, k, d, d', hbooted, hrun, hfamily, hchild⟩

/-- Then the child waits for a message without a page. -/
theorem qemu_waits : ∃ k₀ k d d', Booted qemu [intProgram] k₀ ∧ Run SafeStep k₀ k ∧
    Family d d' 2 .notRunnable k ∧ (k.envs 1).ipcRecving = true ∧
    (k.envs 1).ipcDstva = utop := by
  obtain ⟨k₀, k₁, d, d', hbooted, hrun, hfamily, hchild⟩ := qemu_family
  obtain ⟨k, hrecv, hfamily', -, -, hflag, hdstva, -⟩ :=
    hfamily.receives (by decide) hchild utop (by decide)
  have hcall := callFrame_calls .ipcRecv utop 0 0 0 0
  have hsafe : SafeStep k₁ (.trap 1 (callFrame .ipcRecv utop 0 0 0 0) 0 0) :=
    .of_calls fun call hc => by rw [hc.unique hcall]; decide
  exact ⟨k₀, k, d, d', hbooted, (hrun.mono fun _ _ h => h.safe).tail ⟨_, hsafe, hrecv⟩,
    hfamily', hflag, hdstva⟩

/-- Or it waits for a page at `0x800000`. -/
theorem qemu_awaits : ∃ k₀ k d d', Booted qemu [intProgram] k₀ ∧ Run CleanStep k₀ k ∧
    Family d d' 2 .notRunnable k ∧ (k.envs 1).ipcRecving = true ∧
    (k.envs 1).ipcDstva = 0x800000 ∧ k.phys.FreePages 63 ∧ k.OnlyFirst ∧
    ∀ c, c ≠ 0 → k.curenv c ≠ some 1 := by
  obtain ⟨k₀, k₁, d, d', hbooted, hrun, hfamily, hchild, hfree, honly, -⟩ := qemu_family_free
  obtain ⟨k, hrecv, hfamily', hphys, hdirs, hflag, hdstva, hidle, -⟩ :=
    hfamily.receives (by decide) hchild 0x800000 (by decide)
  have hcall := callFrame_calls .ipcRecv 0x800000 0 0 0 0
  have hclean : CleanStep k₁ (.trap 1 (callFrame .ipcRecv 0x800000 0 0 0 0) 0 0) :=
    .of_calls fun call hc => by rw [hc.unique hcall]; decide
  refine ⟨k₀, k, d, d', hbooted, hrun.tail ⟨_, hclean, hrecv⟩, hfamily', hflag, ?_, ?_, ?_, ?_⟩
  · rw [hdstva, if_neg (by decide)]
  · rw [hphys]
    exact hfree
  · rw [Kernel.OnlyFirst, hphys, hdirs]
    exact honly
  · intro c hc
    by_cases h1 : c = 1
    · subst h1
      rw [hidle]
      simp
    · rw [(hfamily'.cpus c (by omega)).1]
      simp

end Jos
