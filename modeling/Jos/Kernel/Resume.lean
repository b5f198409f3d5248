import Jos.Kernel.Isolation

/-!
# Back to user mode

The exact course of the traps that a run is made of: a system call that returns
to its environment, one that gives the CPU up, and the first time a CPU calls the
scheduler. Up to registers and counters the state in which user code goes on is
the one that the system call left (`Kernel.Like`).
-/

namespace Jos

open Prog

/-- An environment without what every kernel entry changes. -/
def Env.core (env : Env) : Env := { env with tf := .zero, runs := 0, cpunum := 0 }

namespace Kernel

/-- Up to registers and counters of the environments `k'` is `k`. -/
structure Like (k k' : Kernel) : Prop where
  phys : k'.phys = k.phys
  kernPgdir : k'.kernPgdir = k.kernPgdir
  envs : ∀ e, (k'.envs e).core = (k.envs e).core
  envFreeList : k'.envFreeList = k.envFreeList
  cpus : k'.cpus = k.cpus

/-- The CPU `c` executes the environment `e` with the page directory `d`. -/
structure Executes (k : Kernel) (c : Nat) (e : EnvIdx) (d : Nat) : Prop where
  unlocked : k.Unlocked
  cpu : k.cpus c = ⟨some e, .user, d⟩
  running : k.status e = .running
  pgdir : (k.envs e).pgdir = some d

end Kernel

variable {k k' k₁ : Kernel} {c : Nat} {e : EnvIdx} {d : Nat} {tf : Trapframe}

namespace Kernel.Like

theorem refl (k : Kernel) : k.Like k := ⟨rfl, rfl, fun _ => rfl, rfl, rfl⟩

theorem trans (h : k.Like k₁) (h' : k₁.Like k') : k.Like k' :=
  ⟨h'.phys.trans h.phys, h'.kernPgdir.trans h.kernPgdir, fun e => (h'.envs e).trans (h.envs e),
    h'.envFreeList.trans h.envFreeList, h'.cpus.trans h.cpus⟩

/-- A field that kernel entries do not change. -/
theorem field {β : Type} {f : Env → β} (h : k.Like k') (hf : ∀ env : Env, f env.core = f env)
    (e : EnvIdx) : f (k'.envs e) = f (k.envs e) := by
  rw [← hf, h.envs, hf]

theorem status (h : k.Like k') (e : EnvIdx) : k'.status e = k.status e :=
  h.field (f := Env.status) (fun _ => rfl) e

theorem dirs (h : k.Like k') : k'.dirs = k.dirs :=
  funext (h.field (f := Env.pgdir) fun _ => rfl)

theorem executes (h : k.Like k') (hx : k.Executes c e d) : k'.Executes c e d := by
  refine ⟨fun c' => ?_, by rw [h.cpus, hx.cpu], by rw [h.status, hx.running], ?_⟩
  · rw [Kernel.mode, h.cpus]
    exact hx.unlocked c'
  · rw [h.field (f := Env.pgdir) fun _ => rfl, hx.pgdir]

/-- The memory does not matter. -/
theorem withPhys (h : k.Like k') (p : Phys) :
    ({ k with phys := p } : Kernel).Like { k' with phys := p } :=
  ⟨rfl, h.kernPgdir, h.envs, h.envFreeList, h.cpus⟩

theorem setTf (k : Kernel) (e : EnvIdx) (tf : Trapframe) : k.Like (k.setTf e tf) :=
  ⟨rfl, rfl, Kernel.setEnv_field (f := Env.core) rfl, rfl, rfl⟩

theorem setEnv (h : k.Like k') {a b : Env} (hab : b.core = a.core) :
    (k.setEnv e a).Like (k'.setEnv e b) := by
  refine ⟨h.phys, h.kernPgdir, fun e' => ?_, h.envFreeList, h.cpus⟩
  by_cases he : e' = e
  · subst he
    simpa using hab
  · rw [Kernel.setEnv_envs_of_ne _ he, Kernel.setEnv_envs_of_ne _ he, h.envs]

/-- Running on leaves everything as it is. -/
theorem ran (h : k.Executes c e d) : k.Like (k.ran c e d) := by
  refine ⟨Kernel.ran_phys.1, Kernel.ran_phys.2, fun e' => ?_, Kernel.ran_envFreeList, ?_⟩
  · have hown : k.curenv c = some e := congrArg Cpu.env h.cpu
    have hstatus : (k.envs e).status = .running := h.running
    by_cases he : e' = e
    · subst he
      rw [Kernel.ran_envs_self]
      rcases Kernel.preempted_envs (k := k) (c := c) e' with hp | ⟨-, -, hp⟩
      · rw [hp, Env.core, ← hstatus]
        rfl
      · rw [hp, Env.core, ← hstatus]
        rfl
    · rw [Kernel.ran_envs_of_ne he]
      rcases Kernel.preempted_envs (k := k) (c := c) e' with hp | ⟨hcur, -, -⟩
      · rw [hp]
      · exact absurd (Option.some.inj (hcur.symm.trans hown)) he
  · funext c'
    by_cases hc : c' = c
    · subst hc
      rw [Kernel.ran_cpus_self, h.cpu]
    · exact Kernel.ran_cpus_of_ne hc

end Kernel.Like

theorem Kernel.Executes.own (h : k.Executes c e d) : k.curenv c = some e := congrArg Cpu.env h.cpu

theorem Kernel.Executes.mode (h : k.Executes c e d) : k.mode c = .user := congrArg Cpu.mode h.cpu

theorem Kernel.Executes.runsOn (h : k.Executes c e d) : k.RunsOn c e := ⟨h.mode, h.own⟩

/-- The registers of a system call. -/
def callFrame (call : SysCall) (a1 a2 a3 a4 a5 : Word) : Trapframe :=
  { Trapframe.fresh with
    regs := ⟨a4, a5, 0, 0, a3, a1, a2, call.number⟩
    trapno := tSyscall }

@[simp] theorem SysCall.ofNumber_number (call : SysCall) :
    SysCall.ofNumber call.number = some call := by
  cases call <;> decide

theorem callFrame_calls (call : SysCall) (a1 a2 a3 a4 a5 : Word) :
    (callFrame call a1 a2 a3 a4 a5).Calls call := ⟨rfl, SysCall.ofNumber_number call⟩

theorem callFrame_ring (call : SysCall) (a1 a2 a3 a4 a5 : Word) :
    (callFrame call a1 a2 a3 a4 a5).cs &&& 3 = 3 := by
  change (gdUt ||| 3) &&& 3 = 3
  decide

theorem envid2env_run {envid : Word} {checkperm : Bool} {o : Option EnvIdx}
    (h : k.envid2env e envid checkperm = o) : envid2env e envid checkperm k = .ret o k := by
  rw [← h]
  rfl

theorem pgdirOf_run (h : (k.envs e).pgdir = some d) : pgdirOf e k = .ret d k := by
  rw [pgdirOf, get_bind, h]
  rfl

theorem insertInto_ret {pp : Nat} {va perm r : Word} {q : Phys} (hd : (k.envs e).pgdir = some d)
    (h : pageInsert d pp va perm k.phys = .ret r q) :
    insertInto e pp va perm k = .ret r { k with phys := q } := by
  rw [insertInto, bind_ret _ (pgdirOf_run hd)]
  exact pmap_ret h

/-- `sys_page_map` after all checks. -/
theorem sysPageMap_run {cur src dst : EnvIdx} {srcid srcva dstid dstva perm w r : Word} {pp : Nat}
    (hsrc : k.envid2env cur srcid true = some src) (hdst : k.envid2env cur dstid true = some dst)
    (hva : vaOk srcva ∧ vaOk dstva) (lookup : lookupIn src srcva k = .ret (some (pp, w)) k)
    (write : ¬ (perm &&& pteW ≠ 0 ∧ w &&& pteW = 0)) (hperm : permOk perm)
    (insert : insertInto dst pp dstva perm k = .ret r k') :
    sysPageMap cur srcid srcva dstid dstva perm k =
      .ret (if r.slt 0 then -eNoMem else 0) k' := by
  rw [sysPageMap, bind_ret _ (envid2env_run hsrc)]
  dsimp only
  rw [bind_ret _ (envid2env_run hdst)]
  dsimp only
  rw [if_neg (not_not.mpr hva), bind_ret _ lookup]
  dsimp only
  rw [if_neg write, if_neg (not_not.mpr hperm), bind_ret _ insert]
  split <;> rfl

theorem Kernel.setTf_pgdir (h : (k.envs e).pgdir = some d) :
    ((k.setTf e tf).envs e).pgdir = some d := by
  rw [Kernel.setTf, Kernel.setEnv_envs_self, ← h]

@[simp] theorem Kernel.envid2env_zero (checkperm : Bool) : k.envid2env e 0 checkperm = some e :=
  if_pos rfl

section Calls

variable {call : SysCall} {a1 a2 a3 a4 a5 input r : Word}

theorem trapEnter_run (h : k.Executes c e d) : trapEnter c tf k = .ret () (k.setTf e tf) :=
  trapEnter_saves h.own (by rw [h.running]; decide)

/-- The system call of a trap returns. -/
theorem trapDispatch_ret (hown : k.curenv c = some e) (trapno : tf.trapno = tSyscall) {cr2 : Word}
    (hsys : syscall c e input tf.regs.eax tf.regs.edx tf.regs.ecx tf.regs.ebx tf.regs.edi
      tf.regs.esi k = .ret r k₁) :
    trapDispatch c tf cr2 input k = .ret () (k₁.setTf e ((k₁.envs e).tf.setEax r)) := by
  rw [trapDispatch, get_bind, if_neg (by rw [trapno]; decide), if_neg (by rw [trapno]; decide),
    if_pos trapno, hown]
  exact bind_ret _ hsys

/-- It gives the CPU up. -/
theorem trapDispatch_exit (hown : k.curenv c = some e) (trapno : tf.trapno = tSyscall) {cr2 : Word}
    (hsys : syscall c e input tf.regs.eax tf.regs.edx tf.regs.ecx tf.regs.ebx tf.regs.edi
      tf.regs.esi k = .exit () k₁) :
    trapDispatch c tf cr2 input k = .exit () k₁ := by
  rw [trapDispatch, get_bind, if_neg (by rw [trapno]; decide), if_neg (by rw [trapno]; decide),
    if_pos trapno, hown]
  exact bind_exit _ hsys

/-- A system call that returns and leaves its environment running is followed by user code. -/
theorem Kernel.Executes.returns (h : k.Executes c e d)
    (hsys : syscall c e 0 call.number a1 a2 a3 a4 a5
      (k.setTf e (callFrame call a1 a2 a3 a4 a5)) = .ret r k₁) (h₁ : k₁.Executes c e d) :
    ∃ k', Step k (.trap c (callFrame call a1 a2 a3 a4 a5) 0 0) k' ∧ k₁.Like k' := by
  have hlike := Kernel.Like.setTf k₁ e ((k₁.envs e).tf.setEax r)
  have hx := hlike.executes h₁
  have own' : (k.setTf e (callFrame call a1 a2 a3 a4 a5)).curenv c = some e := h.own
  refine ⟨_, .trap h.mode h.unlocked (callFrame_ring call a1 a2 a3 a4 a5) ?_,
    hlike.trans (.ran hx)⟩
  rw [trap, when_pos _ (callFrame_ring call a1 a2 a3 a4 a5), bind_ret _ (trapEnter_run h),
    bind_ret _ (trapDispatch_ret own' rfl hsys), trapReturn, get_bind, hx.own]
  dsimp only
  rw [if_pos hx.running]
  exact envRun_run hx.pgdir

/-- A system call that only changes memory. -/
theorem Kernel.Executes.memory (h : k.Executes c e d) {q : Phys}
    (hsys : syscall c e 0 call.number a1 a2 a3 a4 a5 (k.setTf e (callFrame call a1 a2 a3 a4 a5)) =
      .ret r { k.setTf e (callFrame call a1 a2 a3 a4 a5) with phys := q }) :
    ∃ k', Step k (.trap c (callFrame call a1 a2 a3 a4 a5) 0 0) k' ∧
      ({ k with phys := q } : Kernel).Like k' := by
  have hlike := Kernel.Like.setTf { k with phys := q } e (callFrame call a1 a2 a3 a4 a5)
  have hx : ({ k with phys := q } : Kernel).Executes c e d :=
    ⟨h.unlocked, h.cpu, h.running, h.pgdir⟩
  obtain ⟨k', hstep, hlike'⟩ := h.returns hsys (hlike.executes hx)
  exact ⟨k', hstep, hlike.trans hlike'⟩

/-- A system call that does not return. -/
theorem Kernel.Executes.leaves (h : k.Executes c e d)
    (hsys : syscall c e 0 call.number a1 a2 a3 a4 a5
      (k.setTf e (callFrame call a1 a2 a3 a4 a5)) = .exit () k₁) :
    Step k (.trap c (callFrame call a1 a2 a3 a4 a5) 0 0) k₁ := by
  have own' : (k.setTf e (callFrame call a1 a2 a3 a4 a5)).curenv c = some e := h.own
  refine .trap h.mode h.unlocked (callFrame_ring call a1 a2 a3 a4 a5) ?_
  rw [trap, when_pos _ (callFrame_ring call a1 a2 a3 a4 a5), bind_ret _ (trapEnter_run h)]
  exact bind_exit _ (trapDispatch_exit own' rfl hsys)

/-- The scan of the scheduler, one slot at a time. -/
theorem schedScan_here (n : Nat) {i : Option EnvIdx} (h : k.status (nextIndex i) = .runnable) :
    k.schedScan (n + 1) i = some (nextIndex i) := by
  rw [Kernel.schedScan, if_pos h]

theorem schedScan_next (n : Nat) {i : Option EnvIdx} (h : k.status (nextIndex i) ≠ .runnable) :
    k.schedScan (n + 1) i = k.schedScan n (some (nextIndex i)) := by
  rw [Kernel.schedScan, if_neg h]

theorem schedScan_none (h : ∀ e, k.status e ≠ .runnable) {n : Nat} {i : Option EnvIdx} :
    k.schedScan n i = none := by
  induction n generalizing i with
  | zero => rfl
  | succ n ih => rw [schedScan_next n (h _), ih]

/-- A CPU without an environment runs the first runnable one. -/
theorem start_runs (mode : k.mode c = .starting) (lock : k.Unlocked) (idle : k.curenv c = none)
    (hscan : k.schedScan nenv none = some e) (pgdir : (k.envs e).pgdir = some d) :
    Step k (.start c) (k.ran c e d) := by
  refine .start mode lock ?_
  rw [schedYield, get_bind, idle, Option.map_none, hscan]
  exact envRun_run pgdir

end Calls

end Jos
