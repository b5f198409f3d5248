import Jos.Sched.Exclusive

/-!
# Who has `env_ipc_recving` set

The flag is meant to say that an environment is blocked in `sys_ipc_recv`. It is
set by that call and cleared by a successful send, and by nothing else: a slot
keeps the flag of its previous occupant, and a parent that makes a blocked child
runnable does not clear it. Where neither happens, the flag means what it should.
-/

namespace Jos

open Prog

/-- The address that `sys_ipc_recv` records. -/
def recvDstva (dstva : Word) : Word := if dstva ≥ utop then utop else dstva

/-- The environment is suspended in a call of `sys_ipc_recv`: its saved registers
are those of the call, and the address of the call is recorded. -/
structure Env.Blocked (env : Env) : Prop where
  status : env.status = .notRunnable
  call : env.tf.Calls .ipcRecv
  dstva : env.ipcDstva = recvDstva env.tf.regs.edx

/-- No status change or slot reuse carries a set flag over to another state. -/
structure ClearsFlag (k : Kernel) (c : Nat) (tf : Trapframe) : Prop where
  setStatus : ∀ cur e, k.Enters c cur → tf.Calls .envSetStatus →
    k.envid2env cur tf.regs.edx true = some e → statusArg tf.regs.ecx = some .runnable →
    (k.envs e).ipcRecving = false
  fork : ∀ cur e, k.Enters c cur → tf.Calls .exofork → k.envFreeList = some e →
    (k.envs e).ipcRecving = false

/-- Every live environment with the flag set is blocked, and no CPU but perhaps
`inside` has it as its environment. -/
def FlagSound (inside : Option Nat) (k : Kernel) : Prop :=
  ∀ e, k.status e ≠ .free → (k.envs e).ipcRecving = true →
    (k.envs e).Blocked ∧ ∀ c, inside ≠ some c → ¬ k.RunsOn c e

variable {ok : EnvStatus → Prop} {k k' : Kernel} {c : Nat} {e cur : EnvIdx} {tf : Trapframe}

/-- `sys_ipc_recv` finds the registers as the trap saved them. -/
theorem Op.recv_tf (step : Op c tf cur (k.setTf cur tf) k') (call : tf.Calls .ipcRecv) :
    (k'.envs cur).tf = tf := by
  cases step with
  | quiet same =>
      rw [(same.envs cur).tf]
      simp [Kernel.setTf]
  | setStatus other target arg => exact absurd (call.unique other) (by decide)
  | doom other target _ running => exact absurd (call.unique other) (by decide)
  | release other target _ idle same => exact absurd (call.unique other) (by decide)
  | fork other head same => exact absurd (call.unique other) (by decide)
  | deliver other target recving same => exact absurd (call.unique other) (by decide)

namespace FlagSound

theorem same {i : Option Nat} (h : FlagSound i k) (hs : k.Same k') : FlagSound i k' := by
  intro e hlive hrecv
  rw [Kernel.status, (hs.envs e).status] at hlive
  rw [(hs.envs e).ipcRecving] at hrecv
  obtain ⟨⟨hstatus, hcall, hdst⟩, hruns⟩ := h e hlive hrecv
  refine ⟨⟨?_, ?_, ?_⟩, fun c hc hr => hruns c hc ?_⟩
  · rwa [(hs.envs e).status]
  · rwa [(hs.envs e).tf]
  · rwa [(hs.envs e).tf, (hs.envs e).ipcDstva]
  · obtain ⟨hmode, hcur⟩ := hr
    exact ⟨by rwa [Kernel.mode, hs.cpus] at hmode, by rwa [Kernel.curenv, hs.cpus] at hcur⟩

/-- A change to one environment, inside the kernel. -/
theorem setEnv {i : Option Nat} (h : FlagSound i k) {env : Env}
    (hnew : env.status ≠ .free → env.ipcRecving = true →
      env.Blocked ∧ ∀ c, i ≠ some c → ¬ k.RunsOn c e) : FlagSound i (k.setEnv e env) := by
  intro e' hlive hrecv
  by_cases he : e' = e
  · subst he
    rw [Kernel.status, Kernel.setEnv_envs_self] at hlive
    rw [Kernel.setEnv_envs_self] at hrecv ⊢
    exact hnew hlive hrecv
  · rw [Kernel.status, Kernel.setEnv_envs_of_ne _ he] at hlive
    rw [Kernel.setEnv_envs_of_ne _ he] at hrecv ⊢
    exact h e' hlive hrecv

/-- The CPUs outside the kernel may only stop running something. -/
theorem setCpu {i : Option Nat} (h : FlagSound i k) {cpu : Cpu}
    (hnew : i = some c ∨ cpu.mode ≠ .user) : FlagSound i (k.setCpu c cpu) := by
  intro e hlive hrecv
  obtain ⟨hblocked, hruns⟩ := h e hlive hrecv
  refine ⟨hblocked, fun c' hc' hr => ?_⟩
  by_cases hc : c' = c
  · subst hc
    rcases hnew with hi | hmode
    · exact hc' hi
    · apply hmode
      simpa [Kernel.RunsOn, Kernel.mode, Kernel.setCpu] using hr.1
  · refine hruns c' hc' ?_
    simpa [Kernel.RunsOn, Kernel.mode, Kernel.curenv, Kernel.setCpu, Function.update_of_ne hc]
      using hr

theorem released {i : Option Nat} (h : FlagSound i k) : FlagSound i (k.released e) := by
  have hset : FlagSound i (k.setEnv e
      { k.envs e with pgdir := none, status := .free, link := k.envFreeList }) :=
    h.setEnv fun hlive => absurd rfl hlive
  exact fun e' hlive hrecv => hset e' hlive hrecv

theorem exited (h : FlagSound (some c) k) : FlagSound (some c) (k.exited c cur) :=
  ((h.setCpu (.inl rfl)).released).setCpu (.inl rfl)

/-- `env_run` of an environment whose flag is clear. -/
theorem ran {d : Nat} (h : FlagSound (some c) k)
    (hclear : k.status e ≠ .free → (k.envs e).ipcRecving = false)
    (used : k.status e ≠ .free) : FlagSound none (k.ran c e d) := by
  intro e' hlive hrecv
  have hrecving : ((k.ran c e d).envs e').ipcRecving = (k.envs e').ipcRecving :=
    Kernel.ran_field (f := Env.ipcRecving) (fun _ _ _ _ => rfl) e'
  have htf : ((k.ran c e d).envs e').tf = (k.envs e').tf :=
    Kernel.ran_field (f := Env.tf) (fun _ _ _ _ => rfl) e'
  have hdstva : ((k.ran c e d).envs e').ipcDstva = (k.envs e').ipcDstva :=
    Kernel.ran_field (f := Env.ipcDstva) (fun _ _ _ _ => rfl) e'
  rw [hrecving] at hrecv
  have hne : e' ≠ e := by
    rintro rfl
    rw [hclear used] at hrecv
    simp at hrecv
  -- a blocked environment is not running, so it was not the one preempted either
  have hstatus : (k.ran c e d).status e' = k.status e' := by
    rw [Kernel.status, Kernel.ran_envs_of_ne hne]
    rcases Kernel.preempted_envs (k := k) (c := c) e' with hp | ⟨-, hrunning, -⟩
    · rw [hp, Kernel.status]
    · have hb := (h e' (by rw [hrunning]; decide) hrecv).1.status
      rw [Kernel.status, hb] at hrunning
      simp at hrunning
  rw [hstatus] at hlive
  obtain ⟨⟨hb, hcall, hdst⟩, hruns⟩ := h e' hlive hrecv
  refine ⟨⟨hstatus.trans hb, by rwa [htf], by rwa [htf, hdstva]⟩, fun c' _ hr => ?_⟩
  by_cases hc : c' = c
  · subst hc
    have := hr.2
    rw [Kernel.curenv, Kernel.ran_cpus_self] at this
    exact hne (Option.some.inj this).symm
  · refine hruns c' (fun heq => hc (Option.some.inj heq).symm) ?_
    simpa [Kernel.RunsOn, Kernel.mode, Kernel.curenv, Kernel.ran_cpus_of_ne hc] using hr

theorem dispatch (h : FlagSound (some c) k) (out : Dispatch c k k') : FlagSound none k' := by
  have hleave : ∀ cpu : Cpu, cpu.mode ≠ .user → FlagSound none (k.setCpu c cpu) := by
    intro cpu hmode e hlive hrecv
    have hin : FlagSound (some c) (k.setCpu c cpu) := h.setCpu (.inl rfl)
    obtain ⟨hb, hruns⟩ := hin e hlive hrecv
    refine ⟨hb, fun c' _ hr => ?_⟩
    by_cases hc : c' = c
    · subst hc
      apply hmode
      simpa [Kernel.RunsOn, Kernel.mode, Kernel.setCpu] using hr.1
    · exact hruns c' (fun heq => hc (Option.some.inj heq).symm) hr
  cases out with
  | @run e d ready pgdir =>
      have hne : k.status e ≠ .notRunnable ∧ k.status e ≠ .free := by
        rcases ready with hr | ⟨-, hr⟩ <;> rw [hr] <;> decide
      refine h.ran (fun hlive => ?_) hne.2
      by_contra hrecv
      exact hne.1 (h e hlive (by simpa using hrecv)).1.status
  | halt => exact hleave _ (by simp)
  | monitor => exact hleave _ (by simp)

/-- The operation of a trap. The caller's own flag stays clear. -/
theorem op (h : FlagSound (some c) k) (hex : Exclusive ok (some c) k)
    (own : k.curenv c = some cur) (alive : k.status cur ≠ .dying)
    (hclear : (k.envs cur).ipcRecving = false) (clears : ClearsFlag k c tf)
    (step : Op c tf cur (k.setTf cur tf) k') :
    FlagSound (some c) k' ∧ (k'.envs cur).ipcRecving = false := by
  have enters : k.Enters c cur := ⟨own, alive⟩
  have hrecving : ∀ e, ((k.setTf cur tf).envs e).ipcRecving = (k.envs e).ipcRecving :=
    Kernel.setEnv_field (f := Env.ipcRecving) (by rfl)
  have h₁ : FlagSound (some c) (k.setTf cur tf) := by
    refine h.setEnv fun _ hrecv => ?_
    rw [hclear] at hrecv
    simp at hrecv
  have own₁ : ((k.setTf cur tf).envs cur).ipcRecving = false := by rw [hrecving, hclear]
  cases step with
  | quiet same => exact ⟨h₁.same same, by rw [(same.envs cur).ipcRecving, own₁]⟩
  | @setStatus e st call target arg =>
      refine ⟨h₁.setEnv fun hlive hrecv => ?_, ?_⟩
      · have hst : st = .notRunnable := by
          rcases statusArg_cases arg with rfl | rfl
          · rw [Kernel.envid2env_setTf] at target
            have := clears.setStatus cur e enters call target arg
            rw [hrecving, this] at hrecv
            simp at hrecv
          · rfl
        subst hst
        have hused := (hex.setTf own).target_used own target
        obtain ⟨⟨-, hcall, hdst⟩, hruns⟩ := h₁ e hused hrecv
        exact ⟨⟨rfl, hcall, hdst⟩, hruns⟩
      · rw [← own₁]
        exact Kernel.setEnv_field (f := Env.ipcRecving) (by rfl) cur
  | @doom e call target other running =>
      refine ⟨h₁.setEnv fun _ hrecv => ?_, ?_⟩
      · have hb := (h₁ e (by rw [running]; decide) hrecv).1.status
        rw [Kernel.status, hb] at running
        simp at running
      · rw [← own₁]
        exact Kernel.setEnv_field (f := Env.ipcRecving) (by rfl) cur
  | release call target other idle same =>
      refine ⟨h₁.released.same same, ?_⟩
      rw [(same.envs cur).ipcRecving, ← own₁]
      exact Kernel.setEnv_field (f := Env.ipcRecving) (by rfl) cur
  | @fork _ e d tf' call head same =>
      have hfork : FlagSound (some c)
          ((k.setTf cur tf).forked e ((k.setTf cur tf).envs cur).id d tf') := by
        refine FlagSound.setEnv h₁ fun _ hrecv => ?_
        rw [hrecving, clears.fork cur e enters call head] at hrecv
        simp at hrecv
      refine ⟨hfork.same same, ?_⟩
      rw [(same.envs cur).ipcRecving, ← own₁]
      exact Kernel.setEnv_field (f := Env.ipcRecving) (by rfl) cur
  | @deliver _ e call target recving same =>
      have hsent : FlagSound (some c)
          ((k.setTf cur tf).delivered e ((k.setTf cur tf).envs cur).id tf.regs.ecx) :=
        h₁.setEnv fun _ hrecv => by simp at hrecv
      refine ⟨hsent.same same, ?_⟩
      rw [(same.envs cur).ipcRecving]
      by_cases he : cur = e
      · subst he
        simp [Kernel.delivered]
      · simpa [Kernel.delivered, Kernel.setEnv_envs_of_ne _ he] using own₁

theorem finish (h : FlagSound (some c) k) (hex : Exclusive ok (some c) k)
    (own : k.curenv c = some cur) (hclear : (k.envs cur).ipcRecving = false)
    (htf : tf.Calls .ipcRecv → (k.envs cur).tf = tf) (out : Finish c tf cur k k') :
    FlagSound none k' := by
  have hown := hex.own c cur rfl own
  have hregs : ∀ tf', FlagSound (some c) (k.setTf cur tf') := by
    intro tf'
    refine h.setEnv fun _ hrecv => ?_
    rw [hclear] at hrecv
    simp at hrecv
  cases out with
  | dispatch out => exact h.dispatch out
  | result r out => exact (hregs _).dispatch out
  | wait call out =>
      have hwait : FlagSound (some c) (k.waiting cur tf.regs.edx) := by
        refine h.setEnv fun _ _ => ⟨⟨rfl, ?_, ?_⟩, fun c' hc hr => ?_⟩
        · rwa [htf call]
        · rw [htf call]
          rfl
        · exact hown.2 ⟨c', fun heq => hc (congrArg some heq.symm), hr⟩
      exact hwait.dispatch out
  | exit same out => exact (h.exited.same same).dispatch out
  | upcall tf' pgdir =>
      refine (hregs tf').ran (fun _ => ?_) ?_
      · rw [← hclear]
        exact Kernel.setEnv_field (f := Env.ipcRecving) (by rfl) cur
      · rw [Kernel.setTf_status]
        exact hown.1

theorem enter {i : Option Nat} (h : FlagSound none k) : FlagSound i k :=
  fun e hlive hrecv => ⟨(h e hlive hrecv).1, fun c _ => (h e hlive hrecv).2 c (by simp)⟩

theorem entry (h : FlagSound none k) (hex : Exclusive ok none k) (hok : Executable ok)
    (lock : k.Unlocked) (safe : SafeEntry ok k c tf) (clears : ClearsFlag k c tf)
    (entry : Entry c tf k k') : FlagSound none k' := by
  cases entry with
  | idle none out => exact h.enter.dispatch out
  | collect own zombie same out => exact (h.enter.exited.same same).dispatch out
  | @act _ _ cur own alive op out =>
      have hmode := hex.mode_of_curenv lock own
      have hin := hex.enter hok hmode
      have hclear : (k.envs cur).ipcRecving = false := by
        by_contra hrecv
        exact (h cur (hin.own c cur rfl own).1 (by simpa using hrecv)).2 c (by simp) ⟨hmode, own⟩
      obtain ⟨hex₁, own₁⟩ := hin.op hok own alive safe op
      obtain ⟨h₁, hclear₁⟩ := h.enter.op hin own alive hclear clears op
      exact h₁.finish hex₁ own₁ hclear₁ op.recv_tf out

theorem step {ev : Event} (h : FlagSound none k) (hex : Exclusive ok none k)
    (hok : Executable ok) (safe : SafeEntry ok k ev.cpu ev.frame)
    (clears : ClearsFlag k ev.cpu ev.frame) (step : Step k ev k') : FlagSound none k' := by
  rcases hex.step_cases step with same | ⟨lock, entry⟩
  · exact h.same same
  · exact h.entry hex hok lock safe clears entry

/-- The invariant holds in every state of a run in which all entries are safe and
none carries a set flag over. -/
theorem run {G : Kernel → Event → Prop} (h : FlagSound none k) (hex : Exclusive ok none k)
    (hok : Executable ok) (safe : ∀ k ev, G k ev → SafeEntry ok k ev.cpu ev.frame)
    (clears : ∀ k ev, G k ev → ClearsFlag k ev.cpu ev.frame) (run : Run G k k') :
    FlagSound none k' := by
  induction run with
  | refl => exact h
  | tail before last ih =>
      obtain ⟨ev, hg, hstep⟩ := last
      exact ih.step (hex.run hok safe before) hok (safe _ ev hg) (clears _ ev hg) hstep

end FlagSound

end Jos
