import Jos.Kernel.Resume
import Jos.Sched.Answers

/-!
# Answers, and environments that are not started yet

`sys_exofork` returns the id of the slot that it took from the free list, and nobody has the new
environment on a CPU until it is made runnable. Between the two nothing but calls for the child
itself can change that. `sys_ipc_try_send` returns 0 or an error.
-/

namespace Jos

open Prog

variable {k k₁ k' : Kernel} {c d : Nat} {e cur child : EnvIdx} {tf : Trapframe}

/-- An envid names its own slot, or the caller. -/
theorem Kernel.envid2env_slot {envid : Word} {checkperm : Bool}
    (h : k.envid2env cur envid checkperm = some e) :
    e = cur ∨ e = envx envid ∧ (k.envs e).id = envid := by
  rw [Kernel.envid2env] at h
  split at h
  · exact .inl (Option.some.inj h).symm
  · dsimp only at h
    split at h
    · simp at h
    · rename_i hlive
      split at h
      · simp at h
      · obtain rfl := Option.some.inj h
        exact .inr ⟨rfl, by_contra fun hid => hlive (.inr hid)⟩

/-! ### The answer of `sys_exofork` -/

/-- What `sys_exofork` returns, and does to the table. -/
def ForkResult (k : Kernel) (cur : EnvIdx) (r : Word) (k' : Kernel) : Prop :=
  r.slt 0 = true ∧ k.Same k' ∨ ∃ e d, k.envFreeList = some e ∧
    r = nextEnvId (k.envs e).id e ∧ (k.forked e (k.envs cur).id d (k'.envs e).tf).Same k'

theorem sysExofork_result {X : Unit → Kernel → Prop} :
    wp (sysExofork cur) (ForkResult k cur) X (fun _ => True) k := by
  rw [sysExofork, wp_bind, wp_get, wp_bind, envAlloc, wp_bind, wp_get]
  cases head : k.envFreeList with
  | none => exact wp_pure _ |>.mpr (wp_pure _ |>.mpr (.inl ⟨by decide, .refl k⟩))
  | some e =>
      simp only [wp_bind]
      apply wp_imp envSetupVm_op
      rintro r k₁ (⟨hr, same⟩ | ⟨rfl, d, same⟩)
      · rw [if_pos hr]
        exact wp_pure _ |>.mpr (wp_pure _ |>.mpr (.inl ⟨hr, same⟩))
      · rw [if_neg (by decide)]
        simp only [wp_bind, wp_modify, wp_pure, wp_get, Kernel.setStatus, Kernel.setTf,
          Kernel.setEnv_envs_self, Kernel.setEnv_setEnv]
        obtain ⟨-, hlink, hid, -, -, hpgdir, hrecv, hdst⟩ := same.envs e
        rw [Kernel.setEnv_envs_self] at hlink hid hpgdir hrecv hdst
        refine .inr ⟨e, d, head, by rw [hid], ⟨fun e' => ?_, hlink, same.kernPgdir, same.cpus⟩⟩
        by_cases he : e' = e
        · subst he
          simp only [Kernel.forked, Kernel.setEnv, Function.update_self]
          exact ⟨rfl, hlink, by rw [hid], rfl, rfl, hpgdir, hrecv, hdst⟩
        · have hsame := same.envs e'
          simp only [Kernel.forked, Kernel.setEnv, Function.update_of_ne he] at hsame ⊢
          exact hsame

/-- A system call that leaves its environment running ends with its result in `%eax`. -/
theorem Step.returns {P : Word → Kernel → Prop} {cr2 input : Word}
    (step : Step k (.trap c tf cr2 input) k') (hx : k.Executes c cur d)
    (trapno : tf.trapno = tSyscall)
    (spec : wp (syscall c cur input tf.regs.eax tf.regs.edx tf.regs.ecx tf.regs.ebx tf.regs.edi
        tf.regs.esi) (fun r k₁ => k₁.Executes c cur d ∧ P r k₁) (fun _ _ => False) (fun _ => True)
      (k.setTf cur tf)) :
    ∃ r k₁, P r k₁ ∧ k₁.Like k' ∧ k'.Executes c cur d ∧ (k'.envs cur).tf.regs.eax = r ∧
      ∀ e, e ≠ cur → (k'.envs e).tf = (k₁.envs e).tf := by
  cases step with
  | wake mode lock ring run => exact absurd (mode.symm.trans hx.mode) (by decide)
  | trap mode lock ring run =>
      have alive : k.status cur ≠ .dying := by
        rw [hx.running]
        decide
      have own : (k.setTf cur tf).curenv c = some cur := hx.own
      suffices hwp : wp (Jos.trap c tf cr2 input) (fun _ _ => False) (fun _ k' => ∃ r k₁, P r k₁ ∧
          k₁.Like k' ∧ k'.Executes c cur d ∧ (k'.envs cur).tf.regs.eax = r ∧
          ∀ e, e ≠ cur → (k'.envs e).tf = (k₁.envs e).tf) (fun _ => True) k from
        (wp_exit_eq run).mp hwp
      rw [wp_trap_act hx.own alive ring, wp_trapDispatch_syscall own trapno]
      refine wp_mono spec (fun r k₁ h₁ => ?_) (fun _ _ hf => hf.elim) fun _ _ => trivial
      obtain ⟨hx₁, hP⟩ := h₁
      rw [wp_bind, wp_modify]
      have hlike := Kernel.Like.setTf k₁ cur ((k₁.envs cur).tf.setEax r)
      have hx₂ := hlike.executes hx₁
      have htf : ∀ e, (((k₁.setTf cur ((k₁.envs cur).tf.setEax r)).ran c cur d).envs e).tf =
          ((k₁.setTf cur ((k₁.envs cur).tf.setEax r)).envs e).tf :=
        Kernel.ran_field (f := Env.tf) fun _ _ _ _ => rfl
      rw [trapReturn, wp_bind, wp_get, hx₂.own]
      dsimp only
      rw [if_pos hx₂.running]
      refine (wp_exit_eq (envRun_run hx₂.pgdir)).mpr ⟨r, k₁, hP, hlike.trans (.ran hx₂),
        (Kernel.Like.ran hx₂).executes hx₂, ?_, fun e he => ?_⟩
      · rw [htf, Kernel.setTf, Kernel.setEnv_envs_self]
        rfl
      · rw [htf, Kernel.setTf, Kernel.setEnv_envs_of_ne _ he]

/-- What is the same for scheduling and messages is executed as before. -/
theorem Kernel.Executes.of_same (hx : k.Executes c cur d) (cpus : k'.cpus = k.cpus)
    (same : (k.envs cur).Same (k'.envs cur)) : k'.Executes c cur d := by
  refine ⟨fun c' => ?_, by rw [cpus, hx.cpu], ?_, by rw [same.pgdir, hx.pgdir]⟩
  · rw [Kernel.mode, cpus]
    exact hx.unlocked c'
  · rw [Kernel.status, same.status]
    exact hx.running

/-- What the trap of `cur`, a call of `sys_exofork`, comes to. -/
inductive ForkStep (k : Kernel) (cur : EnvIdx) (k' : Kernel) : Prop
  | made {child : EnvIdx} (head : k.envFreeList = some child)
      (answer : (k'.envs cur).tf.regs.eax = nextEnvId (k.envs child).id child)
      (id : (k'.envs child).id = nextEnvId (k.envs child).id child)
      (status : k'.status child = .notRunnable)
      (others : ∀ e, e ≠ child → (k'.envs e).id = (k.envs e).id)
      (regs : ∀ e, e ≠ cur → e ≠ child → (k'.envs e).tf = (k.envs e).tf)
  | refused (answer : (k'.envs cur).tf.regs.eax.slt 0 = true)
      (ids : ∀ e, (k'.envs e).id = (k.envs e).id)
      (regs : ∀ e, e ≠ cur → (k'.envs e).tf = (k.envs e).tf)

theorem syscall_exofork {input n a1 a2 a3 a4 a5 : Word} (h : SysCall.ofNumber n = some .exofork) :
    syscall c cur input n a1 a2 a3 a4 a5 = sysExofork cur := by
  rw [syscall, h]

theorem Kernel.forked_envs_of_ne {parentId : Word} (h : e ≠ child) :
    (k.forked child parentId d tf).envs e = k.envs e := Kernel.setEnv_envs_of_ne _ h

/-- A running environment makes a child. -/
theorem Step.forkStep {cr2 input : Word} (step : Step k (.trap c tf cr2 input) k')
    (hx : k.Executes c cur d) (slots : k.SlotsFree) (call : tf.Calls .exofork) :
    k'.RunsOn c cur ∧ ForkStep k cur k' := by
  have hx₀ := (Kernel.Like.setTf k cur tf).executes hx
  have hid : ∀ e, ((k.setTf cur tf).envs e).id = (k.envs e).id :=
    Kernel.setEnv_field (f := Env.id) (by rfl)
  have htf : ∀ e, e ≠ cur → ((k.setTf cur tf).envs e).tf = (k.envs e).tf := fun e he =>
    congrArg Env.tf (Kernel.setEnv_envs_of_ne _ he)
  have hne : ∀ {e}, k.envFreeList = some e → cur ≠ e := by
    rintro e head rfl
    have hfree := (slots.forked head 0 0 .zero).1
    rw [hx.running] at hfree
    exact absurd hfree (by decide)
  have spec : wp (sysExofork cur) (fun r k₁ => k₁.Executes c cur d ∧
      ForkResult (k.setTf cur tf) cur r k₁) (fun _ _ => False) (fun _ => True)
      (k.setTf cur tf) := by
    refine wp_mono (sysExofork_result (X := fun _ _ => False)) (fun r k₁ h₁ => ⟨?_, h₁⟩)
      (fun _ _ hf => hf) fun _ he => he
    obtain ⟨-, same⟩ | ⟨child, d', head, rfl, same⟩ := h₁
    · exact hx₀.of_same same.cpus (same.envs cur)
    · have hcur := same.envs cur
      rw [Kernel.forked_envs_of_ne (hne head)] at hcur
      exact hx₀.of_same same.cpus hcur
  obtain ⟨r, k₁, htable, hlike, hx', answer, regs⟩ :=
    step.returns hx call.1 (by rw [syscall_exofork call.2]; exact spec)
  refine ⟨hx'.runsOn, ?_⟩
  obtain ⟨hr, same⟩ | ⟨child, d', head, rfl, same⟩ := htable
  · refine .refused (by rw [answer]; exact hr) (fun e => ?_) fun e he => ?_
    · rw [hlike.field (f := Env.id) fun _ => rfl, (same.envs e).id, hid]
    · rw [regs e he, (same.envs e).tf, htf e he]
  · have hself := same.envs child
    rw [Kernel.forked, Kernel.setEnv_envs_self] at hself
    refine .made head (by rw [answer, hid]) ?_ ?_ (fun e he => ?_) fun e he hchild => ?_
    · rw [hlike.field (f := Env.id) fun _ => rfl, hself.id, hid]
    · rw [hlike.status, Kernel.status, hself.status]
    · rw [hlike.field (f := Env.id) fun _ => rfl, (same.envs e).id,
        Kernel.forked_envs_of_ne he, hid]
    · rw [regs e he, (same.envs e).tf, Kernel.forked_envs_of_ne hchild, htf e he]

/-- Nobody else gets a new id. -/
theorem Op.id_eq (op : Op c tf cur k k') (fork : ¬ tf.Calls .exofork) (e : EnvIdx) :
    (k'.envs e).id = (k.envs e).id := by
  cases op with
  | quiet same => exact (same.envs e).id
  | setStatus call target arg => exact Kernel.setEnv_field (f := Env.id) (by rfl) e
  | doom call target other running => exact Kernel.setEnv_field (f := Env.id) (by rfl) e
  | release call target other idle same =>
      exact (same.envs e).id.trans (Kernel.setEnv_field (f := Env.id) (by rfl) e)
  | fork call head same => exact absurd call fork
  | deliver call target recving same =>
      exact (same.envs e).id.trans (Kernel.setEnv_field (f := Env.id) (by rfl) e)

theorem Entry.id_eq (entry : Entry c tf k k') (fork : ¬ tf.Calls .exofork) (e : EnvIdx) :
    (k'.envs e).id = (k.envs e).id := by
  cases entry with
  | idle none out => exact out.field (fun _ _ _ _ => rfl) e
  | collect own zombie same out =>
      rw [out.field (f := Env.id) (fun _ _ _ _ => rfl) e, (same.envs e).id, Kernel.exited_id]
  | act own alive op out =>
      rw [out.id e, op.id_eq fork]
      exact Kernel.setEnv_field (f := Env.id) (by rfl) e

/-! ### The answer of `sys_ipc_try_send` -/

theorem ipcDeliver_answer {srcid value : Word} :
    wp (ipcDeliver e srcid value) (fun r _ => r = 0 ∨ r.slt 0 = true) (fun _ _ => False)
      (fun _ => True) k := by
  rw [ipcDeliver, wp_bind, wp_modify, wp_pure]
  exact .inl rfl

/-- What is not 0 is an error. -/
theorem sysIpcTrySend_answer {envid value srcva perm : Word} :
    wp (sysIpcTrySend cur envid value srcva perm) (fun r _ => r = 0 ∨ r.slt 0 = true)
      (fun _ _ => False) (fun _ => True) k := by
  simp only [sysIpcTrySend, sysGetenvid, envid2env, wp_bind, wp_get, wp_pure]
  cases k.envid2env cur envid false with
  | none => exact wp_pure _ |>.mpr (.inr (by decide))
  | some dst =>
      simp only [wp_bind, wp_get, wp_ite, wp_pure]
      refine ⟨fun _ => .inr (by decide), fun _ => ⟨fun _ => .inr (by decide), fun _ => ?_⟩⟩
      refine wp_mono Quiet.lookupIn ?_ (fun _ _ hf => hf.elim) (fun _ he => he)
      intro found k₁ _
      refine ⟨fun _ => ?_, fun _ => ipcDeliver_answer⟩
      cases found with
      | none => exact wp_pure _ |>.mpr (.inr (by decide))
      | some found =>
          simp only [wp_bind, wp_ite, wp_pure]
          refine ⟨fun _ => .inr (by decide), fun _ => ?_⟩
          refine wp_mono Quiet.insertInto ?_ (fun _ _ hf => hf.elim) (fun _ he => he)
          intro r k₂ _
          refine ⟨fun _ => .inr (by decide), fun _ => ?_⟩
          rw [wp_modify]
          exact ipcDeliver_answer

/-- A running environment sends, and gets 0 or an error. -/
theorem Step.send_answer {cr2 input : Word} (step : Step k (.trap c tf cr2 input) k')
    (hx : k.Executes c cur d) (clear : (k.envs cur).ipcRecving = false)
    (call : tf.Calls .ipcTrySend) :
    (k'.envs cur).tf.regs.eax = 0 ∨ (k'.envs cur).tf.regs.eax.slt 0 = true := by
  have hx₀ := (Kernel.Like.setTf k cur tf).executes hx
  have clear₀ : ((k.setTf cur tf).envs cur).ipcRecving = false :=
    (Kernel.setEnv_field (f := Env.ipcRecving) (by rfl) cur).trans clear
  have spec : wp (sysIpcTrySend cur tf.regs.edx tf.regs.ecx tf.regs.ebx tf.regs.edi)
      (fun r k₁ => k₁.Executes c cur d ∧ (r = 0 ∨ r.slt 0 = true)) (fun _ _ => False)
      (fun _ => True) (k.setTf cur tf) := by
    refine wp_mono (wp_and sysIpcTrySend_result sysIpcTrySend_answer)
      (fun r k₁ h₁ => ⟨?_, h₁.2⟩) (fun _ _ hf => hf.1) fun _ _ => trivial
    obtain ⟨⟨-, dst, -, recving, same⟩ | ⟨-, same⟩, -⟩ := h₁
    · have hne : cur ≠ dst := by
        rintro rfl
        exact absurd (recving.symm.trans clear₀) (by decide)
      have hcur := same.envs cur
      rw [Kernel.delivered, Kernel.setEnv_envs_of_ne _ hne] at hcur
      exact hx₀.of_same same.cpus hcur
    · exact hx₀.of_same same.cpus (same.envs cur)
  obtain ⟨r, k₁, hanswer, -, -, heax, -⟩ :=
    step.returns hx call.1 (by rw [syscall_send call.2]; exact spec)
  rwa [heax]

/-! ### Before the start -/

/-- The environment is not runnable, waits for nothing and is on no CPU. -/
structure Kernel.Young (k : Kernel) (e : EnvIdx) : Prop where
  status : k.status e = .notRunnable
  recving : (k.envs e).ipcRecving = false
  idle : ∀ c, ¬ k.RunsOn c e

/-- What the entry does is not meant for `e`. -/
structure Trapframe.Spares (tf : Trapframe) (k : Kernel) (cur e : EnvIdx) : Prop where
  setStatus : tf.Calls .envSetStatus → k.envid2env cur tf.regs.edx true ≠ some e
  destroy : tf.Calls .envDestroy → k.envid2env cur tf.regs.edx true ≠ some e

theorem Kernel.ran_keeps_idle {x : EnvIdx} (hne : e ≠ x) (status : k.status e = .notRunnable)
    (idle : k.curenv c ≠ some e) :
    (k.ran c x d).status e = .notRunnable ∧ ¬ (k.ran c x d).RunsOn c e := by
  refine ⟨?_, fun runs => ?_⟩
  · rcases Kernel.ran_status_cases (k := k) (c := c) (e := x) (d := d) e with hs | rfl | ⟨hown, -⟩
    · rw [hs, status]
    · exact absurd rfl hne
    · exact absurd hown idle
  · have hown := runs.2
    rw [Kernel.curenv, Kernel.ran_cpus_self] at hown
    exact hne (Option.some.inj hown).symm

theorem Dispatch.keeps_idle (out : Dispatch c k k') (status : k.status e = .notRunnable)
    (idle : k.curenv c ≠ some e) : k'.status e = .notRunnable ∧ ¬ k'.RunsOn c e := by
  cases out with
  | @run x d ready pgdir =>
      refine Kernel.ran_keeps_idle ?_ status idle
      rintro rfl
      rcases ready with hr | ⟨own, -⟩
      · exact absurd (hr.symm.trans status) (by decide)
      · exact idle own
  | halt =>
      refine ⟨status, fun runs => ?_⟩
      have hmode := runs.1
      simp [Kernel.mode, Kernel.setCpu] at hmode
  | monitor =>
      refine ⟨status, fun runs => ?_⟩
      have hmode := runs.1
      simp [Kernel.mode, Kernel.setCpu] at hmode

/-- The status of `e` is of no concern to the operation. -/
theorem Op.keeps_status (op : Op c tf cur k k') (slots : k.SlotsFree) (spares : tf.Spares k cur e)
    (status : k.status e = .notRunnable) (recving : (k.envs e).ipcRecving = false) :
    k'.status e = .notRunnable := by
  have hset : ∀ {x : EnvIdx} {env : Env}, e ≠ x → (k.setEnv x env).status e = .notRunnable :=
    fun hx => by rw [Kernel.status, Kernel.setEnv_envs_of_ne _ hx]; exact status
  cases op with
  | quiet same => rw [Kernel.status, (same.envs e).status]; exact status
  | setStatus call target arg => exact hset fun he => spares.setStatus call (he ▸ target)
  | doom call target other running => exact hset fun he => spares.destroy call (he ▸ target)
  | release call target other idle same =>
      rw [Kernel.status, (same.envs e).status]
      exact hset fun he => spares.destroy call (he ▸ target)
  | @fork _ child _ _ call head same =>
      rw [Kernel.status, (same.envs e).status]
      refine hset fun he => ?_
      have hfree := (slots.forked head 0 0 .zero).1
      rw [← he, status] at hfree
      exact absurd hfree (by decide)
  | deliver call target flag same =>
      rw [Kernel.status, (same.envs e).status]
      exact hset fun he => absurd ((he ▸ flag).symm.trans recving) (by decide)

theorem Finish.keeps_idle (out : Finish c tf cur k k') (he : e ≠ cur)
    (status : k.status e = .notRunnable) (own : k.curenv c = some cur) :
    k'.status e = .notRunnable ∧ ¬ k'.RunsOn c e := by
  have idle : k.curenv c ≠ some e := by
    rw [own]
    exact fun h => he (Option.some.inj h).symm
  have hset : ∀ env : Env, (k.setEnv cur env).status e = .notRunnable := fun env => by
    rw [Kernel.status, Kernel.setEnv_envs_of_ne _ he]
    exact status
  cases out with
  | dispatch out => exact out.keeps_idle status idle
  | result r out => exact out.keeps_idle (hset _) idle
  | wait call out => exact out.keeps_idle (hset _) idle
  | exit same out =>
      refine out.keeps_idle ?_ ?_
      · rw [Kernel.status, (same.envs e).status]
        exact hset _
      · rw [same.exited.2]
        simp
  | upcall tf' pgdir => exact Kernel.ran_keeps_idle he (hset _) idle

namespace Exclusive

variable {ok : EnvStatus → Prop}

/-- A step that is not meant for it leaves it as it is. -/
theorem young (h : Exclusive ok none k) (young : k.Young e) {ev : Event} (step : Step k ev k')
    (spares : ∀ cur, k.curenv ev.cpu = some cur → ev.frame.Spares k cur e)
    (flag : (k'.envs e).ipcRecving = (k.envs e).ipcRecving) : k'.Young e := by
  have hothers : ∀ c, c ≠ ev.cpu → ¬ k'.RunsOn c e := fun c hc runs => by
    refine young.idle c ?_
    have hcpu : k'.cpus c = k.cpus c := by
      rcases h.step_cases step with same | ⟨-, entry⟩
      · rw [same.cpus]
      · exact entry.cpus_of_ne hc
    rwa [Kernel.RunsOn, Kernel.mode, Kernel.curenv, hcpu] at runs
  suffices hself : k'.status e = .notRunnable ∧ ¬ k'.RunsOn ev.cpu e by
    refine ⟨hself.1, flag.trans young.recving, fun c => ?_⟩
    by_cases hc : c = ev.cpu
    · rw [hc]
      exact hself.2
    · exact hothers c hc
  rcases h.step_cases step with same | ⟨lock, entry⟩
  · refine ⟨?_, fun runs => young.idle ev.cpu ?_⟩
    · rw [Kernel.status, (same.envs e).status]
      exact young.status
    · rwa [Kernel.RunsOn, Kernel.mode, Kernel.curenv, same.cpus] at runs
  · have idle : k.curenv ev.cpu ≠ some e := fun own =>
      young.idle ev.cpu ⟨h.mode_of_curenv lock own, own⟩
    cases entry with
    | idle none out => exact out.keeps_idle young.status idle
    | @collect _ _ cur own zombie same out =>
        have hne : e ≠ cur := by
          rintro rfl
          exact idle own
        refine out.keeps_idle ?_ ?_
        · rw [Kernel.status, (same.envs e).status]
          exact (congrArg Env.status (Kernel.setEnv_envs_of_ne _ hne)).trans young.status
        · rw [same.exited.2]
          simp
    | @act _ _ cur own alive op out =>
        have hne : e ≠ cur := by
          rintro rfl
          exact idle own
        have hspares : ev.frame.Spares (k.setTf cur ev.frame) cur e := by
          obtain ⟨hset, hdestroy⟩ := spares cur own
          exact ⟨fun call => by rw [Kernel.envid2env_setTf]; exact hset call,
            fun call => by rw [Kernel.envid2env_setTf]; exact hdestroy call⟩
        refine out.keeps_idle hne (op.keeps_status h.slots.setTf hspares ?_ ?_) ?_
        · rw [Kernel.setTf_status]
          exact young.status
        · exact (Kernel.setEnv_field (f := Env.ipcRecving) (by rfl) e).trans young.recving
        · rw [Kernel.curenv, op.cpus]
          exact own

/-- What `sys_exofork` has made is not started. -/
theorem forked_young (h : Exclusive ok none k) (hok : Executable ok) {ev : Event}
    (step : Step k ev k') (runs : k'.RunsOn ev.cpu cur) (hne : child ≠ cur)
    (head : k.envFreeList = some child) (status : k'.status child = .notRunnable)
    (recving : (k'.envs child).ipcRecving = false) : k'.Young child := by
  refine ⟨status, recving, fun c runs' => ?_⟩
  by_cases hc : c = ev.cpu
  · subst hc
    exact hne (Option.some.inj (runs'.2.symm.trans runs.2))
  · have hcpu : k'.cpus c = k.cpus c := by
      rcases h.step_cases step with same | ⟨-, entry⟩
      · rw [same.cpus]
      · exact entry.cpus_of_ne hc
    rw [Kernel.RunsOn, Kernel.mode, Kernel.curenv, hcpu] at runs'
    obtain ⟨e, own, hstatus, -⟩ := h.user c (by simp) runs'.1
    obtain rfl : child = e := Option.some.inj (runs'.2.symm.trans own)
    rw [(h.slots.forked head 0 0 .zero).1] at hstatus
    exact hok.not_free hstatus

end Exclusive

/-! ### The end of an environment -/

/-- An environment that destroys itself makes no zombie. -/
theorem Entry.exit_noZombie (entry : Entry c tf k k') (own : k.curenv c = some cur)
    (self : k.envid2env cur tf.regs.edx true = some cur) (call : tf.Calls .envDestroy)
    (alive : ∀ e, k.status e ≠ .dying) (e : EnvIdx) : k'.status e ≠ .dying := by
  cases entry with
  | idle none out => exact out.noZombie alive e
  | collect own zombie same out => exact absurd zombie (alive _)
  | @act _ _ cur' own' alive' op out =>
      obtain rfl : cur = cur' := Option.some.inj (own.symm.trans own')
      have hsaved : ∀ e, (k.setTf cur tf).status e ≠ .dying := fun e => by
        rw [Kernel.setTf_status]
        exact alive e
      refine out.noZombie (fun e => ?_) e
      cases op with
      | quiet same => exact same.noZombie hsaved e
      | setStatus call' target arg => exact absurd (call.unique call') (by decide)
      | doom call' target other running =>
          rw [Kernel.envid2env_setTf, self] at target
          exact absurd (own.trans target) other
      | release call' target other idle same =>
          rw [Kernel.envid2env_setTf, self] at target
          exact absurd (own.trans target) other
      | fork call' head same => exact absurd (call.unique call') (by decide)
      | deliver call' target recving same => exact absurd (call.unique call') (by decide)

end Jos
