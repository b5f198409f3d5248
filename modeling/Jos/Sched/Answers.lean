import Jos.Kernel.Inbox
import Jos.Sched.Receiving

/-!
# What a system call answers

The saved registers of an environment that is not on a CPU stay as they are, up to the 0 in
`%eax` that a message brings. `sys_ipc_try_send` always returns, and to the environment that
called it, with 0 exactly if the message is in the fields of its target.
-/

namespace Jos

open Prog

variable {k k₁ k' : Kernel} {c : Nat} {e cur : EnvIdx} {tf : Trapframe}

/-- Nothing but `sys_exofork` and `sys_ipc_try_send` changes registers. -/
theorem Op.tf_eq (op : Op c tf cur k k') (fork : ¬ tf.Calls .exofork)
    (send : ¬ tf.Calls .ipcTrySend) (e : EnvIdx) : (k'.envs e).tf = (k.envs e).tf := by
  cases op with
  | quiet same => exact (same.envs e).tf
  | setStatus call target arg => exact Kernel.setEnv_field (f := Env.tf) (by rfl) e
  | doom call target other running => exact Kernel.setEnv_field (f := Env.tf) (by rfl) e
  | release call target other idle same =>
      exact (same.envs e).tf.trans (Kernel.setEnv_field (f := Env.tf) (by rfl) e)
  | fork call head same => exact absurd call fork
  | deliver call target recving same => exact absurd call send

/-- The way out changes the registers of the caller only. -/
theorem Finish.tf_eq (out : Finish c tf cur k k') (he : e ≠ cur) :
    (k'.envs e).tf = (k.envs e).tf := by
  have hset : ∀ env : Env, ((k.setEnv cur env).envs e).tf = (k.envs e).tf := fun env => by
    rw [Kernel.setEnv_envs_of_ne _ he]
  cases out with
  | dispatch out => exact out.field (fun _ _ _ _ => rfl) e
  | result r out => exact (out.field (f := Env.tf) (fun _ _ _ _ => rfl) e).trans (hset _)
  | wait call out => exact (out.field (f := Env.tf) (fun _ _ _ _ => rfl) e).trans (hset _)
  | exit same out =>
      rw [out.field (f := Env.tf) (fun _ _ _ _ => rfl) e, (same.envs e).tf]
      exact Kernel.setEnv_field (f := Env.tf) (by rfl) e
  | upcall tf' pgdir => exact (Kernel.ran_field (fun _ _ _ _ => rfl) e).trans (hset _)

theorem Entry.tf_eq (entry : Entry c tf k k') (fork : ¬ tf.Calls .exofork)
    (send : ¬ tf.Calls .ipcTrySend) (he : k.curenv c ≠ some e) :
    (k'.envs e).tf = (k.envs e).tf := by
  cases entry with
  | idle none out => exact out.field (fun _ _ _ _ => rfl) e
  | collect own zombie same out =>
      rw [out.field (f := Env.tf) (fun _ _ _ _ => rfl) e, (same.envs e).tf]
      exact Kernel.setEnv_field (f := Env.tf) (by rfl) e
  | @act _ _ cur own alive op out =>
      have hne : e ≠ cur := by
        rintro rfl
        exact he own
      rw [out.tf_eq hne, op.tf_eq fork send, Kernel.setTf, Kernel.setEnv_envs_of_ne _ hne]

/-! ### Zombies -/

theorem Kernel.ran_noZombie {d : Nat} (h : ∀ e, k.status e ≠ .dying) (e' : EnvIdx) :
    (k.ran c e d).status e' ≠ .dying := by
  rcases Kernel.ran_status_cases (k := k) (c := c) (e := e) (d := d) e' with hs | rfl | ⟨-, hs⟩
  · rw [hs]
    exact h e'
  · rw [Kernel.ran_status_self]
    decide
  · rw [hs]
    decide

theorem Dispatch.noZombie (out : Dispatch c k k') (h : ∀ e, k.status e ≠ .dying) (e : EnvIdx) :
    k'.status e ≠ .dying := by
  cases out with
  | run ready pgdir => exact Kernel.ran_noZombie h e
  | halt => exact h e
  | monitor => exact h e

theorem Kernel.setEnv_noZombie {env : Env} (h : ∀ e, k.status e ≠ .dying) (henv : env.status ≠ .dying)
    (e' : EnvIdx) : (k.setEnv e env).status e' ≠ .dying := by
  by_cases he : e' = e
  · subst he
    rwa [Kernel.status, Kernel.setEnv_envs_self]
  · rw [Kernel.status, Kernel.setEnv_envs_of_ne _ he]
    exact h e'

theorem Kernel.Same.noZombie (same : k.Same k') (h : ∀ e, k.status e ≠ .dying) (e : EnvIdx) :
    k'.status e ≠ .dying := by
  rw [Kernel.status, (same.envs e).status]
  exact h e

/-- Zombies come from `sys_env_destroy` only. -/
theorem Op.noZombie (op : Op c tf cur k k') (destroy : ¬ tf.Calls .envDestroy)
    (h : ∀ e, k.status e ≠ .dying) : ∀ e, k'.status e ≠ .dying := by
  cases op with
  | quiet same => exact same.noZombie h
  | setStatus call target arg =>
      refine Kernel.setEnv_noZombie h ?_
      rcases statusArg_cases arg with rfl | rfl <;> simp
  | doom call target other running => exact absurd call destroy
  | release call target other idle same => exact absurd call destroy
  | fork call head same =>
      exact same.noZombie (Kernel.setEnv_noZombie h (by simp))
  | deliver call target recving same =>
      exact same.noZombie (Kernel.setEnv_noZombie h (by simp))

theorem Finish.noZombie (out : Finish c tf cur k k') (h : ∀ e, k.status e ≠ .dying) :
    ∀ e, k'.status e ≠ .dying := by
  have hregs : ∀ tf' e, (k.setTf cur tf').status e ≠ .dying := fun tf' e => by
    rw [Kernel.setTf_status]
    exact h e
  have hexit : ∀ e, (k.exited c cur).status e ≠ .dying :=
    Kernel.setEnv_noZombie h (by simp)
  cases out with
  | dispatch out => exact out.noZombie h
  | result r out => exact out.noZombie (hregs _)
  | wait call out =>
      exact out.noZombie (Kernel.setEnv_noZombie h (by simp))
  | exit same out => exact out.noZombie (same.noZombie hexit)
  | upcall tf' pgdir => exact Kernel.ran_noZombie (hregs tf')

theorem Entry.noZombie (entry : Entry c tf k k') (destroy : ¬ tf.Calls .envDestroy)
    (h : ∀ e, k.status e ≠ .dying) : ∀ e, k'.status e ≠ .dying := by
  cases entry with
  | idle none out => exact out.noZombie h
  | collect own zombie same out => exact absurd zombie (h _)
  | act own alive op out =>
      refine out.noZombie (op.noZombie destroy fun e => ?_)
      rw [Kernel.setTf_status]
      exact h e

/-! ### The answer of `sys_ipc_try_send` -/

/-- The result says whether the target got the message. -/
theorem sysIpcTrySend_result {envid value srcva perm : Word} :
    wp (sysIpcTrySend cur envid value srcva perm)
      (fun r k' => (r = 0 ∧ ∃ dst, k.envid2env cur envid false = some dst ∧
          (k.envs dst).ipcRecving = true ∧ (k.delivered dst (k.envs cur).id value).Same k') ∨
        r ≠ 0 ∧ k.Same k') (fun _ _ => False) (fun _ => True) k := by
  have hdeliver : ∀ {dst k₁}, k.envid2env cur envid false = some dst →
      (k.envs dst).ipcRecving = true → k.Same k₁ →
      wp (ipcDeliver dst (k.envs cur).id value)
        (fun r k' => (r = 0 ∧ ∃ dst, k.envid2env cur envid false = some dst ∧
          (k.envs dst).ipcRecving = true ∧ (k.delivered dst (k.envs cur).id value).Same k') ∨
          r ≠ 0 ∧ k.Same k') (fun _ _ => False) (fun _ => True) k₁ := by
    intro dst k₁ target recving same
    rw [ipcDeliver, wp_bind, wp_modify, wp_pure]
    refine .inl ⟨rfl, dst, target, recving, same.setEnv_congr ?_⟩
    obtain ⟨htf, hlink, hid, hparent, -, hpgdir, -, hdst⟩ := same.envs dst
    exact ⟨by rw [htf], hlink, hid, hparent, rfl, hpgdir, rfl, hdst⟩
  simp only [sysIpcTrySend, sysGetenvid, envid2env, wp_bind, wp_get, wp_pure]
  cases target : k.envid2env cur envid false with
  | none => exact wp_pure _ |>.mpr (.inr ⟨by decide, .refl k⟩)
  | some dst =>
      simp only [wp_bind, wp_get, wp_ite, wp_pure]
      refine ⟨fun _ => .inr ⟨by decide, .refl k⟩, fun hrecv =>
        ⟨fun _ => .inr ⟨by decide, .refl k⟩, fun _ => ?_⟩⟩
      have recving : (k.envs dst).ipcRecving = true := by simpa using hrecv
      rw [← target]
      refine wp_mono Quiet.lookupIn ?_ (fun _ _ hf => hf.elim) (fun _ he => he)
      intro found k₁ same₁
      refine ⟨fun _ => ?_, fun _ => hdeliver target recving same₁⟩
      cases found with
      | none => exact wp_pure _ |>.mpr (.inr ⟨by decide, same₁⟩)
      | some found =>
          simp only [wp_bind, wp_ite, wp_pure]
          refine ⟨fun _ => .inr ⟨by decide, same₁⟩, fun _ => ?_⟩
          refine wp_mono Quiet.insertInto ?_ (fun _ _ hf => hf.elim) (fun _ he => he)
          intro r k₂ same₂
          refine ⟨fun _ => .inr ⟨by decide, same₁.trans same₂⟩, fun _ => ?_⟩
          rw [wp_modify]
          refine hdeliver target recving ((same₁.trans same₂).trans ?_)
          exact .setEnv ⟨rfl, rfl, rfl, rfl, rfl, rfl, rfl, rfl⟩

/-- What the trap `tf` of `cur`, a call of `sys_ipc_try_send`, comes to. -/
inductive SendStep (k : Kernel) (cur : EnvIdx) (tf : Trapframe) (k' : Kernel) : Prop
  | sent {dst : EnvIdx} (target : k.envid2env cur tf.regs.edx false = some dst)
      (recving : (k.inbox dst).recving = true)
      (put : k'.inbox = Function.update k.inbox dst ((k.inbox dst).put
        ⟨dst, (k.envs cur).id, tf.regs.ecx, tf.regs.ebx, tf.regs.edi⟩))
      (answer : (k'.envs cur).tf.regs.eax = 0) (woken : (k'.envs dst).tf.regs.eax = 0)
      (others : ∀ e, e ≠ cur → e ≠ dst → (k'.envs e).tf = (k.envs e).tf)
  | failed (same : k'.inbox = k.inbox) (answer : (k'.envs cur).tf.regs.eax ≠ 0)
      (others : ∀ e, e ≠ cur → (k'.envs e).tf = (k.envs e).tf)

/-- The environment that called, if it still runs, goes on with the result in `%eax`. -/
theorem finish_running {r : Word} (own : k.curenv c = some cur)
    (running : k.status cur = .running) : wp (do
      modify fun k : Kernel => k.setTf cur ((k.envs cur).tf.setEax r)
      trapReturn c) (fun _ _ => False)
      (fun _ k' => k'.RunsOn c cur ∧ k'.inbox = k.inbox ∧ (k'.envs cur).tf.regs.eax = r ∧
        ∀ e, e ≠ cur → (k'.envs e).tf = (k.envs e).tf) (fun _ => True) k := by
  rw [wp_bind, wp_modify]
  generalize hk₁ : k.setTf cur ((k.envs cur).tf.setEax r) = k₁
  have own₁ : k₁.curenv c = some cur := by rw [← hk₁]; exact own
  have running₁ : k₁.status cur = .running := by rw [← hk₁, Kernel.setTf_status, running]
  have hinbox : k₁.inbox = k.inbox := by rw [← hk₁]; exact Kernel.inbox_setEnv rfl
  have hself : (k₁.envs cur).tf = (k.envs cur).tf.setEax r := by rw [← hk₁]; simp [Kernel.setTf]
  have hother : ∀ e, e ≠ cur → k₁.envs e = k.envs e := fun e he => by
    rw [← hk₁]
    exact Kernel.setEnv_envs_of_ne _ he
  rw [trapReturn, wp_bind, wp_get, own₁]
  dsimp only
  rw [if_pos running₁]
  cases hd : (k₁.envs cur).pgdir with
  | none => exact (wp_panic_eq (envRun_panic hd)).mpr trivial
  | some d =>
      have htf : ∀ e, ((k₁.ran c cur d).envs e).tf = (k₁.envs e).tf :=
        Kernel.ran_field (f := Env.tf) fun _ _ _ _ => rfl
      refine (wp_exit_eq (envRun_run hd)).mpr ⟨⟨?_, ?_⟩, ?_, ?_, fun e he => ?_⟩
      · rw [Kernel.mode, Kernel.ran_cpus_self]
      · rw [Kernel.curenv, Kernel.ran_cpus_self]
      · rw [← hinbox]
        exact funext (Kernel.ran_field (f := Env.inbox) fun _ _ _ _ => rfl)
      · rw [htf, hself]
        rfl
      · rw [htf, hother e he]

/-- The system call and the way back, after the registers of `cur` are saved. -/
theorem send_sendStep (own : k.curenv c = some cur) (running : k.status cur = .running)
    (clear : (k.envs cur).ipcRecving = false) (call : tf.Calls .ipcTrySend) (cr2 input : Word) :
    wp (do trapDispatch c tf cr2 input; trapReturn c) (fun _ _ => False)
      (fun _ k' => k'.RunsOn c cur ∧ SendStep k cur tf k') (fun _ => True) k := by
  rw [wp_trapDispatch_syscall own call.1, syscall_send call.2]
  have hspec := wp_and (@sysIpcTrySend_result k cur tf.regs.edx tf.regs.ecx tf.regs.ebx tf.regs.edi)
    (@sysIpcTrySend_inbox k cur tf.regs.edx tf.regs.ecx tf.regs.ebx tf.regs.edi)
  refine wp_mono hspec (fun r k₁ h₁ => ?_) (fun _ _ hx => hx.1.elim) fun _ _ => trivial
  rcases h₁ with ⟨⟨rfl, dst, target, recving, same⟩ | ⟨hr, same⟩, hput⟩
  · have hne : cur ≠ dst := by
      rintro rfl
      exact absurd (recving.symm.trans clear) (by decide)
    have own₁ : k₁.curenv c = some cur := by
      rw [Kernel.curenv, same.cpus]
      exact own
    have running₁ : k₁.status cur = .running := by
      rw [Kernel.status, (same.envs cur).status, Kernel.delivered, Kernel.setEnv_envs_of_ne _ hne]
      exact running
    refine wp_mono (finish_running own₁ running₁) (fun _ _ hf => hf) ?_ fun _ he => he
    rintro _ k' ⟨runs, hinbox, answer, others⟩
    rcases hput with ⟨-, dst', target', -, put⟩ | ⟨hr, -⟩
    swap
    · exact absurd rfl hr
    obtain rfl := Option.some.inj (target.symm.trans target')
    refine ⟨runs, .sent target recving (hinbox.trans put) answer ?_ fun e he hdst => ?_⟩
    · rw [others dst hne.symm, (same.envs dst).tf, Kernel.delivered, Kernel.setEnv_envs_self]
      rfl
    · rw [others e he, (same.envs e).tf, Kernel.delivered, Kernel.setEnv_envs_of_ne _ hdst]
  · have own₁ : k₁.curenv c = some cur := by
      rw [Kernel.curenv, same.cpus]
      exact own
    have running₁ : k₁.status cur = .running := by
      rw [Kernel.status, (same.envs cur).status]
      exact running
    refine wp_mono (finish_running own₁ running₁) (fun _ _ hf => hf) ?_ fun _ he => he
    rintro _ k' ⟨runs, hinbox, answer, others⟩
    rcases hput with ⟨h0, -⟩ | ⟨-, hsame⟩
    · exact absurd h0 hr
    · refine ⟨runs, .failed (hinbox.trans hsame) (by rw [answer]; exact hr) fun e he => ?_⟩
      rw [others e he, (same.envs e).tf]

/-- Saving the registers changes nothing that a message is about. -/
theorem SendStep.of_setTf {tf' : Trapframe} (h : SendStep (k.setTf cur tf') cur tf k') :
    SendStep k cur tf k' := by
  have hinbox : (k.setTf cur tf').inbox = k.inbox := Kernel.inbox_setEnv rfl
  have hid : ((k.setTf cur tf').envs cur).id = (k.envs cur).id :=
    Kernel.setEnv_field (f := Env.id) (by rfl) cur
  have htf : ∀ e, e ≠ cur → ((k.setTf cur tf').envs e).tf = (k.envs e).tf := fun e he =>
    congrArg Env.tf (Kernel.setEnv_envs_of_ne _ he)
  cases h with
  | sent target recving put answer woken others =>
      rw [Kernel.envid2env_setTf] at target
      rw [hinbox] at recving put
      rw [hid] at put
      exact .sent target recving put answer woken fun e he hdst =>
        (others e he hdst).trans (htf e he)
  | failed same answer others =>
      exact .failed (same.trans hinbox) answer fun e he => (others e he).trans (htf e he)

/-- A running environment sends. -/
theorem Step.sendStep {cr2 input : Word} (step : Step k (.trap c tf cr2 input) k')
    (runs : k.RunsOn c cur) (running : k.status cur = .running)
    (clear : (k.envs cur).ipcRecving = false) (call : tf.Calls .ipcTrySend) :
    k'.RunsOn c cur ∧ SendStep k cur tf k' := by
  cases step with
  | wake mode lock ring run => exact absurd (mode.symm.trans runs.1) (by decide)
  | trap mode lock ring run =>
      have alive : k.status cur ≠ .dying := by
        rw [running]
        decide
      have clear₁ : ((k.setTf cur tf).envs cur).ipcRecving = false :=
        (Kernel.setEnv_field (f := Env.ipcRecving) (by rfl) cur).trans clear
      have running₁ : (k.setTf cur tf).status cur = .running := by
        rw [Kernel.setTf_status, running]
      have own₁ : (k.setTf cur tf).curenv c = some cur := runs.2
      have hsend := send_sendStep own₁ running₁ clear₁ call cr2 input
      obtain ⟨runs', sends⟩ := (wp_exit_eq run).mp ((wp_trap_act runs.2 alive ring).mpr hsend)
      exact ⟨runs', sends.of_setTf⟩

end Jos
