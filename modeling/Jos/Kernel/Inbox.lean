import Jos.Base.Keeps
import Jos.Sched.Exclusive

/-!
# The message of an environment

The `env_ipc_*` fields of `struct Env`. Only `sys_ipc_try_send` and `sys_ipc_recv` change
them: a successful send those of its target, `sys_ipc_recv` those of its caller. Neither the
end of an environment nor the start of the next one in its slot does.
-/

namespace Jos

open Prog

/-- The `env_ipc_*` fields. -/
structure Inbox where
  recving : Bool
  dstva : Word
  value : Word
  sender : Word
  perm : Word

def Env.inbox (env : Env) : Inbox :=
  ⟨env.ipcRecving, env.ipcDstva, env.ipcValue, env.ipcFrom, env.ipcPerm⟩

def Kernel.inbox (k : Kernel) (e : EnvIdx) : Inbox := (k.envs e).inbox

/-- A message: who gets it, the envid of the sender, and the arguments of the call. -/
structure Message where
  dst : EnvIdx
  sender : Word
  value : Word
  srcva : Word
  perm : Word

/-- The fields after the message. Without a page the permissions stay what they were. -/
def Inbox.put (i : Inbox) (msg : Message) : Inbox :=
  { i with
    recving := false
    value := msg.value
    sender := msg.sender
    perm := if msg.srcva < utop then msg.perm else i.perm }

/-- The fields of an environment that waits. -/
def Inbox.await (i : Inbox) (dstva : Word) : Inbox :=
  { i with recving := true, dstva := if dstva ≥ utop then utop else dstva }

section Keeps

variable {c : Nat} {e cur : EnvIdx}

theorem Kernel.inbox_setEnv {k : Kernel} {env : Env} (h : env.inbox = (k.envs e).inbox) :
    (k.setEnv e env).inbox = k.inbox := by
  funext e'
  by_cases he : e' = e
  · subst he
    rw [Kernel.inbox, Kernel.setEnv_envs_self, h, Kernel.inbox]
  · simp only [Kernel.inbox, Kernel.setEnv, Function.update_of_ne he]

/-- Other fields of an environment. -/
theorem keepsInbox_setEnv {env : Kernel → Env} (h : ∀ k, (env k).inbox = (k.envs e).inbox) :
    Keeps Kernel.inbox (modify fun k => k.setEnv e (env k) : KM Unit) :=
  .modify fun k => Kernel.inbox_setEnv (h k)

theorem pmap_keepsInbox {α : Type} (m : Pmap α) : Keeps Kernel.inbox (pmap m) :=
  .zoom m fun _ _ => rfl

theorem envid2env_keepsInbox {envid : Word} {checkperm : Bool} :
    Keeps Kernel.inbox (envid2env cur envid checkperm) := .read fun _ => .pure _

theorem pgdirOf_keepsInbox : Keeps Kernel.inbox (pgdirOf e) := by
  refine .read fun k => ?_
  cases (k.envs e).pgdir with
  | none => exact .panic _
  | some d => exact .pure d

theorem paddrPgdir_keepsInbox : Keeps Kernel.inbox (paddrPgdir e) := by
  refine .read fun k => ?_
  cases (k.envs e).pgdir with
  | none => exact .panic _
  | some d => exact .pure d

theorem envSetupVm_keepsInbox : Keeps Kernel.inbox (envSetupVm e) := by
  refine .bind (pmap_keepsInbox _) fun page => ?_
  cases page with
  | none => exact .pure _
  | some p =>
      refine .bind (pmap_keepsInbox _) fun pgdir => .bind (keepsInbox_setEnv fun _ => rfl) fun _ => ?_
      refine .read fun _ => .bind (pmap_keepsInbox _) fun _ => ?_
      exact .bind (pmap_keepsInbox _) fun _ => .bind (pmap_keepsInbox _) fun _ => .pure _

/-- The next environment in a slot starts with the fields of the last one. -/
theorem envAlloc_keepsInbox {parentId : Word} : Keeps Kernel.inbox (envAlloc parentId) := by
  refine .read fun k => ?_
  cases k.envFreeList with
  | none => exact .pure _
  | some e =>
      refine .bind envSetupVm_keepsInbox fun r => .ite (fun _ => .pure _) fun _ => ?_
      refine .bind (keepsInbox_setEnv fun _ => rfl) fun _ => ?_
      exact .bind (.modify fun _ => rfl) fun _ => .pure _

theorem envFree_keepsInbox : Keeps Kernel.inbox (envFree c e) := by
  refine .read fun k => .bind (.when fun _ => .modify fun _ => rfl) fun _ => ?_
  refine .bind pgdirOf_keepsInbox fun _ => .bind (pmap_keepsInbox _) fun _ => ?_
  refine .bind paddrPgdir_keepsInbox fun _ => .bind (keepsInbox_setEnv fun _ => rfl) fun _ => ?_
  refine .bind (pmap_keepsInbox _) fun _ => .bind (.modify fun k => ?_) fun _ => .modify fun _ => rfl
  exact Kernel.inbox_setEnv rfl

theorem envPreempt_keepsInbox : Keeps Kernel.inbox (envPreempt c) := by
  refine .read fun k => ?_
  cases k.curenv c with
  | none => exact .pure _
  | some cur => exact .when fun _ => keepsInbox_setEnv fun _ => rfl

theorem envRun_keepsInbox {α : Type} : Keeps Kernel.inbox (envRun c e : KM α) := by
  refine .bind envPreempt_keepsInbox fun _ => .bind (.modify fun _ => rfl) fun _ => ?_
  refine .bind (keepsInbox_setEnv fun _ => rfl) fun _ => .bind paddrPgdir_keepsInbox fun _ => ?_
  exact .bind (keepsInbox_setEnv fun _ => rfl) fun _ => .bind (.modify fun _ => rfl) fun _ => .exit _

theorem monitor_keepsInbox {α : Type} : Keeps Kernel.inbox (monitor c : KM α) :=
  .bind (.modify fun _ => rfl) fun _ => .exit _

theorem schedHalt_keepsInbox {α : Type} : Keeps Kernel.inbox (schedHalt c : KM α) := by
  refine .read fun k => .ite (fun _ => ?_) fun _ => monitor_keepsInbox
  exact .bind (.modify fun _ => rfl) fun _ => .exit _

theorem schedYield_keepsInbox {α : Type} : Keeps Kernel.inbox (schedYield c : KM α) := by
  refine .read fun k => ?_
  cases k.schedScan nenv ((k.curenv c).map fun idle => envx (k.envs idle).id) with
  | some e => exact envRun_keepsInbox
  | none =>
      cases k.curenv c with
      | none => exact schedHalt_keepsInbox
      | some idle => exact .ite (fun _ => envRun_keepsInbox) fun _ => schedHalt_keepsInbox

theorem envDestroy_keepsInbox : Keeps Kernel.inbox (envDestroy c e) := by
  refine .read fun k => .ite (fun _ => keepsInbox_setEnv fun _ => rfl) fun _ => ?_
  refine .bind envFree_keepsInbox fun _ => .read fun k => .when fun _ => ?_
  exact .bind (.modify fun _ => rfl) fun _ => schedYield_keepsInbox

theorem userMemAssert_keepsInbox {va len perm : Word} :
    Keeps Kernel.inbox (userMemAssert c e va len perm) := by
  refine .bind pgdirOf_keepsInbox fun _ => .bind (pmap_keepsInbox _) fun denied => ?_
  cases denied with
  | none => exact .pure _
  | some addr => exact envDestroy_keepsInbox

theorem sysCputs_keepsInbox {s len : Word} : Keeps Kernel.inbox (sysCputs c cur s len) := by
  refine .bind userMemAssert_keepsInbox fun _ => .read fun _ => ?_
  exact .bind (.when fun _ => pmap_keepsInbox _) fun _ => .pure _

theorem sysEnvDestroy_keepsInbox {envid : Word} :
    Keeps Kernel.inbox (sysEnvDestroy c cur envid) := by
  refine .bind envid2env_keepsInbox fun target => ?_
  cases target with
  | none => exact .pure _
  | some e => exact .bind envDestroy_keepsInbox fun _ => .pure _

theorem sysExofork_keepsInbox : Keeps Kernel.inbox (sysExofork cur) := by
  refine .read fun k => .bind envAlloc_keepsInbox fun r => ?_
  cases r with
  | error r => exact .pure r
  | ok e =>
      refine .bind (keepsInbox_setEnv fun _ => rfl) fun _ => ?_
      exact .bind (keepsInbox_setEnv fun _ => rfl) fun _ => .read fun _ => .pure _

theorem sysEnvSetStatus_keepsInbox {envid status : Word} :
    Keeps Kernel.inbox (sysEnvSetStatus cur envid status) := by
  rw [sysEnvSetStatus]
  cases statusArg status with
  | none => exact .pure _
  | some st =>
      refine .bind envid2env_keepsInbox fun target => ?_
      cases target with
      | none => exact .pure _
      | some e => exact .bind (keepsInbox_setEnv fun _ => rfl) fun _ => .pure _

theorem sysEnvSetPgfaultUpcall_keepsInbox {envid func : Word} :
    Keeps Kernel.inbox (sysEnvSetPgfaultUpcall cur envid func) := by
  refine .bind envid2env_keepsInbox fun target => ?_
  cases target with
  | none => exact .pure _
  | some e => exact .bind (keepsInbox_setEnv fun _ => rfl) fun _ => .pure _

theorem insertInto_keepsInbox {pp : Nat} {va perm : Word} :
    Keeps Kernel.inbox (insertInto e pp va perm) :=
  .bind pgdirOf_keepsInbox fun _ => pmap_keepsInbox _

theorem lookupIn_keepsInbox {va : Word} : Keeps Kernel.inbox (lookupIn e va) := by
  refine .bind pgdirOf_keepsInbox fun _ => .bind (pmap_keepsInbox _) fun found => ?_
  cases found with
  | none => exact .pure _
  | some found => exact .bind (pmap_keepsInbox _) fun _ => .pure _

theorem sysPageAlloc_keepsInbox {envid va perm : Word} :
    Keeps Kernel.inbox (sysPageAlloc cur envid va perm) := by
  refine .bind envid2env_keepsInbox fun target => ?_
  cases target with
  | none => exact .pure _
  | some e =>
      refine .ite (fun _ => .pure _) fun _ => .ite (fun _ => .pure _) fun _ => ?_
      refine .bind (pmap_keepsInbox _) fun page => ?_
      cases page with
      | none => exact .pure _
      | some pp =>
          refine .bind insertInto_keepsInbox fun _ => ?_
          exact .ite (fun _ => .pure _) fun _ => .pure _

theorem sysPageMap_keepsInbox {srcid srcva dstid dstva perm : Word} :
    Keeps Kernel.inbox (sysPageMap cur srcid srcva dstid dstva perm) := by
  refine .bind envid2env_keepsInbox fun src => ?_
  cases src with
  | none => exact .pure _
  | some srcenv =>
      refine .bind envid2env_keepsInbox fun dst => ?_
      cases dst with
      | none => exact .pure _
      | some dstenv =>
          refine .ite (fun _ => .pure _) fun _ => .bind lookupIn_keepsInbox fun found => ?_
          cases found with
          | none => exact .pure _
          | some found =>
              refine .ite (fun _ => .pure _) fun _ => .ite (fun _ => .pure _) fun _ => ?_
              refine .bind insertInto_keepsInbox fun _ => ?_
              exact .ite (fun _ => .pure _) fun _ => .pure _

theorem sysPageUnmap_keepsInbox {envid va : Word} :
    Keeps Kernel.inbox (sysPageUnmap cur envid va) := by
  refine .bind envid2env_keepsInbox fun target => ?_
  cases target with
  | none => exact .pure _
  | some e =>
      refine .ite (fun _ => .pure _) fun _ => .bind pgdirOf_keepsInbox fun _ => ?_
      exact .bind (pmap_keepsInbox _) fun _ => .pure _

/-- Of the system calls only the two for messages touch the fields. -/
theorem syscall_keepsInbox {input n a1 a2 a3 a4 a5 : Word}
    (send : SysCall.ofNumber n ≠ some .ipcTrySend) (recv : SysCall.ofNumber n ≠ some .ipcRecv) :
    Keeps Kernel.inbox (syscall c cur input n a1 a2 a3 a4 a5) := by
  rw [syscall]
  split <;> rename_i number
  · exact sysCputs_keepsInbox
  · exact .pure _
  · exact .read fun _ => .pure _
  · exact sysEnvDestroy_keepsInbox
  · exact schedYield_keepsInbox
  · exact sysExofork_keepsInbox
  · exact sysEnvSetStatus_keepsInbox
  · exact sysPageAlloc_keepsInbox
  · exact sysPageMap_keepsInbox
  · exact sysPageUnmap_keepsInbox
  · exact sysEnvSetPgfaultUpcall_keepsInbox
  · exact absurd number send
  · exact absurd number recv
  · exact .pure _

theorem trapReturn_keepsInbox : Keeps Kernel.inbox (trapReturn c) := by
  refine .read fun k => ?_
  cases k.curenv c with
  | none => exact schedYield_keepsInbox
  | some e => exact .ite (fun _ => envRun_keepsInbox) fun _ => schedYield_keepsInbox

theorem trapEnter_keepsInbox {tf : Trapframe} : Keeps Kernel.inbox (trapEnter c tf) := by
  refine .read fun k => ?_
  cases k.curenv c with
  | none => exact .panic _
  | some e =>
      refine .ite (fun _ => ?_) fun _ => keepsInbox_setEnv fun _ => rfl
      refine .bind envFree_keepsInbox fun _ => .bind (.modify fun _ => rfl) fun _ => ?_
      exact schedYield_keepsInbox

theorem pageFaultHandler_keepsInbox {tf : Trapframe} {va : Word} :
    Keeps Kernel.inbox (pageFaultHandler c tf va) := by
  refine .read fun k => .ite (fun _ => .panic _) fun _ => ?_
  cases k.curenv c with
  | none => exact .panic _
  | some e =>
      refine .ite (fun _ => ?_) fun _ => envDestroy_keepsInbox
      refine .bind userMemAssert_keepsInbox fun _ => .read fun _ => ?_
      refine .bind (pmap_keepsInbox _) fun _ => .bind (keepsInbox_setEnv fun _ => rfl) fun _ => ?_
      exact envRun_keepsInbox

/-- A trap that is not one of the two system calls. -/
theorem trapDispatch_keepsInbox {tf : Trapframe} {cr2 input : Word}
    (send : ¬ tf.Calls .ipcTrySend) (recv : ¬ tf.Calls .ipcRecv) :
    Keeps Kernel.inbox (trapDispatch c tf cr2 input) := by
  refine .read fun k => .ite (fun _ => pageFaultHandler_keepsInbox) fun _ =>
    .ite (fun _ => monitor_keepsInbox) fun _ => .ite (fun hsys => ?_) fun _ =>
    .ite (fun _ => .pure _) fun _ => .ite (fun _ => schedYield_keepsInbox) fun _ =>
    .ite (fun _ => .panic _) fun _ => ?_
  · cases k.curenv c with
    | none => exact .panic _
    | some e =>
        refine .bind (syscall_keepsInbox (fun hn => send ⟨hsys, hn⟩) fun hn => recv ⟨hsys, hn⟩)
          fun r => ?_
        exact keepsInbox_setEnv fun _ => rfl
  · cases k.curenv c with
    | none => exact .panic _
    | some e => exact envDestroy_keepsInbox

theorem trap_keepsInbox {tf : Trapframe} {cr2 input : Word} (send : ¬ tf.Calls .ipcTrySend)
    (recv : ¬ tf.Calls .ipcRecv) : Keeps Kernel.inbox (trap c tf cr2 input) :=
  .bind (.when fun _ => trapEnter_keepsInbox) fun _ =>
    .bind (trapDispatch_keepsInbox send recv) fun _ => trapReturn_keepsInbox

end Keeps

/-- The system call of `cur` that the trap `ev` makes succeeds in sending `msg`. -/
structure Kernel.Sends (k : Kernel) (ev : Event) (cur : EnvIdx) (msg : Message) : Prop where
  own : k.curenv ev.cpu = some cur
  alive : k.status cur ≠ .dying
  call : ev.frame.Calls .ipcTrySend
  target : k.envid2env cur ev.frame.regs.edx false = some msg.dst
  sender : msg.sender = (k.envs cur).id
  value : msg.value = ev.frame.regs.ecx
  srcva : msg.srcva = ev.frame.regs.ebx
  perm : msg.perm = ev.frame.regs.edi
  done : ∃ k₁, sysIpcTrySend cur ev.frame.regs.edx ev.frame.regs.ecx ev.frame.regs.ebx
    ev.frame.regs.edi (k.setTf cur ev.frame) = .ret 0 k₁

/-- The trap `ev` makes `cur` wait for a message. -/
structure Kernel.Receives (k : Kernel) (ev : Event) (cur : EnvIdx) (dstva : Word) : Prop where
  own : k.curenv ev.cpu = some cur
  alive : k.status cur ≠ .dying
  call : ev.frame.Calls .ipcRecv
  arg : dstva = ev.frame.regs.edx
  aligned : ¬ (dstva < utop ∧ pgoff dstva ≠ 0)

/-- What a step does to the `env_ipc_*` fields. -/
inductive IpcStep (k : Kernel) (ev : Event) (k' : Kernel) : Prop
  | quiet (unsent : ∀ cur msg, ¬ k.Sends ev cur msg) (unasked : ∀ cur va, ¬ k.Receives ev cur va)
      (same : k'.inbox = k.inbox)
  | send {cur : EnvIdx} {msg : Message} (sends : k.Sends ev cur msg)
      (recving : (k.inbox msg.dst).recving = true)
      (put : k'.inbox = Function.update k.inbox msg.dst ((k.inbox msg.dst).put msg))
  | receive {cur : EnvIdx} {va : Word} (receives : k.Receives ev cur va)
      (await : k'.inbox = Function.update k.inbox cur ((k.inbox cur).await va))

/-- A trap sends one message. -/
theorem Kernel.Sends.unique {k : Kernel} {ev : Event} {cur cur' : EnvIdx} {msg msg' : Message}
    (h : k.Sends ev cur msg) (h' : k.Sends ev cur' msg') : cur = cur' ∧ msg = msg' := by
  obtain rfl : cur = cur' := Option.some.inj (h.own.symm.trans h'.own)
  have hdst : msg.dst = msg'.dst := Option.some.inj (h.target.symm.trans h'.target)
  have hsender := h.sender.trans h'.sender.symm
  have hvalue := h.value.trans h'.value.symm
  have hsrcva := h.srcva.trans h'.srcva.symm
  have hperm := h.perm.trans h'.perm.symm
  cases msg
  cases msg'
  simp only at hdst hsender hvalue hsrcva hperm
  subst hdst hsender hvalue hsrcva hperm
  exact ⟨rfl, rfl⟩

section Step

variable {k k' : Kernel} {c : Nat} {e cur : EnvIdx} {tf : Trapframe}

theorem Kernel.inbox_setEnv_eq (env : Env) :
    (k.setEnv e env).inbox = Function.update k.inbox e env.inbox := by
  funext e'
  by_cases he : e' = e
  · subst he
    rw [Kernel.inbox, Kernel.setEnv_envs_self, Function.update_self]
  · rw [Kernel.inbox, Kernel.setEnv_envs_of_ne _ he, Function.update_of_ne he, Kernel.inbox]

theorem sysIpcTrySend_inbox {envid value srcva perm : Word} :
    wp (sysIpcTrySend cur envid value srcva perm)
      (fun r k' => (r = 0 ∧ ∃ dst, k.envid2env cur envid false = some dst ∧
          (k.inbox dst).recving = true ∧ k'.inbox = Function.update k.inbox dst
            ((k.inbox dst).put ⟨dst, (k.envs cur).id, value, srcva, perm⟩)) ∨
        r ≠ 0 ∧ k'.inbox = k.inbox)
      (fun _ k' => k'.inbox = k.inbox) (fun _ => True) k := by
  simp only [sysIpcTrySend, sysGetenvid, envid2env, wp_bind, wp_get, wp_pure]
  cases target : k.envid2env cur envid false with
  | none => exact wp_pure _ |>.mpr (.inr ⟨by decide, rfl⟩)
  | some dst =>
      simp only [wp_bind, wp_get, wp_ite, wp_pure]
      refine ⟨fun _ => .inr ⟨by decide, by trivial⟩, fun hrecv => ⟨fun _ => .inr ⟨by decide, by trivial⟩,
        fun _ => ?_⟩⟩
      have hflag : (k.envs dst).ipcRecving = true := by simpa using hrecv
      have recving : (k.inbox dst).recving = true := hflag
      apply wp_imp (lookupIn_keepsInbox k)
      intro found k₁ h₁
      refine ⟨fun hva => ?_, fun hva => ?_⟩
      · cases found with
        | none => exact wp_pure _ |>.mpr (.inr ⟨by decide, h₁⟩)
        | some found =>
            simp only [wp_bind, wp_ite, wp_pure]
            refine ⟨fun _ => .inr ⟨by decide, h₁⟩, fun _ => ?_⟩
            refine wp_mono (insertInto_keepsInbox k₁) (fun r k₂ h₂ => ?_)
              (fun _ _ h₂ => h₂.trans h₁) (fun _ he => he)
            refine ⟨fun _ => .inr ⟨by decide, h₂.trans h₁⟩, fun _ => ?_⟩
            rw [wp_modify, ipcDeliver, wp_bind, wp_modify, wp_pure]
            refine .inl ⟨rfl, dst, rfl, recving, ?_⟩
            have hdst : (k₂.envs dst).inbox = k.inbox dst := congrFun (h₂.trans h₁) dst
            rw [Kernel.setEnv_setEnv, Kernel.inbox_setEnv_eq, h₂, h₁, Kernel.setEnv_envs_self,
              Inbox.put, if_pos hva, ← hdst]
            rfl
      · rw [ipcDeliver, wp_bind, wp_modify, wp_pure]
        refine .inl ⟨rfl, dst, rfl, recving, ?_⟩
        have hdst : (k₁.envs dst).inbox = k.inbox dst := congrFun h₁ dst
        rw [Kernel.inbox_setEnv_eq, h₁, Inbox.put, if_neg hva, ← hdst]
        rfl

theorem sysIpcRecv_inbox {dstva : Word} :
    wp (sysIpcRecv c cur dstva) (fun _ k' => (dstva < utop ∧ pgoff dstva ≠ 0) ∧ k'.inbox = k.inbox)
      (fun _ k' => ¬ (dstva < utop ∧ pgoff dstva ≠ 0) ∧
        k'.inbox = Function.update k.inbox cur ((k.inbox cur).await dstva)) (fun _ => True) k := by
  rw [sysIpcRecv, wp_ite, wp_pure, wp_bind, wp_modify]
  refine ⟨fun h => ⟨h, rfl⟩, fun h => ?_⟩
  generalize hk : k.setEnv cur _ = k₁
  have hset : k₁.inbox = Function.update k.inbox cur ((k.inbox cur).await dstva) := by
    rw [← hk, Kernel.inbox_setEnv_eq]
    rfl
  have hyield := wp_and (schedYield_keepsInbox (c := c) (α := Word) k₁)
    (schedYield_dispatch (Q := fun _ _ => False))
  refine wp_mono hyield (fun _ _ hf => hf.2.elim) (fun _ k₂ h₂ => ⟨h, h₂.1.trans hset⟩)
    fun _ _ => trivial

/-- The way out after a system call that has returned. -/
theorem finish_keepsInbox {r : Word} : Keeps Kernel.inbox (do
    modify fun k : Kernel => k.setTf e ((k.envs e).tf.setEax r)
    trapReturn c) :=
  .bind (keepsInbox_setEnv fun _ => rfl) fun _ => trapReturn_keepsInbox

/-- A system call of `cur` and the way out. -/
theorem wp_trapDispatch_syscall (own : k.curenv c = some cur) (trapno : tf.trapno = tSyscall)
    {cr2 input : Word} {Q : Unit → Kernel → Prop} {X : Unit → Kernel → Prop} {E : Panic → Prop} :
    wp (do trapDispatch c tf cr2 input; trapReturn c) Q X E k ↔
      wp (syscall c cur input tf.regs.eax tf.regs.edx tf.regs.ecx tf.regs.ebx tf.regs.edi
        tf.regs.esi) (fun r k₁ => wp (do
          modify fun k : Kernel => k.setTf cur ((k.envs cur).tf.setEax r)
          trapReturn c) Q X E k₁) X E k := by
  rw [wp_bind, trapDispatch, wp_bind, wp_get, if_neg (by rw [trapno]; decide),
    if_neg (by rw [trapno]; decide), if_pos trapno, own]
  simp only [wp_bind]

/-- A trap of an environment that is not a zombie. -/
theorem wp_trap_act (own : k.curenv c = some cur) (alive : k.status cur ≠ .dying)
    (ring : tf.cs &&& 3 = 3) {cr2 input : Word} {Q : Unit → Kernel → Prop}
    {X : Unit → Kernel → Prop} {E : Panic → Prop} :
    wp (trap c tf cr2 input) Q X E k ↔
      wp (do trapDispatch c tf cr2 input; trapReturn c) Q X E (k.setTf cur tf) := by
  rw [trap, when_pos _ ring, wp_bind, trapEnter, wp_bind, wp_get, own]
  dsimp only
  rw [if_neg alive, wp_modify]

theorem wp_trap_zombie (own : k.curenv c = some cur) (zombie : k.status cur = .dying)
    (ring : tf.cs &&& 3 = 3) {cr2 input : Word} :
    wp (trap c tf cr2 input) (fun _ _ => False) (fun _ k' => k'.inbox = k.inbox)
      (fun _ => True) k := by
  rw [trap, when_pos _ ring, wp_bind, trapEnter, wp_bind, wp_get, own]
  dsimp only
  rw [if_pos zombie, wp_bind]
  refine wp_mono (envFree_keepsInbox k) (fun _ k₁ h₁ => ?_) (fun _ _ hx => hx) (fun _ he => he)
  rw [wp_bind, wp_modify]
  have hyield := wp_and (schedYield_keepsInbox (c := c) (α := Unit) (k₁.setCurenv c none))
    (schedYield_dispatch (Q := fun _ _ => False))
  exact wp_mono hyield (fun _ _ hf => hf.2.elim) (fun _ k₂ h₂ => h₂.1.trans h₁) fun _ _ => trivial

theorem syscall_send {input n a1 a2 a3 a4 a5 : Word} (h : SysCall.ofNumber n = some .ipcTrySend) :
    syscall c cur input n a1 a2 a3 a4 a5 = sysIpcTrySend cur a1 a2 a3 a4 := by
  rw [syscall, h]

theorem syscall_recv {input n a1 a2 a3 a4 a5 : Word} (h : SysCall.ofNumber n = some .ipcRecv) :
    syscall c cur input n a1 a2 a3 a4 a5 = sysIpcRecv c cur a1 := by
  rw [syscall, h]

/-- A trap of an environment. -/
theorem trap_ipcStep (own : k.curenv c = some cur) (ring : tf.cs &&& 3 = 3) {cr2 input : Word} :
    wp (trap c tf cr2 input) (fun _ _ => True) (fun _ k' => IpcStep k (.trap c tf cr2 input) k')
      (fun _ => True) k := by
  have hcur : ∀ {cur'}, k.curenv c = some cur' → cur = cur' := fun h =>
    Option.some.inj (own.symm.trans h)
  by_cases zombie : k.status cur = .dying
  · refine wp_mono (wp_trap_zombie own zombie ring) (fun _ _ hf => hf.elim) (fun _ k' h => ?_)
      (fun _ _ => trivial)
    refine .quiet (fun cur' msg sends => ?_) (fun cur' va receives => ?_) h
    · exact sends.alive (hcur sends.own ▸ zombie)
    · exact receives.alive (hcur receives.own ▸ zombie)
  have own' : (k.setTf cur tf).curenv c = some cur := own
  have hinbox : (k.setTf cur tf).inbox = k.inbox := Kernel.inbox_setEnv rfl
  by_cases send : tf.Calls .ipcTrySend
  · rw [wp_trap_act own zombie ring, wp_trapDispatch_syscall own' send.1, syscall_send send.2]
    have hspec := @sysIpcTrySend_inbox (k.setTf cur tf) cur tf.regs.edx tf.regs.ecx tf.regs.ebx
      tf.regs.edi
    have unasked : ∀ cur' va, ¬ k.Receives (.trap c tf cr2 input) cur' va := fun _ _ receives =>
      absurd (receives.call.unique send) (by decide)
    cases hrun : sysIpcTrySend cur tf.regs.edx tf.regs.ecx tf.regs.ebx tf.regs.edi
      (k.setTf cur tf) with
    | panic why => exact (wp_panic_eq hrun).mpr trivial
    | exit how k₁ =>
        refine (wp_exit_eq hrun).mpr (.quiet (fun cur' msg sends => ?_) unasked ?_)
        · obtain ⟨k₂, hdone⟩ := sends.done
          obtain rfl := hcur sends.own
          exact absurd (hrun.symm.trans hdone) (by simp)
        · exact ((wp_exit_eq hrun).mp hspec).trans hinbox
    | ret r k₁ =>
        refine (wp_ret hrun).mpr (wp_mono (finish_keepsInbox k₁) (fun _ _ _ => trivial)
          (fun _ k' h' => ?_) (fun _ he => he))
        rcases (wp_ret hrun).mp hspec with ⟨rfl, dst, target, recving, put⟩ | ⟨hr, same⟩
        · rw [Kernel.envid2env_setTf] at target
          rw [hinbox] at recving put
          have hid : ((k.setTf cur tf).envs cur).id = (k.envs cur).id :=
            Kernel.setEnv_field (f := Env.id) (by rfl) cur
          rw [hid] at put
          have sends : k.Sends (.trap c tf cr2 input) cur
              ⟨dst, (k.envs cur).id, tf.regs.ecx, tf.regs.ebx, tf.regs.edi⟩ :=
            ⟨own, zombie, send, target, rfl, rfl, rfl, rfl, k₁, hrun⟩
          exact .send sends recving (h'.trans put)
        · refine .quiet (fun cur' msg sends => ?_) unasked (h'.trans (same.trans hinbox))
          obtain ⟨k₂, hdone⟩ := sends.done
          obtain rfl := hcur sends.own
          exact hr (Outcome.ret.inj (hrun.symm.trans hdone)).1
  · by_cases recv : tf.Calls .ipcRecv
    · rw [wp_trap_act own zombie ring, wp_trapDispatch_syscall own' recv.1, syscall_recv recv.2]
      have unsent : ∀ cur' msg, ¬ k.Sends (.trap c tf cr2 input) cur' msg := fun _ _ sends =>
        absurd (sends.call.unique recv) (by decide)
      refine wp_mono (sysIpcRecv_inbox (k := k.setTf cur tf)) (fun r k₁ h₁ => ?_)
        (fun _ k₁ h₁ => ?_) (fun _ he => he)
      · refine wp_mono (finish_keepsInbox k₁) (fun _ _ _ => trivial) (fun _ k' h' => ?_)
          (fun _ he => he)
        refine .quiet unsent (fun cur' va receives => ?_) (h'.trans (h₁.2.trans hinbox))
        exact receives.aligned (by rw [receives.arg]; exact h₁.1)
      · rw [hinbox] at h₁
        exact .receive ⟨own, zombie, recv, rfl, h₁.1⟩ h₁.2
    · refine wp_mono (trap_keepsInbox send recv k) (fun _ _ _ => trivial) (fun _ k' h => ?_)
        (fun _ he => he)
      exact .quiet (fun _ _ sends => send sends.call) (fun _ _ receives => recv receives.call) h

/-- What one step of the machine does to the fields. -/
theorem Step.ipcStep {ev : Event} (step : Step k ev k')
    (parked : k.mode ev.cpu = .starting ∨ k.mode ev.cpu = .halted → k.curenv ev.cpu = none) :
    IpcStep k ev k' := by
  have idle : ∀ {c : Nat} {tf : Trapframe}, ev.cpu = c → ev.frame = tf → k.curenv c = none →
      Dispatch c k k' → IpcStep k ev k' := by
    rintro c tf rfl rfl hnone out
    refine .quiet (fun cur msg sends => ?_) (fun cur va receives => ?_) (funext fun e => ?_)
    · exact absurd (hnone.symm.trans sends.own) (by simp)
    · exact absurd (hnone.symm.trans receives.own) (by simp)
    · exact out.field (f := Env.inbox) (fun _ _ _ _ => rfl) e
  cases step with
  | start mode lock run =>
      exact idle rfl rfl (parked (.inl mode))
        ((wp_exit_eq run).mp (schedYield_dispatch (Q := fun _ _ => False)))
  | wake mode lock ring run =>
      have hnone := parked (.inr mode)
      exact idle rfl rfl hnone ((wp_exit_eq run).mp (trap_idle hnone (by rw [ring]; decide)))
  | @trap _ c tf cr2 input mode lock ring run =>
      cases own : k.curenv c with
      | some cur => exact (wp_exit_eq run).mp (trap_ipcStep own ring)
      | none =>
          have hpanic : Jos.trap c tf cr2 input k = .panic .assertion := by
            rw [Jos.trap, when_pos _ ring]
            refine bind_panic _ ?_
            rw [trapEnter, get_bind, own]
            rfl
          exact absurd (hpanic.symm.trans run) (by simp)
  | store mode walk user write =>
      refine .quiet (fun cur msg sends => ?_) (fun cur va receives => ?_) rfl
      · exact absurd sends.call.1 (show (0 : Word) ≠ tSyscall by decide)
      · exact absurd receives.call.1 (show (0 : Word) ≠ tSyscall by decide)

/-- A step that sends a message. -/
theorem Kernel.Sends.put {ev : Event} {msg : Message} (sends : k.Sends ev cur msg)
    (step : Step k ev k')
    (parked : k.mode ev.cpu = .starting ∨ k.mode ev.cpu = .halted → k.curenv ev.cpu = none) :
    (k.inbox msg.dst).recving = true ∧
      k'.inbox = Function.update k.inbox msg.dst ((k.inbox msg.dst).put msg) := by
  cases step.ipcStep parked with
  | quiet unsent unasked same => exact absurd sends (unsent _ _)
  | send sends' recving put =>
      obtain ⟨-, rfl⟩ := sends.unique sends'
      exact ⟨recving, put⟩
  | receive receives await => exact absurd (sends.call.unique receives.call) (by decide)

end Step

end Jos
