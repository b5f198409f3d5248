import Jos.Kernel.Trap

/-!
# What one kernel entry does to environments and CPUs

`Entry c tf k k'` lists everything that a trap on CPU `c` can do, up to the
contents of memory and a few fields that no scheduling decision reads: save the
registers, perform at most one operation, and leave through the scheduler. The
invariants about environments and CPUs are proved from this list; none of them
unfolds the kernel's code again.
-/

namespace Jos

open Prog

/-- Two environments agree on the fields that scheduling and IPC rely on. -/
structure Env.Same (a b : Env) : Prop where
  tf : b.tf = a.tf
  link : b.link = a.link
  id : b.id = a.id
  parentId : b.parentId = a.parentId
  status : b.status = a.status
  pgdir : b.pgdir = a.pgdir
  ipcRecving : b.ipcRecving = a.ipcRecving
  ipcDstva : b.ipcDstva = a.ipcDstva

theorem Env.Same.refl (a : Env) : a.Same a := ⟨rfl, rfl, rfl, rfl, rfl, rfl, rfl, rfl⟩

theorem Env.Same.trans {a b d : Env} (h : a.Same b) (h' : b.Same d) : a.Same d :=
  ⟨h'.tf.trans h.tf, h'.link.trans h.link, h'.id.trans h.id, h'.parentId.trans h.parentId,
    h'.status.trans h.status, h'.pgdir.trans h.pgdir, h'.ipcRecving.trans h.ipcRecving,
    h'.ipcDstva.trans h.ipcDstva⟩

namespace Kernel

/-- Two states agree on everything but memory and bookkeeping fields. -/
structure Same (k k' : Kernel) : Prop where
  envs : ∀ e, (k.envs e).Same (k'.envs e)
  envFreeList : k'.envFreeList = k.envFreeList
  kernPgdir : k'.kernPgdir = k.kernPgdir
  cpus : k'.cpus = k.cpus

theorem Same.refl (k : Kernel) : k.Same k := ⟨fun _ => .refl _, rfl, rfl, rfl⟩

theorem Same.trans {k k₁ k' : Kernel} (h : k.Same k₁) (h' : k₁.Same k') : k.Same k' :=
  ⟨fun e => (h.envs e).trans (h'.envs e), h'.envFreeList.trans h.envFreeList,
    h'.kernPgdir.trans h.kernPgdir, h'.cpus.trans h.cpus⟩

theorem Same.phys (k : Kernel) (p : Phys) : k.Same { k with phys := p } :=
  ⟨fun _ => .refl _, rfl, rfl, rfl⟩

variable (k : Kernel) (c : Nat) (e : EnvIdx)

/-- The state that `env_free` leaves. -/
def released : Kernel :=
  { k.setEnv e { k.envs e with pgdir := none, status := .free, link := k.envFreeList } with
    envFreeList := some e }

/-- The state in which `env_destroy` of the current environment schedules. -/
def exited : Kernel :=
  ((k.setCpu c { k.cpus c with cr3 := k.kernPgdir }).released e).setCurenv c none

/-- The state that `sys_exofork` leaves, with a new page directory `d`. -/
def forked (parentId : Word) (d : Nat) (tf : Trapframe) : Kernel :=
  { k.setEnv e
      { k.envs e with
        pgdir := some d
        id := nextEnvId (k.envs e).id e
        parentId
        type := .user
        status := .notRunnable
        runs := 0
        tf
        pgfaultUpcall := 0 } with
    envFreeList := (k.envs e).link }

/-- The state after a successful send to `e`. -/
def delivered (srcid value : Word) : Kernel :=
  k.setEnv e
    { k.envs e with
      ipcRecving := false
      ipcFrom := srcid
      ipcValue := value
      tf := (k.envs e).tf.setEax 0
      status := .runnable }

/-- The state in which `sys_ipc_recv` of `e` schedules. -/
def waiting (dstva : Word) : Kernel :=
  k.setEnv e
    { k.envs e with
      ipcDstva := if dstva ≥ utop then utop else dstva
      ipcRecving := true
      status := .notRunnable }

/-- The status of every environment once CPU `c` has let go of its own. -/
def preempted : Kernel :=
  match k.curenv c with
  | none => k
  | some cur => if k.status cur = .running then k.setStatus cur .runnable else k

/-- The state that `env_run` leaves; `d` is the page directory of `e`. -/
def ran (d : Nat) : Kernel :=
  let k₁ := (k.preempted c).setCurenv c (some e)
  let k₂ := k₁.setEnv e
    { k₁.envs e with status := .running, runs := (k₁.envs e).runs + 1 }
  let k₃ := k₂.setEnv e { k₂.envs e with cpunum := c }
  k₃.setCpu c { k₃.cpus c with cr3 := d, mode := .user }

end Kernel

/-- How the scheduler leaves the kernel on CPU `c`. -/
inductive Dispatch (c : Nat) : Kernel → Kernel → Prop
  | run {k : Kernel} {e : EnvIdx} {d : Nat}
      (ready : k.status e = .runnable ∨ k.curenv c = some e ∧ k.status e = .running)
      (pgdir : (k.envs e).pgdir = some d) : Dispatch c k (k.ran c e d)
  | halt {k : Kernel} :
      Dispatch c k (k.setCpu c { env := none, mode := .halted, cr3 := k.kernPgdir })
  | monitor {k : Kernel} : Dispatch c k (k.setCpu c { k.cpus c with mode := .monitor })

/-- The trap frame `tf` asks for the system call `call`. -/
def Trapframe.Calls (tf : Trapframe) (call : SysCall) : Prop :=
  tf.trapno = tSyscall ∧ SysCall.ofNumber tf.regs.eax = some call

theorem Trapframe.Calls.unique {tf : Trapframe} {a b : SysCall} (ha : tf.Calls a)
    (hb : tf.Calls b) : a = b := Option.some.inj (ha.2.symm.trans hb.2)

/-- The one operation that a trap of `cur` performs before it leaves. -/
inductive Op (c : Nat) (tf : Trapframe) (cur : EnvIdx) : Kernel → Kernel → Prop
  | quiet {k k' : Kernel} (same : k.Same k') : Op c tf cur k k'
  | setStatus {k : Kernel} {e : EnvIdx} {st : EnvStatus} (call : tf.Calls .envSetStatus)
      (target : k.envid2env cur tf.regs.edx true = some e)
      (arg : statusArg tf.regs.ecx = some st) : Op c tf cur k (k.setStatus e st)
  | doom {k : Kernel} {e : EnvIdx} (call : tf.Calls .envDestroy)
      (target : k.envid2env cur tf.regs.edx true = some e) (other : k.curenv c ≠ some e)
      (running : k.status e = .running) : Op c tf cur k (k.setStatus e .dying)
  | release {k k' : Kernel} {e : EnvIdx} (call : tf.Calls .envDestroy)
      (target : k.envid2env cur tf.regs.edx true = some e) (other : k.curenv c ≠ some e)
      (idle : k.status e ≠ .running) (same : (k.released e).Same k') : Op c tf cur k k'
  | fork {k k' : Kernel} {e : EnvIdx} {d : Nat} {tf' : Trapframe} (call : tf.Calls .exofork)
      (head : k.envFreeList = some e) (same : (k.forked e (k.envs cur).id d tf').Same k') :
      Op c tf cur k k'
  | deliver {k k' : Kernel} {e : EnvIdx} (call : tf.Calls .ipcTrySend)
      (target : k.envid2env cur tf.regs.edx false = some e)
      (recving : (k.envs e).ipcRecving = true)
      (same : (k.delivered e (k.envs cur).id tf.regs.ecx).Same k') : Op c tf cur k k'

/-- How a trap of `cur` ends after its operation. -/
inductive Finish (c : Nat) (tf : Trapframe) (cur : EnvIdx) : Kernel → Kernel → Prop
  | dispatch {k k' : Kernel} (out : Dispatch c k k') : Finish c tf cur k k'
  | result {k k' : Kernel} (r : Word)
      (out : Dispatch c (k.setTf cur ((k.envs cur).tf.setEax r)) k') : Finish c tf cur k k'
  | wait {k k' : Kernel} (call : tf.Calls .ipcRecv)
      (out : Dispatch c (k.waiting cur tf.regs.edx) k') : Finish c tf cur k k'
  | exit {k k₁ k' : Kernel} (same : (k.exited c cur).Same k₁) (out : Dispatch c k₁ k') :
      Finish c tf cur k k'
  /-- Back to the user's page fault handler, whatever the status has become. -/
  | upcall {k : Kernel} {d : Nat} (tf' : Trapframe) (pgdir : (k.envs cur).pgdir = some d) :
      Finish c tf cur k ((k.setTf cur tf').ran c cur d)

/-- One kernel entry of CPU `c`. -/
inductive Entry (c : Nat) (tf : Trapframe) : Kernel → Kernel → Prop
  | idle {k k' : Kernel} (none : k.curenv c = none) (out : Dispatch c k k') : Entry c tf k k'
  | collect {k k₁ k' : Kernel} {cur : EnvIdx} (own : k.curenv c = some cur)
      (zombie : k.status cur = .dying) (same : (k.exited c cur).Same k₁)
      (out : Dispatch c k₁ k') : Entry c tf k k'
  | act {k k₁ k' : Kernel} {cur : EnvIdx} (own : k.curenv c = some cur)
      (alive : k.status cur ≠ .dying) (op : Op c tf cur (k.setTf cur tf) k₁)
      (out : Finish c tf cur k₁ k') : Entry c tf k k'

section Same

variable {k k' : Kernel}

theorem Kernel.Same.setCurenv (h : k.Same k') (c : Nat) (o : Option EnvIdx) :
    (k.setCurenv c o).Same (k'.setCurenv c o) :=
  ⟨h.envs, h.envFreeList, h.kernPgdir, by
    simp only [Kernel.setCurenv, Kernel.setCpu, h.cpus]⟩

/-- A change of bookkeeping fields only. -/
theorem Kernel.Same.setEnv {e : EnvIdx} {env : Env} (h : (k.envs e).Same env) :
    k.Same (k.setEnv e env) := by
  refine ⟨fun e' => ?_, rfl, rfl, rfl⟩
  by_cases he : e' = e
  · subst he
    simpa only [Kernel.setEnv, Function.update_self] using h
  · simpa only [Kernel.setEnv, Function.update_of_ne he] using Env.Same.refl _

theorem Kernel.Same.setEnv_congr {e : EnvIdx} {a b : Env} (h : k.Same k') (hab : a.Same b) :
    (k.setEnv e a).Same (k'.setEnv e b) := by
  refine ⟨fun e' => ?_, h.envFreeList, h.kernPgdir, h.cpus⟩
  by_cases he : e' = e
  · subst he
    simpa only [Kernel.setEnv, Function.update_self] using hab
  · simpa only [Kernel.setEnv, Function.update_of_ne he] using h.envs e'

theorem Kernel.Same.setFreeList (h : k.Same k') (o : Option EnvIdx) :
    ({ k with envFreeList := o } : Kernel).Same { k' with envFreeList := o } :=
  ⟨h.envs, rfl, h.kernPgdir, h.cpus⟩

end Same

@[simp] theorem Kernel.setEnv_setEnv (k : Kernel) (e : EnvIdx) (a b : Env) :
    (k.setEnv e a).setEnv e b = k.setEnv e b := by
  simp only [Kernel.setEnv, Function.update_idem]

@[simp] theorem Kernel.setEnv_envs_self (k : Kernel) (e : EnvIdx) (env : Env) :
    (k.setEnv e env).envs e = env := by
  simp only [Kernel.setEnv, Function.update_self]

section Code

variable {k : Kernel} {c : Nat} {cur e : EnvIdx} {tf : Trapframe}

/-- Code of the memory manager does not touch environments or CPUs. -/
theorem wp_pmap_same {α : Type} (m : Pmap α) {X : Unit → Kernel → Prop} :
    wp (pmap m) (fun _ k' => k.Same k') X (fun _ => True) k :=
  wp_zoom_frame fun _ p => Kernel.Same.phys k p

theorem pmap_ret {α : Type} {m : Pmap α} {a : α} {p : Phys} (h : m k.phys = .ret a p) :
    pmap m k = .ret a { k with phys := p } := zoom_ret h

theorem envPreempt_run : envPreempt c k = .ret () (k.preempted c) := by
  rw [envPreempt, get_bind, Kernel.preempted]
  cases k.curenv c with
  | none => rfl
  | some cur =>
      by_cases h : k.status cur = .running
      · simp only [when_pos _ h, modify_run, if_pos h]
      · simp only [when_neg _ h, pure_run, if_neg h]

theorem preempted_pgdir (e : EnvIdx) :
    ((k.preempted c).envs e).pgdir = (k.envs e).pgdir := by
  rw [Kernel.preempted]
  cases k.curenv c with
  | none => rfl
  | some cur =>
      by_cases h : k.status cur = .running
      · by_cases he : e = cur
        · subst he
          simp [h, Kernel.setStatus, Kernel.setEnv]
        · simp [h, Kernel.setStatus, Kernel.setEnv, Function.update_of_ne he]
      · simp [h]

theorem envRun_run {α : Type} {d : Nat} (h : (k.envs e).pgdir = some d) :
    (envRun c e : KM α) k = .exit () (k.ran c e d) := by
  rw [envRun, bind_ret _ envPreempt_run]
  simp only [modify_bind, paddrPgdir]
  rw [bind_ret (a := d)]
  · rfl
  · simp only [get_bind, Kernel.setEnv, Kernel.setCurenv, Kernel.setCpu, Function.update_self,
      preempted_pgdir, h, pure_run]

theorem envRun_panic {α : Type} (h : (k.envs e).pgdir = none) :
    (envRun c e : KM α) k = .panic .paddr := by
  rw [envRun, bind_ret _ envPreempt_run]
  simp only [modify_bind, paddrPgdir]
  apply bind_panic
  simp only [get_bind, Kernel.setEnv, Kernel.setCurenv, Kernel.setCpu, Function.update_self,
    preempted_pgdir, h, panic_run]

theorem envRun_dispatch {α : Type} {Q : α → Kernel → Prop}
    (ready : k.status e = .runnable ∨ k.curenv c = some e ∧ k.status e = .running) :
    wp (envRun c e) Q (fun _ k' => Dispatch c k k') (fun _ => True) k := by
  cases hd : (k.envs e).pgdir with
  | none =>
      exact (wp_panic_eq (envRun_panic hd)).mpr trivial
  | some d =>
      rw [wp_exit_eq (envRun_run hd)]
      exact .run ready hd

theorem schedScan_some {n : Nat} {i : Option EnvIdx} (h : k.schedScan n i = some e) :
    k.status e = .runnable := by
  induction n generalizing i with
  | zero => simp [Kernel.schedScan] at h
  | succ n ih =>
      rw [Kernel.schedScan] at h
      split at h
      · rename_i hr
        rw [Option.some.injEq] at h
        exact h ▸ hr
      · exact ih h

theorem monitor_dispatch {α : Type} {Q : α → Kernel → Prop} :
    wp (monitor c) Q (fun _ k' => Dispatch c k k') (fun _ => True) k := by
  rw [monitor, wp_bind, wp_modify, wp_exit]
  exact .monitor

theorem schedHalt_dispatch {α : Type} {Q : α → Kernel → Prop} :
    wp (schedHalt c) Q (fun _ k' => Dispatch c k k') (fun _ => True) k := by
  rw [schedHalt, wp_bind, wp_get, wp_ite]
  refine ⟨fun _ => ?_, fun _ => monitor_dispatch⟩
  rw [wp_bind, wp_modify, wp_exit]
  exact .halt

theorem schedYield_dispatch {α : Type} {Q : α → Kernel → Prop} :
    wp (schedYield c) Q (fun _ k' => Dispatch c k k') (fun _ => True) k := by
  rw [schedYield, wp_bind, wp_get]
  split
  · rename_i e he
    exact envRun_dispatch (.inl (schedScan_some he))
  · split
    · rename_i idle hidle
      rw [wp_ite]
      exact ⟨fun hr => envRun_dispatch (.inr ⟨hidle, hr⟩), fun _ => schedHalt_dispatch⟩
    · exact schedHalt_dispatch

theorem trapReturn_dispatch {Q : Unit → Kernel → Prop} :
    wp (trapReturn c) Q (fun _ k' => Dispatch c k k') (fun _ => True) k := by
  rw [trapReturn, wp_bind, wp_get]
  split
  · rename_i e he
    rw [wp_ite]
    exact ⟨fun hr => envRun_dispatch (.inr ⟨he, hr⟩), fun _ => schedYield_dispatch⟩
  · exact schedYield_dispatch

/-- `env_free` releases the slot; the rest of its work is on memory. -/
theorem envFree_released {X : Unit → Kernel → Prop} :
    wp (envFree c e)
      (fun _ k' => ((if k.curenv c = some e then k.setCpu c { k.cpus c with cr3 := k.kernPgdir }
        else k).released e).Same k') X (fun _ => True) k := by
  rw [envFree, wp_bind, wp_get, wp_bind]
  generalize hk : (if k.curenv c = some e then k.setCpu c { k.cpus c with cr3 := k.kernPgdir }
    else k) = k₁
  have hfree : wp (when (k.curenv c = some e)
      (modify fun k => k.setCpu c { k.cpus c with cr3 := k.kernPgdir }) : KM Unit)
      (fun _ k' => k' = k₁) X (fun _ => True) k := by
    rw [wp_when, wp_modify]
    exact ⟨fun h => by rw [← hk, if_pos h], fun h => by rw [← hk, if_neg h]⟩
  apply wp_imp hfree
  rintro _ k₁ rfl
  rw [pgdirOf, wp_bind, wp_bind, wp_get]
  cases hd : (k₁.envs e).pgdir with
  | none => simp only [wp_panic]
  | some d =>
      rw [wp_pure, wp_bind]
      apply wp_imp (wp_pmap_same _)
      intro _ k₂ h₂
      rw [paddrPgdir, wp_bind, wp_bind, wp_get, (h₂.envs e).pgdir, hd]
      rw [wp_pure, wp_bind, wp_modify, wp_bind]
      apply wp_imp (wp_pmap_same _)
      intro _ k₃ h₃
      rw [wp_bind, wp_modify, wp_modify]
      have h : (k₁.setEnv e { k₁.envs e with pgdir := none }).Same k₃ := by
        refine Kernel.Same.trans (h₂.setEnv_congr ?_) h₃
        obtain ⟨htf, hlink, hid, hparent, hstatus, -, hrecv, hdst⟩ := h₂.envs e
        exact ⟨htf, hlink, hid, hparent, hstatus, rfl, hrecv, hdst⟩
      obtain ⟨htf, -, hid, hparent, -, hpgdir, hrecv, hdst⟩ := h.envs e
      rw [Kernel.setEnv_envs_self] at htf hid hparent hpgdir hrecv hdst
      rw [Kernel.released, ← Kernel.setEnv_setEnv k₁ e { k₁.envs e with pgdir := none }]
      refine (h.setEnv_congr ?_).setFreeList _
      exact ⟨htf, h.envFreeList, hid, hparent, rfl, hpgdir, hrecv, hdst⟩

theorem envDestroy_own {Q : Unit → Kernel → Prop} (own : k.curenv c = some cur) :
    wp (envDestroy c cur) Q
      (fun _ k' => ∃ k₁, (k.exited c cur).Same k₁ ∧ Dispatch c k₁ k') (fun _ => True) k := by
  rw [envDestroy, wp_bind, wp_get, wp_ite]
  refine ⟨fun h => absurd own h.2, fun _ => ?_⟩
  rw [wp_bind]
  apply wp_imp envFree_released
  intro _ k₁ h₁
  rw [if_pos own] at h₁
  have hcur : k₁.curenv c = some cur := by
    rw [Kernel.curenv, h₁.cpus]
    simpa [Kernel.released, Kernel.setEnv, Kernel.setCpu, Kernel.curenv] using own
  rw [wp_bind, wp_get, wp_when]
  refine ⟨fun _ => ?_, fun h => absurd hcur h⟩
  rw [wp_bind, wp_modify]
  refine wp_mono schedYield_dispatch (fun a t h => h) ?_ (fun _ h => h)
  exact fun _ k' out => ⟨_, h₁.setCurenv c none, out⟩

theorem envDestroy_other {X : Unit → Kernel → Prop} (other : k.curenv c ≠ some e) :
    wp (envDestroy c e)
      (fun _ k' => (k.status e = .running ∧ k' = k.setStatus e .dying) ∨
        (k.status e ≠ .running ∧ (k.released e).Same k')) X (fun _ => True) k := by
  rw [envDestroy, wp_bind, wp_get, wp_ite]
  refine ⟨fun h => ?_, fun h => ?_⟩
  · rw [wp_modify]
    exact .inl ⟨h.1, rfl⟩
  · rw [wp_bind]
    apply wp_imp envFree_released
    intro _ k₁ h₁
    rw [if_neg other] at h₁
    have hcur : k₁.curenv c ≠ some e := by
      rw [Kernel.curenv, h₁.cpus]
      exact other
    rw [wp_bind, wp_get, wp_when]
    refine ⟨fun h => absurd h hcur, fun _ => .inr ⟨fun hr => h ⟨hr, other⟩, h₁⟩⟩

/-- What an operation followed by an exit of the kernel amounts to. -/
def Leaves (c : Nat) (tf : Trapframe) (cur : EnvIdx) (k : Kernel) : Unit → Kernel → Prop :=
  fun _ k' => ∃ k₁, Op c tf cur k k₁ ∧ Finish c tf cur k₁ k'

/-- Leaving through the scheduler, with the operation already done. -/
theorem Leaves.dispatch {α : Type} {m : KM α} {Q : α → Kernel → Prop} {k₁ : Kernel}
    (op : Op c tf cur k k₁)
    (h : wp m Q (fun _ k' => Dispatch c k₁ k') (fun _ => True) k₁) :
    wp m Q (Leaves c tf cur k) (fun _ => True) k₁ :=
  wp_mono h (fun _ _ hq => hq) (fun _ _ out => ⟨k₁, op, .dispatch out⟩) (fun _ he => he)

/-- Code that changes memory and bookkeeping only. -/
def Quiet {α : Type} (m : KM α) (k : Kernel) : Prop :=
  wp m (fun _ k' => k.Same k') (fun _ _ => False) (fun _ => True) k

theorem Quiet.op {α : Type} {m : KM α} (h : Quiet m k) :
    wp m (fun _ k₁ => Op c tf cur k k₁) (Leaves c tf cur k) (fun _ => True) k :=
  wp_mono h (fun _ _ same => .quiet same) (fun _ _ hf => hf.elim) (fun _ he => he)

theorem Quiet.pure {α : Type} (a : α) : Quiet (pure a : KM α) k := by
  rw [Quiet, wp_pure]
  exact .refl k

theorem Quiet.bind {α β : Type} {m : KM α} {f : α → KM β} (h : Quiet m k)
    (rest : ∀ a k', k.Same k' → Quiet (f a) k') : Quiet (m >>= f) k := by
  rw [Quiet, wp_bind]
  apply wp_imp h
  intro a k' same
  exact wp_imp (rest a k' same) fun _ _ same' => same.trans same'

theorem Quiet.pmap {α : Type} (m : Pmap α) : Quiet (pmap m) k := wp_pmap_same m

theorem Quiet.pgdirOf : Quiet (pgdirOf e) k := by
  rw [Quiet, Jos.pgdirOf, wp_bind, wp_get]
  split
  · rw [wp_panic]
    trivial
  · rw [wp_pure]
    exact .refl k

theorem Quiet.ite {α : Type} {p : Prop} [Decidable p] {m n : KM α} (hm : p → Quiet m k)
    (hn : ¬ p → Quiet n k) : Quiet (if p then m else n) k := by
  rw [Quiet, wp_ite]
  exact ⟨hm, hn⟩

theorem Quiet.get {α : Type} {f : Kernel → KM α} (h : Quiet (f k) k) : Quiet (Prog.get >>= f) k := by
  rw [Quiet, wp_bind, wp_get]
  exact h

theorem Quiet.envid2env {envid : Word} {checkperm : Bool} :
    Quiet (envid2env cur envid checkperm) k :=
  .get (.pure _)

theorem Quiet.insertInto {pp : Nat} {va perm : Word} : Quiet (insertInto e pp va perm) k :=
  .bind .pgdirOf fun _ _ _ => .pmap _

theorem Quiet.lookupIn {va : Word} : Quiet (lookupIn e va) k := by
  refine .bind .pgdirOf fun _ _ _ => .bind (.pmap _) fun found _ _ => ?_
  cases found with
  | none => exact .pure _
  | some found => exact .bind (.pmap _) fun _ _ _ => .pure _

theorem sysGetenvid_quiet : Quiet (sysGetenvid cur) k := .get (.pure _)

theorem sysPageAlloc_quiet {envid va perm : Word} : Quiet (sysPageAlloc cur envid va perm) k := by
  refine .bind .envid2env fun target _ _ => ?_
  cases target with
  | none => exact .pure _
  | some e =>
      refine .ite (fun _ => .pure _) fun _ => .ite (fun _ => .pure _) fun _ => ?_
      refine .bind (.pmap _) fun page _ _ => ?_
      cases page with
      | none => exact .pure _
      | some pp =>
          refine .bind .insertInto fun _ _ _ => ?_
          exact .ite (fun _ => .pure _) fun _ => .pure _

theorem sysPageMap_quiet {srcenvid srcva dstenvid dstva perm : Word} :
    Quiet (sysPageMap cur srcenvid srcva dstenvid dstva perm) k := by
  refine .bind .envid2env fun src _ _ => ?_
  cases src with
  | none => exact .pure _
  | some srcenv =>
      refine .bind .envid2env fun dst _ _ => ?_
      cases dst with
      | none => exact .pure _
      | some dstenv =>
          refine .ite (fun _ => .pure _) fun _ => .bind .lookupIn fun found _ _ => ?_
          cases found with
          | none => exact .pure _
          | some found =>
              refine .ite (fun _ => .pure _) fun _ => .ite (fun _ => .pure _) fun _ => ?_
              refine .bind .insertInto fun _ _ _ => ?_
              exact .ite (fun _ => .pure _) fun _ => .pure _

theorem sysPageUnmap_quiet {envid va : Word} : Quiet (sysPageUnmap cur envid va) k := by
  refine .bind .envid2env fun target _ _ => ?_
  cases target with
  | none => exact .pure _
  | some e =>
      refine .ite (fun _ => .pure _) fun _ => ?_
      exact .bind .pgdirOf fun _ _ _ => .bind (.pmap _) fun _ _ _ => .pure _

theorem sysEnvSetPgfaultUpcall_quiet {envid func : Word} :
    Quiet (sysEnvSetPgfaultUpcall cur envid func) k := by
  refine .bind .envid2env fun target k₁ _ => ?_
  cases target with
  | none => exact .pure _
  | some e =>
      refine .bind (k := k₁) ?_ fun _ _ _ => .pure _
      rw [Quiet, wp_modify]
      exact .setEnv ⟨rfl, rfl, rfl, rfl, rfl, rfl, rfl, rfl⟩

/-- A failed check of user memory destroys the current environment. -/
theorem userMemAssert_op (own : k.curenv c = some cur) {va len perm : Word} :
    wp (userMemAssert c cur va len perm) (fun _ k₁ => k.Same k₁) (Leaves c tf cur k)
      (fun _ => True) k := by
  rw [userMemAssert, wp_bind]
  refine wp_mono Quiet.pgdirOf ?_ (fun _ _ hf => hf.elim) (fun _ he => he)
  intro d k₁ same₁
  rw [wp_bind]
  apply wp_imp (wp_pmap_same _)
  intro denied k₂ same₂
  cases denied with
  | none => exact wp_pure _ |>.mpr (same₁.trans same₂)
  | some addr =>
      have hown : k₂.curenv c = some cur := by
        rw [Kernel.curenv, same₂.cpus, same₁.cpus]
        exact own
      refine wp_mono (envDestroy_own (Q := fun _ _ => False) hown) (fun _ _ hf => hf.elim) ?_
        (fun _ he => he)
      rintro _ k' ⟨k₃, same₃, out⟩
      exact ⟨k₂, .quiet (same₁.trans same₂), .exit same₃ out⟩

theorem sysCputs_op (own : k.curenv c = some cur) {va len : Word} :
    wp (sysCputs c cur va len) (fun _ k₁ => Op c tf cur k k₁) (Leaves c tf cur k)
      (fun _ => True) k := by
  rw [sysCputs, wp_bind]
  apply wp_imp (userMemAssert_op own)
  intro _ k₁ same₁
  rw [wp_bind, wp_get, wp_bind, wp_when]
  refine ⟨fun _ => wp_imp (wp_pmap_same _) fun _ k₂ same₂ => ?_, fun _ => ?_⟩
  · exact wp_pure _ |>.mpr (.quiet (same₁.trans same₂))
  · exact wp_pure _ |>.mpr (.quiet same₁)

theorem sysEnvDestroy_op (own : k.curenv c = some cur) (call : tf.Calls .envDestroy) :
    wp (sysEnvDestroy c cur tf.regs.edx) (fun _ k₁ => Op c tf cur k k₁) (Leaves c tf cur k)
      (fun _ => True) k := by
  rw [sysEnvDestroy, envid2env, wp_bind, wp_bind, wp_get, wp_pure]
  cases target : k.envid2env cur tf.regs.edx true with
  | none => exact wp_pure _ |>.mpr (.quiet (.refl k))
  | some e =>
      simp only [wp_bind]
      by_cases he : k.curenv c = some e
      · have hcur : cur = e := Option.some.inj (own.symm.trans he)
        subst hcur
        refine wp_mono (envDestroy_own own) (fun _ _ hf => hf) ?_ (fun _ he => he)
        rintro _ k' ⟨k₁, same, out⟩
        exact ⟨k, .quiet (.refl k), .exit same out⟩
      · apply wp_imp (envDestroy_other he)
        rintro _ k₁ (⟨running, rfl⟩ | ⟨idle, same⟩)
        · exact wp_pure _ |>.mpr (.doom call target he running)
        · exact wp_pure _ |>.mpr (.release call target he idle same)

theorem sysEnvSetStatus_op (call : tf.Calls .envSetStatus) :
    wp (sysEnvSetStatus cur tf.regs.edx tf.regs.ecx) (fun _ k₁ => Op c tf cur k k₁)
      (Leaves c tf cur k) (fun _ => True) k := by
  rw [sysEnvSetStatus]
  cases arg : statusArg tf.regs.ecx with
  | none => exact wp_pure _ |>.mpr (.quiet (.refl k))
  | some st =>
      simp only [envid2env, wp_bind, wp_get, wp_pure]
      cases target : k.envid2env cur tf.regs.edx true with
      | none => exact wp_pure _ |>.mpr (.quiet (.refl k))
      | some e =>
          simp only [wp_bind, wp_modify, wp_pure]
          exact .setStatus call target arg

/-- `env_setup_vm` gives the environment a page directory, or changes nothing. -/
theorem envSetupVm_op {X : Unit → Kernel → Prop} :
    wp (envSetupVm e)
      (fun r k₁ => (r.slt 0 = true ∧ k.Same k₁) ∨
        r = 0 ∧ ∃ d, (k.setEnv e { k.envs e with pgdir := some d }).Same k₁)
      X (fun _ => True) k := by
  rw [envSetupVm, wp_bind]
  apply wp_imp (wp_pmap_same _)
  intro page k₁ same₁
  cases page with
  | none => exact wp_pure _ |>.mpr (.inl ⟨by decide, same₁⟩)
  | some pp =>
      rw [wp_bind]
      apply wp_imp (wp_pmap_same _)
      intro d k₂ same₂
      rw [wp_bind, wp_modify, wp_bind, wp_get, wp_bind]
      apply wp_imp (wp_pmap_same _)
      intro _ k₃ same₃
      rw [wp_bind]
      apply wp_imp (wp_pmap_same _)
      intro _ k₄ same₄
      rw [wp_bind]
      apply wp_imp (wp_pmap_same _)
      intro _ k₅ same₅
      rw [wp_pure]
      refine .inr ⟨rfl, d, ?_⟩
      refine .trans ?_ ((same₃.trans same₄).trans same₅)
      have same := same₁.trans same₂
      obtain ⟨htf, hlink, hid, hparent, hstatus, -, hrecv, hdst⟩ := same.envs e
      exact same.setEnv_congr ⟨htf, hlink, hid, hparent, hstatus, rfl, hrecv, hdst⟩

theorem sysExofork_op (call : tf.Calls .exofork) :
    wp (sysExofork cur) (fun _ k₁ => Op c tf cur k k₁) (Leaves c tf cur k) (fun _ => True) k := by
  rw [sysExofork, wp_bind, wp_get, wp_bind, envAlloc, wp_bind, wp_get]
  cases head : k.envFreeList with
  | none => exact wp_pure _ |>.mpr (wp_pure _ |>.mpr (.quiet (.refl k)))
  | some e =>
      simp only [wp_bind]
      apply wp_imp envSetupVm_op
      rintro r k₁ (⟨hr, same⟩ | ⟨rfl, d, same⟩)
      · rw [if_pos hr]
        exact wp_pure _ |>.mpr (wp_pure _ |>.mpr (.quiet same))
      · rw [if_neg (by decide)]
        simp only [wp_bind, wp_modify, wp_pure, wp_get, Kernel.setStatus, Kernel.setTf,
          Kernel.setEnv_envs_self, Kernel.setEnv_setEnv]
        obtain ⟨-, hlink, hid, -, -, hpgdir, hrecv, hdst⟩ := same.envs e
        rw [Kernel.setEnv_envs_self] at hlink hid hpgdir hrecv hdst
        apply Op.fork (d := d) call head
        refine ⟨fun e' => ?_, hlink, same.kernPgdir, same.cpus⟩
        by_cases he : e' = e
        · subst he
          simp only [Kernel.forked, Kernel.setEnv, Function.update_self]
          exact ⟨rfl, hlink, by rw [hid], rfl, rfl, hpgdir, hrecv, hdst⟩
        · have hsame := same.envs e'
          simp only [Kernel.forked, Kernel.setEnv, Function.update_of_ne he] at hsame ⊢
          exact hsame

/-- The end of a successful send, after any changes to memory. -/
theorem ipcDeliver_op {k₁ : Kernel} (call : tf.Calls .ipcTrySend)
    (target : k.envid2env cur tf.regs.edx false = some e)
    (recving : (k.envs e).ipcRecving = true) (same : k.Same k₁) :
    wp (ipcDeliver e (k.envs cur).id tf.regs.ecx) (fun _ k₂ => Op c tf cur k k₂)
      (Leaves c tf cur k) (fun _ => True) k₁ := by
  rw [ipcDeliver, wp_bind, wp_modify, wp_pure]
  refine .deliver call target recving (same.setEnv_congr ?_)
  obtain ⟨htf, hlink, hid, hparent, -, hpgdir, -, hdst⟩ := same.envs e
  exact ⟨by rw [htf], hlink, hid, hparent, rfl, hpgdir, rfl, hdst⟩

theorem sysIpcTrySend_op (call : tf.Calls .ipcTrySend) {srcva perm : Word} :
    wp (sysIpcTrySend cur tf.regs.edx tf.regs.ecx srcva perm) (fun _ k₁ => Op c tf cur k k₁)
      (Leaves c tf cur k) (fun _ => True) k := by
  simp only [sysIpcTrySend, sysGetenvid, envid2env, wp_bind, wp_get, wp_pure]
  cases target : k.envid2env cur tf.regs.edx false with
  | none => exact wp_pure _ |>.mpr (.quiet (.refl k))
  | some dst =>
      simp only [wp_bind, wp_get, wp_ite, wp_pure]
      refine ⟨fun _ => .quiet (.refl k), fun hrecv => ⟨fun _ => .quiet (.refl k), fun _ => ?_⟩⟩
      have recving : (k.envs dst).ipcRecving = true := by simpa using hrecv
      refine wp_mono Quiet.lookupIn ?_ (fun _ _ hf => hf.elim) (fun _ he => he)
      intro found k₁ same₁
      refine ⟨fun _ => ?_, fun _ => ipcDeliver_op call target recving same₁⟩
      cases found with
      | none => exact wp_pure _ |>.mpr (.quiet same₁)
      | some found =>
          simp only [wp_bind, wp_ite, wp_pure]
          refine ⟨fun _ => .quiet same₁, fun _ => ?_⟩
          refine wp_mono Quiet.insertInto ?_ (fun _ _ hf => hf.elim) (fun _ he => he)
          intro r k₂ same₂
          refine ⟨fun _ => .quiet (same₁.trans same₂), fun _ => ?_⟩
          rw [wp_modify]
          refine ipcDeliver_op call target recving ((same₁.trans same₂).trans ?_)
          exact .setEnv ⟨rfl, rfl, rfl, rfl, rfl, rfl, rfl, rfl⟩

theorem sysIpcRecv_op (call : tf.Calls .ipcRecv) :
    wp (sysIpcRecv c cur tf.regs.edx) (fun _ k₁ => Op c tf cur k k₁) (Leaves c tf cur k)
      (fun _ => True) k := by
  rw [sysIpcRecv, wp_ite, wp_pure]
  refine ⟨fun _ => .quiet (.refl k), fun _ => ?_⟩
  rw [wp_bind, wp_modify, sysYield]
  refine wp_mono schedYield_dispatch (fun _ _ hf => hf) ?_ (fun _ he => he)
  exact fun _ k' out => ⟨k, .quiet (.refl k), .wait call out⟩

theorem syscall_op (own : k.curenv c = some cur) (trapno : tf.trapno = tSyscall)
    {input a4 a5 : Word} :
    wp (syscall c cur input tf.regs.eax tf.regs.edx tf.regs.ecx tf.regs.ebx a4 a5)
      (fun _ k₁ => Op c tf cur k k₁) (Leaves c tf cur k) (fun _ => True) k := by
  rw [syscall]
  split <;> rename_i number
  · exact sysCputs_op own
  · exact (Quiet.pure _).op
  · exact sysGetenvid_quiet.op
  · exact sysEnvDestroy_op own ⟨trapno, number⟩
  · exact Leaves.dispatch (.quiet (.refl k)) schedYield_dispatch
  · exact sysExofork_op ⟨trapno, number⟩
  · exact sysEnvSetStatus_op ⟨trapno, number⟩
  · exact sysPageAlloc_quiet.op
  · exact sysPageMap_quiet.op
  · exact sysPageUnmap_quiet.op
  · exact sysEnvSetPgfaultUpcall_quiet.op
  · exact sysIpcTrySend_op ⟨trapno, number⟩
  · exact sysIpcRecv_op ⟨trapno, number⟩
  · exact (Quiet.pure _).op

theorem envDestroy_leaves {Q : Unit → Kernel → Prop} (own : k.curenv c = some cur) :
    wp (envDestroy c cur) Q (Leaves c tf cur k) (fun _ => True) k := by
  refine wp_mono (envDestroy_own own) (fun _ _ hf => hf) ?_ (fun _ he => he)
  rintro _ k' ⟨k₁, same, out⟩
  exact ⟨k, .quiet (.refl k), .exit same out⟩

theorem pageFaultHandler_op (own : k.curenv c = some cur) {tf₁ : Trapframe} {va : Word} :
    wp (pageFaultHandler c tf₁ va) (fun _ _ => False) (Leaves c tf cur k) (fun _ => True) k := by
  rw [pageFaultHandler, wp_bind, wp_get, wp_ite, wp_panic]
  refine ⟨fun _ => trivial, fun _ => ?_⟩
  rw [own]
  simp only [wp_ite]
  refine ⟨fun _ => ?_, fun _ => envDestroy_leaves own⟩
  rw [wp_bind]
  apply wp_imp (userMemAssert_op own)
  intro _ k₁ same₁
  rw [wp_bind, wp_get, wp_bind]
  apply wp_imp (wp_pmap_same _)
  intro _ k₂ same₂
  rw [wp_bind, wp_modify]
  have op : Op c tf cur k k₂ := .quiet (same₁.trans same₂)
  cases hd : (k₂.envs cur).pgdir with
  | none =>
      refine (wp_panic_eq (envRun_panic ?_)).mpr trivial
      rw [Kernel.setTf, Kernel.setEnv_envs_self]
      exact hd
  | some d =>
      refine (wp_exit_eq (envRun_run (d := d) ?_)).mpr ⟨k₂, op, .upcall _ hd⟩
      rw [Kernel.setTf, Kernel.setEnv_envs_self]
      exact hd

/-- A trap of `cur`, after its registers are saved. -/
theorem trapDispatch_op (own : k.curenv c = some cur) {cr2 input : Word} :
    wp (do trapDispatch c tf cr2 input; trapReturn c) (fun _ _ => False) (Leaves c tf cur k)
      (fun _ => True) k := by
  rw [wp_bind, trapDispatch, wp_bind, wp_get, own]
  simp only [wp_ite]
  have ret : ∀ k₁, k.Same k₁ → wp (trapReturn c) (fun _ _ => False) (Leaves c tf cur k)
      (fun _ => True) k₁ :=
    fun k₁ same => Leaves.dispatch (.quiet same) trapReturn_dispatch
  refine ⟨fun _ => wp_imp (pageFaultHandler_op own) fun _ _ hf => hf.elim, fun _ => ⟨fun _ => ?_,
    fun _ => ⟨fun trapno => ?_, fun _ => ⟨fun _ => ?_, fun _ => ⟨fun _ => ?_, fun _ => ⟨fun _ => ?_,
    fun _ => ?_⟩⟩⟩⟩⟩⟩
  · exact Leaves.dispatch (.quiet (.refl k)) monitor_dispatch
  · rw [wp_bind]
    apply wp_imp (syscall_op own trapno)
    intro r k₁ op
    rw [wp_modify]
    refine wp_mono trapReturn_dispatch (fun _ _ hf => hf) ?_ (fun _ he => he)
    exact fun _ k' out => ⟨k₁, op, .result r out⟩
  · rw [wp_pure]
    exact ret k (.refl k)
  · exact Leaves.dispatch (.quiet (.refl k)) schedYield_dispatch
  · rw [wp_panic]
    trivial
  · exact envDestroy_leaves own

/-- The registers are saved first. -/
theorem trapEnter_saves (own : k.curenv c = some cur) (alive : k.status cur ≠ .dying) :
    trapEnter c tf k = .ret () (k.setTf cur tf) := by
  rw [trapEnter, get_bind, own]
  dsimp only
  rw [if_neg alive]
  rfl

theorem trap_entry (own : k.curenv c = some cur) (ring : tf.cs &&& 3 = 3) {cr2 input : Word} :
    wp (trap c tf cr2 input) (fun _ _ => False) (fun _ k' => Entry c tf k k')
      (fun _ => True) k := by
  rw [trap, when_pos _ ring, trapEnter, wp_bind, wp_bind, wp_get, own]
  simp only [wp_ite]
  refine ⟨fun zombie => ?_, fun alive => ?_⟩
  · rw [wp_bind]
    apply wp_imp envFree_released
    intro _ k₁ same₁
    rw [if_pos own] at same₁
    rw [wp_bind, wp_modify]
    refine wp_mono (schedYield_dispatch (Q := fun _ _ => False)) (fun _ _ hf => hf.elim) ?_
      (fun _ he => he)
    exact fun _ k' out => .collect own zombie (same₁.setCurenv c none) out
  · rw [wp_modify]
    have own' : (k.setTf cur tf).curenv c = some cur := own
    refine wp_mono (trapDispatch_op own') (fun _ _ hf => hf) ?_ (fun _ he => he)
    rintro _ k' ⟨k₁, op, out⟩
    exact .act own alive op out

/-- A CPU without a current environment can only schedule, stop or panic. -/
theorem trap_idle (none : k.curenv c = none) (ring : tf.cs &&& 3 ≠ 3) {cr2 input : Word} :
    wp (trap c tf cr2 input) (fun _ _ => False) (fun _ k' => Dispatch c k k')
      (fun _ => True) k := by
  rw [trap, when_neg _ ring, wp_bind, wp_pure, wp_bind, trapDispatch, wp_bind, wp_get, none]
  simp only [wp_ite, wp_panic, implies_true, true_and, wp_pure]
  refine ⟨fun _ => ?_, fun _ => ⟨fun _ => monitor_dispatch, fun _ _ => ⟨fun _ => trapReturn_dispatch,
    fun _ => ⟨fun _ => schedYield_dispatch, trivial⟩⟩⟩⟩
  rw [pageFaultHandler, wp_bind, wp_get, none]
  simp only [wp_ite, wp_panic, implies_true, and_self]

end Code

/-- The registers with which the CPU enters the kernel. -/
def Event.frame : Event → Trapframe
  | .start _ => .zero
  | .trap _ tf _ _ => tf
  | .store _ _ _ => .zero

/-- A step of the machine is a store, or a kernel entry as listed above. -/
theorem Step.entry {k k' : Kernel} {ev : Event} (step : Step k ev k')
    (user : k.mode ev.cpu = .user → ∃ cur, k.curenv ev.cpu = some cur)
    (parked : k.mode ev.cpu = .starting ∨ k.mode ev.cpu = .halted → k.curenv ev.cpu = none) :
    k.Same k' ∨ k.Unlocked ∧ Entry ev.cpu ev.frame k k' := by
  cases step with
  | start mode lock run =>
      have out := (wp_exit_eq run).mp (schedYield_dispatch (Q := fun _ _ => False))
      exact .inr ⟨lock, .idle (parked (.inl mode)) out⟩
  | trap mode lock ring run =>
      obtain ⟨cur, own⟩ := user mode
      exact .inr ⟨lock, (wp_exit_eq run).mp (trap_entry own ring)⟩
  | wake mode lock ring run =>
      have none := parked (.inr mode)
      exact .inr ⟨lock, .idle none ((wp_exit_eq run).mp (trap_idle none (by rw [ring]; decide)))⟩
  | store mode walk user write => exact .inl (.phys _ _)

end Jos
