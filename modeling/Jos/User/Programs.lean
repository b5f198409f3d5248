import Jos.Base.Actors
import Jos.Safety.Exchange
import Jos.Sched.Forking

/-!
# Programs on the kernel

User programs that call `fork`, `ipc_send`, `ipc_recv`, `cprintf` and `exit`, on any number of
CPUs. Each step is one of the machine: user code between two system calls, a system call with its
arguments in the registers, an interrupt, a page fault or a store. The programs that run in the
environments, and how far they have come, are kept beside the state of the kernel.

No two programs get the same id, as they might after 2^19 uses of a slot, and the slot of a program
that was destroyed before its end is not used again.
-/

namespace Jos

/-- How far a program has come. The state is that of its next action. -/
inductive Place (S : Type) where
  | running (s : S)
  /-- In `fork`, which has got a child in the slot `child` from `sys_exofork`. -/
  | forking (child : EnvIdx) (s : S)
  /-- The child of a `fork` that goes on in the parent. -/
  | embryo (s : S)
  /-- After `exit`, or a `panic` in `fork`. -/
  | stopped (s : S)

namespace Place

variable {S : Type}

def state : Place S → S
  | running s => s
  | forking _ s => s
  | embryo s => s
  | stopped s => s

/-- The parent has made the child runnable. -/
def started : Place S → Place S
  | embryo s => running s
  | p => p

/-- No program, or one that has ended. -/
def Quiet (o : Option (Place S)) : Prop := o = none ∨ ∃ s, o = some (.stopped s)

theorem not_quiet {s : S} : ¬ Quiet (some (.running s)) := by simp [Quiet]

end Place

/-- The machine, the programs of the environments, and the lines that they have printed. -/
structure Stage (S O : Type) where
  world : World
  place : EnvIdx → Option (Place S)
  output : List (Word × O)
  /-- The programs whose slots have been used again, by their ids. -/
  gone : Word → Option S
  /-- The programs of which a call about pages has failed, after which `fork` and `pgfault` panic. -/
  failed : EnvIdx → Prop

namespace Stage

variable {S O : Type}

abbrev kernel (w : Stage S O) : Kernel := w.world.kernel

/-- `e` has come to `p`. -/
def setPlace (w : Stage S O) (e : EnvIdx) (p : Place S) : Stage S O :=
  { w with place := Function.update w.place e (some p) }

/-- The kernel has been left, by a CPU that goes on with user code or idles. -/
def enter (w : Stage S O) (c : Nat) (k : Kernel) : Stage S O := { w with world := w.world.enter c k }

/-- A call about pages by `e` has the result `r`. -/
def result (w : Stage S O) (e : EnvIdx) (r : Word) : Stage S O :=
  { w with failed := Function.update w.failed e (w.failed e ∨ r.slt 0 = true) }

/-- The program with the id `i`, also after its end. -/
def state (w : Stage S O) (i : Word) : Option S :=
  if (w.kernel.envs (envx i)).id = i then (w.place (envx i)).map Place.state else w.gone i

/-- The slot `e` is about to be used again. -/
def retire (w : Stage S O) (e : EnvIdx) : Stage S O :=
  { w with
    failed := Function.update w.failed e False
    gone := match w.place e with
      | none => w.gone
      | some p => Function.update w.gone (w.kernel.envs e).id (some p.state) }

@[simp] theorem setPlace_place_self (w : Stage S O) (e : EnvIdx) (p : Place S) :
    (w.setPlace e p).place e = some p := Function.update_self e _ _

theorem setPlace_place_of_ne (w : Stage S O) {e e' : EnvIdx} (p : Place S) (h : e' ≠ e) :
    (w.setPlace e p).place e' = w.place e' := Function.update_of_ne h _ _

@[simp] theorem setPlace_world (w : Stage S O) (e : EnvIdx) (p : Place S) :
    (w.setPlace e p).world = w.world := rfl

@[simp] theorem setPlace_output (w : Stage S O) (e : EnvIdx) (p : Place S) :
    (w.setPlace e p).output = w.output := rfl

@[simp] theorem retire_place (w : Stage S O) (e : EnvIdx) : (w.retire e).place = w.place := rfl

theorem retire_gone_none {w : Stage S O} {e : EnvIdx} (h : w.place e = none) :
    (w.retire e).gone = w.gone := by
  rw [retire, h]

theorem retire_gone_some {w : Stage S O} {e : EnvIdx} {p : Place S} (h : w.place e = some p) :
    (w.retire e).gone = Function.update w.gone (w.kernel.envs e).id (some p.state) := by
  rw [retire, h]

@[simp] theorem enter_world (w : Stage S O) (c : Nat) (k : Kernel) :
    (w.enter c k).world = w.world.enter c k := rfl

@[simp] theorem enter_place (w : Stage S O) (c : Nat) (k : Kernel) :
    (w.enter c k).place = w.place := rfl

@[simp] theorem enter_output (w : Stage S O) (c : Nat) (k : Kernel) :
    (w.enter c k).output = w.output := rfl

/-- The program in the slot `e` of the kernel is about to start. -/
def fresh (k : Kernel) (e : EnvIdx) (s : S) : Stage S O :=
  ⟨.fresh k, Function.update (fun _ => none) e (some (.running s)), [], fun _ => none, fun _ => False⟩

@[simp] theorem fresh_place_self (k : Kernel) (e : EnvIdx) (s : S) :
    (fresh k e s : Stage S O).place e = some (.running s) := by
  simp [fresh]

theorem fresh_place_of_ne (k : Kernel) {e e' : EnvIdx} (s : S) (h : e' ≠ e) :
    (fresh k e s : Stage S O).place e' = none := by
  simp [fresh, Function.update_of_ne h]

end Stage

/-- The programs can call for memory at any time, in `fork` as well as after a page fault. -/
def memoryCalls : List SysCall :=
  [.pageAlloc, .pageMap, .pageUnmap, .envSetPgfaultUpcall, .getenvid]

section Play

variable {S O : Type} (act : S → Actors.Action Word Word O S)

/-- One step of a program or of the machine, as long as the programs do what `act` says. -/
inductive Play : Stage S O → Stage S O → Prop
  /-- The call of `ipc_send`. -/
  | begin {w : Stage S O} {c : Nat} {e : EnvIdx} {s next : S} {dest value : Word}
      (runs : w.kernel.RunsOn c e) (place : w.place e = some (.running s))
      (outside : w.world.phase e = .outside) (sends : act s = .send dest value next) :
      Play w { w with world := w.world.setPhase e (.sending dest value 0) }
  /-- User code of `ipc_send` or `ipc_recv`. -/
  | goOn {w : Stage S O} {c : Nat} {e : EnvIdx} {φ : Phase} (runs : w.kernel.RunsOn c e)
      (inside : w.world.phase e ≠ .outside)
      (computes : Phase.Computes (w.kernel.inbox e) (w.world.phase e) φ []) :
      Play w { w with world := w.world.setPhase e φ }
  /-- `ipc_recv` returns. -/
  | receive {w : Stage S O} {c : Nat} {e : EnvIdx} {s : S} {f : Word → Word → S} {φ : Phase}
      {value src : Word} (runs : w.kernel.RunsOn c e)
      (place : w.place e = some (.running s)) (waits : act s = .receive f)
      (computes : Phase.Computes (w.kernel.inbox e) (w.world.phase e) φ [(value, src)]) :
      Play w (Stage.setPlace { w with world := { w.world.setPhase e φ with
        received := Function.update w.world.received e (w.world.received e ++ [(value, src)]) } }
        e (.running (f value src)))
  /-- `sys_ipc_recv`. -/
  | recv {w : Stage S O} {c : Nat} {e : EnvIdx} {s : S} {f : Word → Word → S} {tf : Trapframe}
      {cr2 input : Word} {k' : Kernel} (runs : w.kernel.RunsOn c e)
      (place : w.place e = some (.running s)) (outside : w.world.phase e = .outside)
      (waits : act s = .receive f) (calls : tf.Calls .ipcRecv) (dstva : tf.regs.edx = recvArg 0)
      (step : Step w.kernel (.trap c tf cr2 input) k') :
      Play w { w with world := (w.world.setPhase e (.asked .recv)).enter c k' }
  /-- `sys_ipc_try_send`. Unless it fails, `ipc_send` returns. -/
  | trySend {w : Stage S O} {c : Nat} {e : EnvIdx} {s next : S} {tf : Trapframe}
      {cr2 input : Word} {k' : Kernel} (runs : w.kernel.RunsOn c e)
      (place : w.place e = some (.running s))
      (sending : w.world.phase e = .sending tf.regs.edx tf.regs.ecx tf.regs.edi)
      (sends : act s = .send tf.regs.edx tf.regs.ecx next) (calls : tf.Calls .ipcTrySend)
      (srcva : tf.regs.ebx = sendArg 0) (step : Step w.kernel (.trap c tf cr2 input) k') :
      Play w (Stage.setPlace { w with world := (w.world.setPhase e
          (.asked (.trySend tf.regs.edx tf.regs.ecx tf.regs.edi))).enter c k' }
        e (.running (if (k'.envs e).tf.regs.eax.slt 0 then s else next)))
  /-- `sys_yield` in the loop of `ipc_send`. -/
  | retry {w : Stage S O} {c : Nat} {e : EnvIdx} {dest value perm : Word} {tf : Trapframe}
      {cr2 input : Word} {k' : Kernel} (runs : w.kernel.RunsOn c e)
      (failed : w.world.phase e = .answered (.trySend dest value perm) (-eIpcNotRecv))
      (calls : tf.Calls .yield) (step : Step w.kernel (.trap c tf cr2 input) k') :
      Play w { w with world := (w.world.setPhase e (.asked (.retry dest value perm))).enter c k' }
  /-- `sys_cputs`, if it returns. -/
  | print {w : Stage S O} {c : Nat} {e : EnvIdx} {s next : S} {line : O} {tf : Trapframe}
      {cr2 input : Word} {k' : Kernel} (runs : w.kernel.RunsOn c e)
      (place : w.place e = some (.running s)) (outside : w.world.phase e = .outside)
      (prints : act s = .print line next) (calls : tf.Calls .cputs)
      (step : Step w.kernel (.trap c tf cr2 input) k') (returns : k'.RunsOn c e) :
      Play w { (w.enter c k').setPlace e (.running next) with
        output := w.output ++ [((w.kernel.envs e).id, line)] }
  /-- `sys_cputs` of a `panic`, or of a program that is destroyed for it. -/
  | mutter {w : Stage S O} {c : Nat} {e : EnvIdx} {tf : Trapframe} {cr2 input : Word}
      {k' : Kernel} (runs : w.kernel.RunsOn c e) (calls : tf.Calls .cputs)
      (step : Step w.kernel (.trap c tf cr2 input) k')
      (why : w.world.phase e = .panicked ∨ (∃ s, w.place e = some (.stopped s)) ∨ w.failed e ∨
        ¬ k'.RunsOn c e) : Play w (w.enter c k')
  /-- A system call about pages. -/
  | memory {w : Stage S O} {c : Nat} {e : EnvIdx} {tf : Trapframe} {call : SysCall}
      {cr2 input : Word} {k' : Kernel} (runs : w.kernel.RunsOn c e) (calls : tf.Calls call)
      (kind : call ∈ memoryCalls) (step : Step w.kernel (.trap c tf cr2 input) k') :
      Play w ((w.enter c k').result e (k'.envs e).tf.regs.eax)
  /-- `sys_exofork` has made a child. -/
  | fork {w : Stage S O} {c : Nat} {e : EnvIdx} {s child : S} {f : Word → S} {tf : Trapframe}
      {cr2 input r : Word} {k' : Kernel} (runs : w.kernel.RunsOn c e)
      (place : w.place e = some (.running s)) (outside : w.world.phase e = .outside)
      (spawns : act s = .spawn child f) (calls : tf.Calls .exofork)
      (quiet : ∀ child, w.kernel.envFreeList = some child → Place.Quiet (w.place child))
      (step : Step w.kernel (.trap c tf cr2 input) k') (answer : (k'.envs e).tf.regs.eax = r)
      (made : r.slt 0 = false) (new : w.state r = none) :
      Play w ((((w.retire (envx r)).enter c k').setPlace e (.forking (envx r) (f r))).setPlace
        (envx r) (.embryo child))
  /-- `sys_exofork` has failed, and so does `fork`. -/
  | noFork {w : Stage S O} {c : Nat} {e : EnvIdx} {s child : S} {f : Word → S} {tf : Trapframe}
      {cr2 input : Word} {k' : Kernel} (runs : w.kernel.RunsOn c e)
      (place : w.place e = some (.running s)) (outside : w.world.phase e = .outside)
      (spawns : act s = .spawn child f) (calls : tf.Calls .exofork)
      (quiet : ∀ child, w.kernel.envFreeList = some child → Place.Quiet (w.place child))
      (step : Step w.kernel (.trap c tf cr2 input) k')
      (failed : (k'.envs e).tf.regs.eax.slt 0 = true) :
      Play w ((w.enter c k').setPlace e (.stopped s))
  /-- `sys_env_set_status` at the end of `fork`. -/
  | start {w : Stage S O} {c : Nat} {e child : EnvIdx} {s : S} {p : Place S} {tf : Trapframe}
      {cr2 input : Word} {k' : Kernel} (runs : w.kernel.RunsOn c e)
      (place : w.place e = some (.forking child s)) (embryo : w.place child = some p)
      (outside : w.world.phase e = .outside) (calls : tf.Calls .envSetStatus)
      (target : tf.regs.edx = (w.kernel.envs child).id) (status : tf.regs.ecx = 2)
      (step : Step w.kernel (.trap c tf cr2 input) k') :
      Play w (((w.enter c k').setPlace child p.started).setPlace e
        (if (k'.envs e).tf.regs.eax.slt 0 then .stopped s else .running s))
  /-- `exit`. -/
  | exit {w : Stage S O} {c : Nat} {e : EnvIdx} {s : S} {tf : Trapframe}
      {cr2 input : Word} {k' : Kernel} (runs : w.kernel.RunsOn c e)
      (place : w.place e = some (.running s)) (outside : w.world.phase e = .outside)
      (stops : act s = .stop) (calls : tf.Calls .envDestroy) (self : tf.regs.edx = 0)
      (step : Step w.kernel (.trap c tf cr2 input) k') :
      Play w ((w.enter c k').setPlace e (.stopped s))
  /-- An interrupt, a fault, a store, or a CPU that wakes up. -/
  | other {w : Stage S O} {ev : Event} {k' : Kernel} (trapno : ev.frame.trapno ≠ tSyscall)
      (step : Step w.kernel ev k') : Play w (w.enter ev.cpu k')

end Play

/-! ### Going on -/

namespace World

variable {w : World} {k' : Kernel} {c : Nat} {e : EnvIdx} {ev : Event}

@[simp] theorem enter_kernel : (w.enter c k').kernel = k' := by
  by_cases hasked : ∃ e req, k'.RunsOn c e ∧ w.phase e = .asked req
  · obtain ⟨e, req, runs, heq⟩ := hasked
    rw [enter_asked runs heq]
  · rw [enter_of_not_asked fun e runs req heq => hasked ⟨e, req, runs, heq⟩]

@[simp] theorem enter_received : (w.enter c k').received = w.received := by
  by_cases hasked : ∃ e req, k'.RunsOn c e ∧ w.phase e = .asked req
  · obtain ⟨e, req, runs, heq⟩ := hasked
    rw [enter_asked runs heq]
  · rw [enter_of_not_asked fun e runs req heq => hasked ⟨e, req, runs, heq⟩]

/-- Messages come from `sys_ipc_try_send`, which does not block. -/
theorem enter_log (h : ∀ e dest value perm, w.phase e ≠ .asked (.trySend dest value perm)) :
    (w.enter c k').log = w.log := by
  by_cases hasked : ∃ e req, k'.RunsOn c e ∧ w.phase e = .asked req
  · obtain ⟨e, req, runs, heq⟩ := hasked
    rw [enter_asked runs heq]
    cases req with
    | trySend dest value perm => exact absurd heq (h e dest value perm)
    | retry dest value perm => exact List.append_nil _
    | yield => exact List.append_nil _
    | recv => exact List.append_nil _
  · rw [enter_of_not_asked fun e runs req heq => hasked ⟨e, req, runs, heq⟩]

theorem enter_phase_cases (e : EnvIdx) : (w.enter c k').phase e = w.phase e ∨
    ∃ req r, w.phase e = .asked req ∧ (w.enter c k').phase e = .answered req r := by
  by_cases hasked : ∃ req, k'.RunsOn c e ∧ w.phase e = .asked req
  · obtain ⟨req, runs, heq⟩ := hasked
    refine .inr ⟨req, (k'.envs e).tf.regs.eax, heq, ?_⟩
    rw [enter_asked runs heq]
    exact Function.update_self e _ _
  · refine .inl ?_
    by_cases hother : ∃ e' req, k'.RunsOn c e' ∧ w.phase e' = .asked req
    · obtain ⟨e', req, runs, heq⟩ := hother
      rw [enter_asked runs heq]
      refine Function.update_of_ne ?_ _ _
      rintro rfl
      exact hasked ⟨req, runs, heq⟩
    · rw [enter_of_not_asked fun e' runs req heq => hother ⟨e', req, runs, heq⟩]

namespace Inv

/-- A step that leaves the messages alone, and the registers of those who wait for one. -/
theorem enters (h : w.Inv none) (step : Step w.kernel ev k')
    (safe : SafeEntry Trapping w.kernel ev.cpu ev.frame)
    (clears : ClearsFlag w.kernel ev.cpu ev.frame) (alive : ∀ e, k'.status e ≠ .dying)
    (inbox : k'.inbox = w.kernel.inbox)
    (regs : ∀ e, w.phase e = .asked .recv → (k'.envs e).tf = (w.kernel.envs e).tf) :
    (w.enter ev.cpu k').Inv none := by
  refine leave (h.step_of_safe safe clears alive step (fun _ _ => rfl) fun e => ?_)
  rw [inbox]
  by_cases hφ : w.phase e = .asked .recv
  · rw [regs e hφ]
    exact h.faithful e
  · exact (h.faithful e).setEax hφ

/-- An environment that a CPU executes. -/
theorem executes (h : w.Inv none) (runs : w.kernel.RunsOn c e) (lock : w.kernel.Unlocked) :
    ∃ d, w.kernel.Executes c e d := by
  obtain ⟨e', own, -, hpgdir⟩ := h.exclusive.user c (by simp) runs.1
  obtain rfl : e = e' := Option.some.inj (runs.2.symm.trans own)
  refine ⟨(w.kernel.cpus c).cr3, lock, ?_, (h.running runs).1, hpgdir⟩
  obtain ⟨hmode, hown⟩ := runs
  rw [Kernel.mode] at hmode
  rw [Kernel.curenv] at hown
  rw [← hmode, ← hown]

/-- System calls without a meaning for others. -/
theorem calls (h : w.Inv none) {tf : Trapframe} {call : SysCall} {cr2 input : Word}
    (runs : w.kernel.RunsOn c e) (calls : tf.Calls call) (kind : call ∈ .cputs :: memoryCalls)
    (step : Step w.kernel (.trap c tf cr2 input) k') : (w.enter c k').Inv none := by
  have hne : ∀ other, other ∉ SysCall.cputs :: memoryCalls → ¬ tf.Calls other :=
    fun other hmem calls' => hmem (calls'.unique calls ▸ kind)
  have hfork := hne .exofork (by decide)
  have hsend := hne .ipcTrySend (by decide)
  have hdestroy := hne .envDestroy (by decide)
  refine h.enters step
    ⟨fun _ _ _ _ hc => absurd hc (hne _ (by decide)), fun _ _ _ hc => absurd hc hdestroy,
      fun _ _ _ hc => absurd hc hsend⟩
    ⟨fun _ _ _ hc => absurd hc (hne _ (by decide)), fun _ _ _ hc => absurd hc hfork⟩ ?_
    (h.quiet step hsend (hne _ (by decide))) fun e' hφ => ?_
  · rcases h.exclusive.step_cases step with same | ⟨-, entry⟩
    · exact same.noZombie h.alive
    · exact entry.noZombie hdestroy h.alive
  · rcases h.exclusive.step_cases step with same | ⟨-, entry⟩
    · exact (same.envs e').tf
    · refine entry.tf_eq hfork hsend fun own => ?_
      obtain rfl := Option.some.inj (own.symm.trans runs.2)
      exact h.active c e' (by simp) runs .recv hφ

end Inv

end World

end Jos
