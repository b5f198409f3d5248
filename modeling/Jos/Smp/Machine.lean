import Jos.Boot.Init
import Jos.Kernel.Trap

/-!
# The processors and the big kernel lock (`kern/spinlock.c`)

Here a kernel entry is not one step: every processor has a program counter, and one
step of a processor is one access to shared memory that the lock is about, an atomic
`xchg` or a plain read or write. The order of the processors' steps is arbitrary. Only
the work that is done between taking the lock and giving it back is one step. Which way
out of the kernel it takes is left to the kernel's code.

Interrupts reach a processor in user mode and in the `hlt` loop of `sched_halt`. All
gates of the IDT clear `FL_IF`, so they do not reach it anywhere else.
-/

namespace Jos

open Prog

/-- `struct spinlock`, without what is recorded for debugging messages. -/
structure SpinLock where
  locked : Word
  cpu : Option Nat

/-- `kernel_lock` as the linker leaves it. -/
def SpinLock.init : SpinLock := ⟨0, none⟩

inductive CpuStatus where
  | unused
  | started
  | halted
  deriving DecidableEq, Repr

/-- What `trap` is called with, what is in `%cr2`, and what the console has to say. -/
structure Interrupt where
  tf : Trapframe
  cr2 : Word
  input : Word

/-- The work of one kernel entry. -/
inductive Work where
  /-- `ENV_CREATE` in `i386_init`. -/
  | create
  /-- The first `sched_yield` of a processor. -/
  | sched
  | trap (t : Interrupt)

/-- Who called `lock_kernel`. -/
inductive Caller where
  | i386Init
  | mpMain
  /-- The first call in `trap`. -/
  | trapHalted (t : Interrupt)
  /-- The second call in `trap`. -/
  | trapUser (t : Interrupt)

/-- Where a processor is in `spin_lock`. -/
inductive LockPc where
  | testLocked
  | testCpu
  | xchg
  | setCpu
  deriving DecidableEq, Repr

/-- Where a processor is in `spin_unlock`. -/
inductive UnlockPc where
  | testLocked
  | testCpu
  | clearCpu
  | xchg
  deriving DecidableEq, Repr

/-- Who called `unlock_kernel`. -/
inductive Exit where
  | envRun
  | schedHalt
  deriving DecidableEq, Repr

inductive Pc where
  /-- Not started yet. -/
  | off
  /-- `i386_init`, up to `mp_init`. -/
  | i386Init
  /-- `mp_main`, up to the store to `cpu_status`. -/
  | mpMain
  | spinLock (pc : LockPc) (caller : Caller)
  /-- In `boot_aps`, before processor `i` is started. -/
  | bootAps (i : Nat)
  /-- In `boot_aps`, waiting for processor `i`. -/
  | awaitAp (i : Nat)
  /-- `if (panicstr)` in `trap`. -/
  | trapPanicstr (t : Interrupt)
  /-- The `xchg` in `trap`. -/
  | trapStatus (t : Interrupt)
  /-- `if ((tf->tf_cs & 3) == 3)` in `trap`, after a first call of `lock_kernel` or without. -/
  | trapRing (t : Interrupt) (woken : Bool)
  | work (w : Work)
  /-- The `xchg` in `sched_halt`. -/
  | haltStatus
  | spinUnlock (pc : UnlockPc) (exit : Exit)
  | user
  | halted
  /-- In the monitor for good. -/
  | monitor
  /-- The `hlt` in `trap`, with interrupts off. -/
  | stopped (t : Interrupt)
  /-- After the last call in `i386_init`, `mp_main` or `trap`. -/
  | returned
  /-- `panic("CPU %d cannot acquire %s: already holding")`. -/
  | alreadyHolding
  /-- `panic("spin_unlock")`. -/
  | notHolding

/-- What follows the call of `lock_kernel`. -/
def Caller.next : Caller → Pc
  | .i386Init => .bootAps 0
  | .mpMain => .work .sched
  | .trapHalted t => .trapRing t true
  | .trapUser t => .work (.trap t)

/-- What follows the call of `unlock_kernel`. -/
def Exit.next : Exit → Pc
  | .envRun => .user
  | .schedHalt => .halted

structure Smp where
  lock : SpinLock
  status : Nat → CpuStatus
  pc : Nat → Pc
  panicstr : Bool
  kernel : Kernel

/-- What `mp_init` finds, and the programs to run. -/
structure Smp.Config where
  ncpu : Nat
  bootcpu : Nat
  /-- Without an MP configuration table `mp_init` returns early. -/
  mpconfig : Bool
  binaries : List Binary

/-- What happens to a processor in user mode or in the `hlt` loop. -/
inductive Signal where
  | none
  | store (va : Word) (b : Byte)
  | interrupt (t : Interrupt)

namespace Smp

/-- The state in which the boot processor has cleared the BSS. What `mem_init` and
`env_init` leave is in `k`. -/
def start (m : Config) (k : Kernel) : Smp where
  lock := .init
  status _ := .unused
  pc c := if c = m.bootcpu then .i386Init else .off
  panicstr := false
  kernel := k

section Step

variable (s : Smp) (c : Nat)

def goto (pc : Pc) : Smp := { s with pc := Function.update s.pc c pc }

@[simp] theorem goto_self (pc : Pc) : (s.goto c pc).pc c = pc := Function.update_self _ _ _

theorem goto_of_ne {c c' : Nat} (pc : Pc) (h : c' ≠ c) : (s.goto c pc).pc c' = s.pc c' :=
  Function.update_of_ne h _ _

def setCpuStatus (status : CpuStatus) : Smp :=
  { s with status := Function.update s.status c status }

/-- `panic`, on a processor that then stays at `pc`. -/
def panicAt (pc : Pc) : Smp := { s.goto c pc with panicstr := true }

/-- One step of `spin_lock`. -/
def spinLock (caller : Caller) : LockPc → Smp
  | .testLocked =>
      if s.lock.locked ≠ 0 then s.goto c (.spinLock .testCpu caller)
      else s.goto c (.spinLock .xchg caller)
  | .testCpu =>
      if s.lock.cpu = some c then s.panicAt c .alreadyHolding
      else s.goto c (.spinLock .xchg caller)
  | .xchg =>
      let t := { s with lock := { s.lock with locked := 1 } }
      if s.lock.locked ≠ 0 then t else t.goto c (.spinLock .setCpu caller)
  | .setCpu => { s with lock := { s.lock with cpu := some c } }.goto c caller.next

/-- One step of `spin_unlock`. -/
def spinUnlock (exit : Exit) : UnlockPc → Smp
  | .testLocked =>
      if s.lock.locked ≠ 0 then s.goto c (.spinUnlock .testCpu exit)
      else s.panicAt c .notHolding
  | .testCpu =>
      if s.lock.cpu = some c then s.goto c (.spinUnlock .clearCpu exit)
      else s.panicAt c .notHolding
  | .clearCpu => { s with lock := { s.lock with cpu := none } }.goto c (.spinUnlock .xchg exit)
  | .xchg => { s with lock := { s.lock with locked := 0 } }.goto c exit.next

/-- How code of the kernel ends: in `env_run`, in `sched_halt` or in the monitor. -/
def leave : Outcome Kernel Unit Panic Unit → Smp
  | .ret _ k => { s with kernel := k }.goto c .returned
  | .exit _ k =>
      { s with kernel := k }.goto c
        (match k.mode c with
        | .user => .spinUnlock .testLocked .envRun
        | .halted => .haltStatus
        | .monitor => .monitor
        | .unused | .starting => .returned)
  | .panic _ => s.panicAt c .monitor

def work (binaries : List Binary) : Work → Smp
  | .create =>
      match envCreates binaries s.kernel with
      | .ret _ k => { s with kernel := k }.goto c (.work .sched)
      | .exit r k => s.leave c (.exit r k)
      | .panic e => s.leave c (.panic e)
  | .sched => s.leave c ((schedYield c : KM Unit) s.kernel)
  | .trap t => s.leave c (trap c t.tf t.cr2 t.input s.kernel)

/-- An environment stores a byte, if its page tables let it. -/
def userStore (va : Word) (b : Byte) : Smp :=
  match s.kernel.phys.translate (s.kernel.cpus c).cr3 va with
  | some (pde, pte) =>
      if (pde &&& pteU ≠ 0 ∧ pte &&& pteU ≠ 0) ∧ pde &&& pteW ≠ 0 ∧ pte &&& pteW ≠ 0 then
        { s with kernel.phys := s.kernel.phys.setByte (pgnum pte) (pgoff va) b }
      else s
  | none => s

/-- One step of processor `c`. -/
def step (m : Config) (signal : Signal) : Smp :=
  match s.pc c with
  | .off | .monitor | .stopped _ | .returned | .alreadyHolding | .notHolding => s
  | .i386Init =>
      let t := if m.mpconfig then s.setCpuStatus c .started else s
      t.goto c (.spinLock .testLocked .i386Init)
  | .mpMain => (s.setCpuStatus c .started).goto c (.spinLock .testLocked .mpMain)
  | .spinLock pc caller => s.spinLock c caller pc
  | .bootAps i =>
      if i < m.ncpu then
        if i = c then s.goto c (.bootAps (i + 1))
        else (s.goto i .mpMain).goto c (.awaitAp i)
      else s.goto c (.work .create)
  | .awaitAp i => if s.status i = .started then s.goto c (.bootAps (i + 1)) else s
  | .trapPanicstr t => if s.panicstr then s.goto c (.stopped t) else s.goto c (.trapStatus t)
  | .trapStatus t =>
      let t' := s.setCpuStatus c .started
      if s.status c = .halted then t'.goto c (.spinLock .testLocked (.trapHalted t))
      else t'.goto c (.trapRing t false)
  | .trapRing t _ =>
      if t.tf.cs &&& 3 = 3 then s.goto c (.spinLock .testLocked (.trapUser t))
      else s.goto c (.work (.trap t))
  | .work w => s.work c m.binaries w
  | .haltStatus => (s.setCpuStatus c .halted).goto c (.spinUnlock .testLocked .schedHalt)
  | .spinUnlock pc exit => s.spinUnlock c exit pc
  | .user =>
      match signal with
      | .none => s
      | .store va b => s.userStore c va b
      | .interrupt t => if t.tf.cs &&& 3 = 3 then s.goto c (.trapPanicstr t) else s
  | .halted =>
      match signal with
      | .interrupt t => if t.tf.cs = gdKt then s.goto c (.trapPanicstr t) else s
      | _ => s

end Step

/-- The processors take steps in some order. -/
def run (m : Config) (s : Smp) (steps : List (Nat × Signal)) : Smp :=
  steps.foldl (fun s step => s.step step.1 m step.2) s

end Smp

/-- The processor has taken the kernel lock and not given it back. -/
def Pc.inside : Pc → Bool
  | .spinLock pc _ => pc = .setCpu
  | .bootAps _ | .awaitAp _ | .work _ | .haltStatus | .spinUnlock _ _ | .monitor | .returned => true
  | .trapRing _ woken => woken
  | .off | .i386Init | .mpMain | .trapPanicstr _ | .trapStatus _ | .user | .halted | .stopped _
  | .alreadyHolding | .notHolding => false

end Jos
