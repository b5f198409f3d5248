import Jos.Kernel.Syscall

/-!
# Traps and the machine's steps (`kern/trap.c`)

`trap` is one kernel entry, from taking the big kernel lock to leaving the
kernel; it always ends in an `exit` or a panic. `Step` is one step of the whole
machine: a CPU enters the scheduler for the first time, takes a trap in user
mode or while halted, or executes a user-mode store of one byte. Stores go
through the page directory in `%cr3`, with the permissions that the x86 walk
gives. After a panic there is no further step.
-/

namespace Jos

open Prog

def tBrkpt : Word := 3
def tPgflt : Word := 14
def tSyscall : Word := 48
def irqTimer : Word := 32
def irqSpurious : Word := 39

/-- The four bytes of a word, in memory order. -/
def wordBytes (w : Word) : List Byte :=
  [w.extractLsb' 0 8, w.extractLsb' 8 8, w.extractLsb' 16 8, w.extractLsb' 24 8]

/-- The bytes of the `struct UTrapframe` that `page_fault_handler` pushes. Its
error field is filled from `tf_trapno`. -/
def utrapframe (tf : Trapframe) (faultVa : Word) : List Byte :=
  [faultVa, tf.trapno, tf.regs.edi, tf.regs.esi, tf.regs.ebp, tf.regs.oesp, tf.regs.ebx,
    tf.regs.edx, tf.regs.ecx, tf.regs.eax, tf.eip, tf.eflags, tf.esp].flatMap wordBytes

/-- `sizeof(struct UTrapframe)`. -/
def utrapframeSize : Word := 52

/-- Where the fault record goes: below the interrupted frame when the fault
happened on the exception stack, else at its top. -/
def utrapframeAddr (esp : Word) : Word :=
  if esp ≥ uxstacktop - 4096 ∧ esp < uxstacktop then esp - (utrapframeSize + 4)
  else uxstacktop - utrapframeSize

def pageFaultHandler (c : Nat) (tf : Trapframe) (faultVa : Word) : KM Unit := do
  let k ← get
  if tf.cs &&& 3 = 0 then panic .kernelFault
  else
    match k.curenv c with
    | none => panic .assertion
    | some e =>
        if (k.envs e).pgfaultUpcall ≠ 0 then do
          let utf := utrapframeAddr tf.esp
          userMemAssert c e utf utrapframeSize (pteU ||| pteW ||| pteP)
          let k ← get
          pmap (kernelStores (k.cpus c).cr3 utf (utrapframe tf faultVa))
          modify fun k =>
            k.setTf e { (k.envs e).tf with eip := (k.envs e).pgfaultUpcall, esp := utf }
          envRun c e
        else envDestroy c e

def trapDispatch (c : Nat) (tf : Trapframe) (cr2 input : Word) : KM Unit := do
  let k ← get
  if tf.trapno = tPgflt then pageFaultHandler c tf cr2
  else if tf.trapno = tBrkpt then monitor c
  else if tf.trapno = tSyscall then
    match k.curenv c with
    | none => panic .assertion
    | some e => do
        let r ← syscall c e input tf.regs.eax tf.regs.edx tf.regs.ecx tf.regs.ebx tf.regs.edi
          tf.regs.esi
        modify fun k => k.setTf e ((k.envs e).tf.setEax r)
  else if tf.trapno = irqSpurious then pure ()
  else if tf.trapno = irqTimer then schedYield c
  else if tf.cs = gdKt then panic .unhandledTrap
  else
    match k.curenv c with
    | none => panic .assertion
    | some e => envDestroy c e

/-- Last part of `trap`: resume the current environment if it still runs. -/
def trapReturn (c : Nat) : KM Unit := do
  let k ← get
  match k.curenv c with
  | some e => if k.status e = .running then envRun c e else schedYield c
  | none => schedYield c

/-- First part of `trap` from user mode: collect a zombie, save the registers. -/
def trapEnter (c : Nat) (tf : Trapframe) : KM Unit := do
  let k ← get
  match k.curenv c with
  | none => panic .assertion
  | some e =>
      if k.status e = .dying then do
        envFree c e
        modify fun k => k.setCurenv c none
        schedYield c
      else modify fun k => k.setTf e tf

def trap (c : Nat) (tf : Trapframe) (cr2 input : Word) : KM Unit := do
  when (tf.cs &&& 3 = 3) (trapEnter c tf)
  trapDispatch c tf cr2 input
  trapReturn c

/-- What can happen next on the machine. -/
inductive Event where
  | start (c : Nat)
  | trap (c : Nat) (tf : Trapframe) (cr2 input : Word)
  | store (c : Nat) (va : Word) (b : Byte)

/-- The CPU that takes the step. -/
def Event.cpu : Event → Nat
  | .start c => c
  | .trap c _ _ _ => c
  | .store c _ _ => c

/-- One step of the machine. -/
inductive Step : Kernel → Event → Kernel → Prop
  | start {k k' : Kernel} {c : Nat} (mode : k.mode c = .starting) (lock : k.Unlocked)
      (run : (schedYield c : KM Unit) k = .exit () k') : Step k (.start c) k'
  /-- A trap from user mode. -/
  | trap {k k' : Kernel} {c : Nat} {tf : Trapframe} {cr2 input : Word}
      (mode : k.mode c = .user) (lock : k.Unlocked) (ring : tf.cs &&& 3 = 3)
      (run : trap c tf cr2 input k = .exit () k') : Step k (.trap c tf cr2 input) k'
  /-- An interrupt that wakes a halted CPU. -/
  | wake {k k' : Kernel} {c : Nat} {tf : Trapframe} {cr2 input : Word}
      (mode : k.mode c = .halted) (lock : k.Unlocked) (ring : tf.cs = gdKt)
      (run : Jos.trap c tf cr2 input k = .exit () k') : Step k (.trap c tf cr2 input) k'
  | store {k : Kernel} {c : Nat} {va pde pte : Word} {b : Byte} (mode : k.mode c = .user)
      (walk : k.phys.translate (k.cpus c).cr3 va = some (pde, pte))
      (user : pde &&& pteU ≠ 0 ∧ pte &&& pteU ≠ 0)
      (write : pde &&& pteW ≠ 0 ∧ pte &&& pteW ≠ 0) :
      Step k (.store c va b) { k with phys := k.phys.setByte (pgnum pte) (pgoff va) b }

end Jos
