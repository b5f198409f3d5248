import Jos.Pmap.Basic

/-!
# Environments, CPUs and the kernel state

`struct Env` of `inc/env.h`, `struct Trapframe` of `inc/trap.h` and the per-CPU
part of `kern/cpu.h`. The `envs[]` array has `NENV` slots; a `struct Env *` is a
slot, null is `none`. There may be any number of CPUs: those that do not exist
are never started. Every kernel entry runs under the big kernel lock, so between
two entries a CPU is not in the kernel at all, except one that sits in the
monitor and holds the lock for good.
-/

namespace Jos

open Prog

abbrev nenv : Nat := 1024

/-- A slot of `envs[]`. -/
abbrev EnvIdx := Fin nenv

/-- `struct PushRegs`: the registers pushed by `pusha`. -/
structure PushRegs where
  edi : Word
  esi : Word
  ebp : Word
  oesp : Word
  ebx : Word
  edx : Word
  ecx : Word
  eax : Word
  deriving DecidableEq, Repr

/-- `struct Trapframe`, without its padding. -/
structure Trapframe where
  regs : PushRegs
  es : BitVec 16
  ds : BitVec 16
  trapno : Word
  err : Word
  eip : Word
  cs : BitVec 16
  eflags : Word
  esp : Word
  ss : BitVec 16
  deriving DecidableEq, Repr

/-- The all-zero trap frame that `memset` leaves. -/
def Trapframe.zero : Trapframe :=
  ⟨⟨0, 0, 0, 0, 0, 0, 0, 0⟩, 0, 0, 0, 0, 0, 0, 0, 0, 0⟩

/-- `%eax` carries the system call number in and the result out. -/
def Trapframe.setEax (tf : Trapframe) (v : Word) : Trapframe :=
  { tf with regs := { tf.regs with eax := v } }

inductive EnvStatus where
  | free
  | dying
  | runnable
  | running
  | notRunnable
  deriving DecidableEq, Repr

inductive EnvType where
  | user
  deriving DecidableEq, Repr

/-- `struct Env`. `pgdir` is the frame of the page directory. -/
structure Env where
  tf : Trapframe
  link : Option EnvIdx
  id : Word
  parentId : Word
  type : EnvType
  status : EnvStatus
  runs : Word
  cpunum : Nat
  pgdir : Option Nat
  pgfaultUpcall : Word
  ipcRecving : Bool
  ipcDstva : Word
  ipcValue : Word
  ipcFrom : Word
  ipcPerm : Word

/-- What a CPU is doing between two kernel entries. -/
inductive CpuMode where
  | unused
  /-- About to call `sched_yield` for the first time. -/
  | starting
  | user
  | halted
  /-- In the kernel monitor, with the kernel lock held. -/
  | monitor
  deriving DecidableEq, Repr

/-- `struct CpuInfo`, with the page directory loaded in `%cr3`. -/
structure Cpu where
  env : Option EnvIdx
  mode : CpuMode
  cr3 : Nat

structure Kernel where
  phys : Phys
  kernPgdir : Nat
  envs : EnvIdx → Env
  envFreeList : Option EnvIdx
  cpus : Nat → Cpu

/-- Kernel code: it may also leave the kernel, to user mode, to a halt or into
the monitor, and never come back. -/
abbrev KM (α : Type) := Prog Kernel Unit Panic α

/-- Run code of `pmap.c` on the memory manager's part of the state. -/
def pmap {α : Type} (m : Pmap α) : KM α := zoom Kernel.phys (fun p k => { k with phys := p }) m

namespace Kernel

/-- `curenv` on CPU `c`. -/
def curenv (k : Kernel) (c : Nat) : Option EnvIdx := (k.cpus c).env

def mode (k : Kernel) (c : Nat) : CpuMode := (k.cpus c).mode

def status (k : Kernel) (e : EnvIdx) : EnvStatus := (k.envs e).status

def setEnv (k : Kernel) (e : EnvIdx) (env : Env) : Kernel :=
  { k with envs := Function.update k.envs e env }

def setCpu (k : Kernel) (c : Nat) (cpu : Cpu) : Kernel :=
  { k with cpus := Function.update k.cpus c cpu }

def setStatus (k : Kernel) (e : EnvIdx) (status : EnvStatus) : Kernel :=
  k.setEnv e { k.envs e with status }

def setTf (k : Kernel) (e : EnvIdx) (tf : Trapframe) : Kernel :=
  k.setEnv e { k.envs e with tf }

def setCurenv (k : Kernel) (c : Nat) (env : Option EnvIdx) : Kernel :=
  k.setCpu c { k.cpus c with env }

/-- The CPU `c` is executing user code of the environment in slot `e`. -/
def RunsOn (k : Kernel) (c : Nat) (e : EnvIdx) : Prop :=
  k.mode c = .user ∧ k.curenv c = some e

/-- No CPU sits in the monitor, so the kernel lock can be taken. -/
def Unlocked (k : Kernel) : Prop := ∀ c, k.mode c ≠ .monitor

end Kernel

/-- Dereference `e->env_pgdir` for a page table walk. -/
def pgdirOf (e : EnvIdx) : KM Nat := do
  let k ← get
  match (k.envs e).pgdir with
  | none => panic .kernelFault
  | some d => pure d

/-- `PADDR(e->env_pgdir)`, as the frame of the directory. -/
def paddrPgdir (e : EnvIdx) : KM Nat := do
  let k ← get
  match (k.envs e).pgdir with
  | none => panic .paddr
  | some d => pure d

/-- `ENVX(envid)`. -/
def envx (envid : Word) : EnvIdx :=
  ⟨(envid &&& 1023#32).toNat,
    Nat.lt_succ_of_le (by rw [BitVec.toNat_and]; exact Nat.and_le_right)⟩

end Jos
