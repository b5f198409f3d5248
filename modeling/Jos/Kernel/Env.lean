import Jos.Kernel.State

/-!
# Environments and the scheduler (`kern/env.c`, `kern/sched.c`)

`env_run`, `sched_yield` and `sched_halt` do not return; they end in `exit`. The
console output of these functions is not modelled.
-/

namespace Jos

open Prog

/-- `none` is `-E_BAD_ENV`. The envid 0 stands for the caller. -/
def Kernel.envid2env (k : Kernel) (curenv : EnvIdx) (envid : Word) (checkperm : Bool) :
    Option EnvIdx :=
  if envid = 0 then some curenv
  else
    let e := envx envid
    if (k.envs e).status = .free ∨ (k.envs e).id ≠ envid then none
    else if checkperm = true ∧ e ≠ curenv ∧ (k.envs e).parentId ≠ (k.envs curenv).id then none
    else some e

def envid2env (curenv : EnvIdx) (envid : Word) (checkperm : Bool) : KM (Option EnvIdx) := do
  let k ← get
  pure (k.envid2env curenv envid checkperm)

/-- Allocate a page directory for `e` and copy the kernel's half into it. -/
def envSetupVm (e : EnvIdx) : KM Word := do
  match ← pmap (pageAlloc true) with
  | none => pure (-eNoMem)
  | some p => do
      let pgdir ← pmap (page2kva p)
      modify fun k => k.setEnv e { k.envs e with pgdir := some pgdir }
      let k ← get
      pmap (modify fun ph => ph.setPage pgdir (ph.mem k.kernPgdir))
      pmap (pageIncref p)
      pmap (modify fun ph => ph.setWord pgdir (pdx uvpt) (page2pa pgdir ||| pteP ||| pteU))
      pure 0

/-- The id of the next environment in a slot: the generation in the high bits is
advanced, and reset when it would not be positive. -/
def nextEnvId (old : Word) (e : EnvIdx) : Word :=
  let generation := (old + 0x1000#32) &&& ~~~1023#32
  let generation := if generation.sle 0 then 0x1000#32 else generation
  generation ||| BitVec.ofNat 32 e

def gdUt : BitVec 16 := 0x18
def gdUd : BitVec 16 := 0x20
def gdKt : BitVec 16 := 0x08
def flIf : Word := 0x200

/-- The trap frame of a new environment. -/
def Trapframe.fresh : Trapframe :=
  { Trapframe.zero with
    ds := gdUd ||| 3
    es := gdUd ||| 3
    ss := gdUd ||| 3
    esp := ustacktop
    cs := gdUt ||| 3
    eflags := Trapframe.zero.eflags ||| flIf }

/-- Allocate and initialise an environment. The IPC fields keep what the slot's
previous occupant left there: the reset of `env_ipc_recving` is commented out. -/
def envAlloc (parentId : Word) : KM (Except Word EnvIdx) := do
  let k ← get
  match k.envFreeList with
  | none => pure (.error (-eNoFreeEnv))
  | some e => do
      let r ← envSetupVm e
      if r.slt 0 then pure (.error r)
      else do
        modify fun k => k.setEnv e
          { k.envs e with
            id := nextEnvId (k.envs e).id e
            parentId
            type := .user
            status := .runnable
            runs := 0
            tf := Trapframe.fresh
            pgfaultUpcall := 0 }
        modify fun k => { k with envFreeList := (k.envs e).link }
        pure (.ok e)

/-- `PGADDR(d, t, 0)`. -/
def pgaddr (d t : Idx) : Word := BitVec.ofNat 32 d <<< 22 ||| BitVec.ofNat 32 t <<< 12

/-- Unmap every page of one page table and free the table. -/
def envFreePde (pgdir : Nat) (pdeno : Idx) : Pmap Unit := do
  let p ← get
  let pde := p.word pgdir pdeno
  if pde &&& pteP = 0 then pure ()
  else do
    let pt ← kaddr (pteAddr pde)
    forRange 1024 fun pteno => do
      let p ← get
      when (p.word pt (Fin.ofNat 1024 pteno) &&& pteP ≠ 0)
        (pageRemove pgdir (pgaddr pdeno (Fin.ofNat 1024 pteno)))
    modify fun p => p.setWord pgdir pdeno 0
    let pp ← pa2page (pteAddr pde)
    pageDecref pp

/-- Free `e`, the user half of its address space and its page directory. -/
def envFree (c : Nat) (e : EnvIdx) : KM Unit := do
  let k ← get
  when (k.curenv c = some e) (modify fun k => k.setCpu c { k.cpus c with cr3 := k.kernPgdir })
  let pgdir ← pgdirOf e
  pmap (forRange 955 fun pdeno => envFreePde pgdir (Fin.ofNat 1024 pdeno))
  let pa ← paddrPgdir e
  modify fun k => k.setEnv e { k.envs e with pgdir := none }
  pmap (do
    let pp ← pa2page (page2pa pa)
    pageDecref pp)
  modify fun k => k.setEnv e { k.envs e with status := .free, link := k.envFreeList }
  modify fun k => { k with envFreeList := some e }

/-- First part of `env_run`: a running current environment becomes runnable. -/
def envPreempt (c : Nat) : KM Unit := do
  let k ← get
  match k.curenv c with
  | none => pure ()
  | some cur => when (k.status cur = .running) (modify (·.setStatus cur .runnable))

/-- Switch CPU `c` to `e` and drop to user mode. -/
def envRun {α : Type} (c : Nat) (e : EnvIdx) : KM α := do
  envPreempt c
  modify fun k => k.setCurenv c (some e)
  modify fun k => k.setEnv e { k.envs e with status := .running, runs := (k.envs e).runs + 1 }
  let pgdir ← paddrPgdir e
  modify fun k => k.setEnv e { k.envs e with cpunum := c }
  modify fun k => k.setCpu c { k.cpus c with cr3 := pgdir, mode := .user }
  exit ()

/-- The monitor never gives the CPU, or the kernel lock, back. -/
def monitor {α : Type} (c : Nat) : KM α := do
  modify fun k => k.setCpu c { k.cpus c with mode := .monitor }
  exit ()

/-- Halt CPU `c`, or enter the monitor if no environment can ever run again. -/
def schedHalt {α : Type} (c : Nat) : KM α := do
  let k ← get
  if ∃ i, k.status i = .runnable ∨ k.status i = .running ∨ k.status i = .dying then do
    modify fun k => k.setCpu c { env := none, mode := .halted, cr3 := k.kernPgdir }
    exit ()
  else monitor c

/-- `index++`, wrapping at `NENV`; `none` is the start value -1. -/
def nextIndex : Option EnvIdx → EnvIdx
  | none => 0
  | some i => if h : i.val + 1 = nenv then 0 else ⟨i.val + 1, by have := i.isLt; omega⟩

/-- The first runnable slot among the next `n` after `index`. -/
def Kernel.schedScan (k : Kernel) : Nat → Option EnvIdx → Option EnvIdx
  | 0, _ => none
  | n + 1, index =>
      if k.status (nextIndex index) = .runnable then some (nextIndex index)
      else k.schedScan n (some (nextIndex index))

/-- Choose an environment in round-robin order and run it. -/
def schedYield {α : Type} (c : Nat) : KM α := do
  let k ← get
  match k.schedScan nenv ((k.curenv c).map fun idle => envx (k.envs idle).id) with
  | some e => envRun c e
  | none =>
      match k.curenv c with
      | some idle => if k.status idle = .running then envRun c idle else schedHalt c
      | none => schedHalt c

/-- Free `e`, or mark it as a zombie if it runs on another CPU. -/
def envDestroy (c : Nat) (e : EnvIdx) : KM Unit := do
  let k ← get
  if k.status e = .running ∧ k.curenv c ≠ some e then modify (·.setStatus e .dying)
  else do
    envFree c e
    let k ← get
    when (k.curenv c = some e) do
      modify fun k => k.setCurenv c none
      schedYield c

end Jos
