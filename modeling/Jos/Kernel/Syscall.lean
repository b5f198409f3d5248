import Jos.Kernel.Env

/-!
# System calls (`kern/syscall.c`)

Each `sys_*` function takes the CPU `c` it runs on where it may schedule, and
the caller `curenv`, which no system call changes before it schedules. Results
are the 32-bit values that reach `%eax`; errors are negated `E_*` codes. What
`cputs` prints and the flow of console input are not part of the kernel state:
`input` is the character that `cons_getc` would return. That `cputs` reads the
string is, since the kernel may fault on it.
-/

namespace Jos

open Prog

/-- Destroy `e` unless it may access `[va, va+len)` with `perm|PTE_U|PTE_P`. -/
def userMemAssert (c : Nat) (e : EnvIdx) (va len perm : Word) : KM Unit := do
  let pgdir ← pgdirOf e
  match ← pmap (userMemCheck pgdir va len (perm ||| pteU)) with
  | none => pure ()
  | some _ => envDestroy c e

/-- The precision of `%.*s` is an `int`; a negative one means no bound but the size
of the address space, in which not everything is mapped. -/
def stringBound (len : Word) : Nat := if len.msb then 4294967296 else len.toNat

/-- The string is read in the address space that is loaded; a null pointer prints
as `(null)`. -/
def sysCputs (c : Nat) (curenv : EnvIdx) (s len : Word) : KM Word := do
  userMemAssert c curenv s len pteU
  let k ← get
  when (s ≠ 0) (pmap (readString (k.cpus c).cr3 (stringBound len) s))
  pure 0

def sysCgetc (input : Word) : KM Word := pure input

def sysGetenvid (curenv : EnvIdx) : KM Word := do
  let k ← get
  pure (k.envs curenv).id

def sysEnvDestroy (c : Nat) (curenv : EnvIdx) (envid : Word) : KM Word := do
  match ← envid2env curenv envid true with
  | none => pure (-eBadEnv)
  | some e => do
      envDestroy c e
      pure 0

def sysYield (c : Nat) : KM Word := schedYield c

/-- The child is a copy of the caller that sees a result of 0. -/
def sysExofork (curenv : EnvIdx) : KM Word := do
  let k ← get
  match ← envAlloc (k.envs curenv).id with
  | .error r => pure r
  | .ok e => do
      modify fun k => k.setStatus e .notRunnable
      modify fun k => k.setTf e ((k.envs curenv).tf.setEax 0)
      let k ← get
      pure (k.envs e).id

/-- The values of `ENV_RUNNABLE` and `ENV_NOT_RUNNABLE`. -/
def statusArg (status : Word) : Option EnvStatus :=
  if status = 2 then some .runnable else if status = 4 then some .notRunnable else none

def sysEnvSetStatus (curenv : EnvIdx) (envid status : Word) : KM Word := do
  match statusArg status with
  | none => pure (-eInval)
  | some st => do
      match ← envid2env curenv envid true with
      | none => pure (-eBadEnv)
      | some e => do
          modify fun k => k.setStatus e st
          pure 0

def sysEnvSetPgfaultUpcall (curenv : EnvIdx) (envid func : Word) : KM Word := do
  match ← envid2env curenv envid true with
  | none => pure (-eBadEnv)
  | some e => do
      modify fun k => k.setEnv e { k.envs e with pgfaultUpcall := func }
      pure 0

/-- `PTE_U|PTE_P` must be set, `PTE_AVAIL|PTE_W` may be set, nothing else. -/
def permOk (perm : Word) : Prop :=
  ~~~perm &&& (pteU ||| pteP) = 0 ∧ perm &&& ~~~(pteU ||| pteP ||| pteAvail ||| pteW) = 0

instance (perm : Word) : Decidable (permOk perm) := inferInstanceAs (Decidable (_ ∧ _))

/-- The address check of the page system calls. -/
def vaOk (va : Word) : Prop := va < utop ∧ pgoff va = 0

instance (va : Word) : Decidable (vaOk va) := inferInstanceAs (Decidable (_ ∧ _))

/-- `page_alloc` for a page that will be mapped in user space. -/
def userPageAlloc (zero : Bool) : Pmap (Option Nat) := do
  match ← pageAlloc zero with
  | none => pure none
  | some pp => do
      modify fun p => { p with userPages := pp :: p.userPages }
      pure (some pp)

/-- `page_insert` in the address space of `dst`. -/
def insertInto (dst : EnvIdx) (pp : Nat) (va perm : Word) : KM Word := do
  let pgdir ← pgdirOf dst
  pmap (pageInsert pgdir pp va perm)

/-- A page that cannot be inserted is not freed again. -/
def sysPageAlloc (curenv : EnvIdx) (envid va perm : Word) : KM Word := do
  match ← envid2env curenv envid true with
  | none => pure (-eBadEnv)
  | some e =>
      if ¬ vaOk va then pure (-eInval)
      else if ¬ permOk perm then pure (-eInval)
      else do
        match ← pmap (userPageAlloc true) with
        | none => pure (-eNoMem)
        | some pp => do
            let r ← insertInto e pp va perm
            if r.slt 0 then pure (-eNoMem) else pure 0

/-- The page at `va` in the address space of `src`, with its entry. -/
def lookupIn (src : EnvIdx) (va : Word) : KM (Option (Nat × Word)) := do
  let pgdir ← pgdirOf src
  match ← pmap (pageLookup pgdir va) with
  | none => pure none
  | some (pp, pte) => do
      let w ← pmap pte.load
      pure (some (pp, w))

def sysPageMap (curenv : EnvIdx) (srcenvid srcva dstenvid dstva perm : Word) : KM Word := do
  match ← envid2env curenv srcenvid true with
  | none => pure (-eBadEnv)
  | some srcenv => do
      match ← envid2env curenv dstenvid true with
      | none => pure (-eBadEnv)
      | some dstenv =>
          if ¬ (vaOk srcva ∧ vaOk dstva) then pure (-eInval)
          else do
            match ← lookupIn srcenv srcva with
            | none => pure (-eInval)
            | some (srcpp, pte) =>
                if perm &&& pteW ≠ 0 ∧ pte &&& pteW = 0 then pure (-eInval)
                else if ¬ permOk perm then pure (-eInval)
                else do
                  let r ← insertInto dstenv srcpp dstva perm
                  if r.slt 0 then pure (-eNoMem) else pure 0

def sysPageUnmap (curenv : EnvIdx) (envid va : Word) : KM Word := do
  match ← envid2env curenv envid true with
  | none => pure (-eBadEnv)
  | some e =>
      if ¬ vaOk va then pure (-eInval)
      else do
        let pgdir ← pgdirOf e
        pmap (pageRemove pgdir va)
        pure 0

/-- Last part of `sys_ipc_try_send`: wake the target up with the message. -/
def ipcDeliver (dst : EnvIdx) (srcid value : Word) : KM Word := do
  modify fun k => k.setEnv dst
    { k.envs dst with
      ipcRecving := false
      ipcFrom := srcid
      ipcValue := value
      tf := (k.envs dst).tf.setEax 0
      status := .runnable }
  pure 0

/-- The page is looked up whatever `srcva` is, and it is mapped at the target's
`env_ipc_dstva` whatever that is. -/
def sysIpcTrySend (curenv : EnvIdx) (envid value srcva perm : Word) : KM Word := do
  let srcid ← sysGetenvid curenv
  match ← envid2env curenv envid false with
  | none => pure (-eBadEnv)
  | some dst => do
      let k ← get
      if (k.envs dst).ipcRecving = false then pure (-eIpcNotRecv)
      else if srcva < utop ∧ ¬ permOk perm then pure (-eInval)
      else do
        let found ← lookupIn curenv srcva
        if srcva < utop then
          match found with
          | none => pure (-eInval)
          | some (pp, pte) =>
              if perm &&& pteW ≠ 0 ∧ pte &&& pteW = 0 then pure (-eInval)
              else do
                let r ← insertInto dst pp (k.envs dst).ipcDstva perm
                if r.slt 0 then pure (-eNoMem)
                else do
                  modify fun k => k.setEnv dst { k.envs dst with ipcPerm := perm }
                  ipcDeliver dst srcid value
        else ipcDeliver dst srcid value

/-- Any address from `UTOP` on is recorded as `UTOP`. -/
def sysIpcRecv (c : Nat) (curenv : EnvIdx) (dstva : Word) : KM Word :=
  if dstva < utop ∧ pgoff dstva ≠ 0 then pure (-eInval)
  else do
    modify fun k => k.setEnv curenv
      { k.envs curenv with
        ipcDstva := if dstva ≥ utop then utop else dstva
        ipcRecving := true
        status := .notRunnable }
    sysYield c

inductive SysCall where
  | cputs
  | cgetc
  | getenvid
  | envDestroy
  | pageAlloc
  | pageMap
  | pageUnmap
  | exofork
  | envSetStatus
  | envSetPgfaultUpcall
  | yield
  | ipcTrySend
  | ipcRecv
  deriving DecidableEq, Repr

/-- The system call numbers of `inc/syscall.h`. -/
def SysCall.number : SysCall → Word
  | .cputs => 0
  | .cgetc => 1
  | .getenvid => 2
  | .envDestroy => 3
  | .pageAlloc => 4
  | .pageMap => 5
  | .pageUnmap => 6
  | .exofork => 7
  | .envSetStatus => 8
  | .envSetPgfaultUpcall => 9
  | .yield => 10
  | .ipcTrySend => 11
  | .ipcRecv => 12

def SysCall.ofNumber (n : Word) : Option SysCall :=
  [.cputs, .cgetc, .getenvid, .envDestroy, .pageAlloc, .pageMap, .pageUnmap, .exofork,
    .envSetStatus, .envSetPgfaultUpcall, .yield, .ipcTrySend, .ipcRecv].find? (·.number = n)

/-- The dispatcher. -/
def syscall (c : Nat) (curenv : EnvIdx) (input : Word) (syscallno a1 a2 a3 a4 a5 : Word) :
    KM Word :=
  match SysCall.ofNumber syscallno with
  | some .cputs => sysCputs c curenv a1 a2
  | some .cgetc => sysCgetc input
  | some .getenvid => sysGetenvid curenv
  | some .envDestroy => sysEnvDestroy c curenv a1
  | some .yield => sysYield c
  | some .exofork => sysExofork curenv
  | some .envSetStatus => sysEnvSetStatus curenv a1 a2
  | some .pageAlloc => sysPageAlloc curenv a1 a2 a3
  | some .pageMap => sysPageMap curenv a1 a2 a3 a4 a5
  | some .pageUnmap => sysPageUnmap curenv a1 a2
  | some .envSetPgfaultUpcall => sysEnvSetPgfaultUpcall curenv a1 a2
  | some .ipcTrySend => sysIpcTrySend curenv a1 a2 a3 a4
  | some .ipcRecv => sysIpcRecv c curenv a1
  | none => pure (-eInval)

end Jos
