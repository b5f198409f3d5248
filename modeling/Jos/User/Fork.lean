import Jos.User.Lib

/-!
# Copy-on-write `fork` (`lib/fork.c`, `lib/pgfault.c`)

The code of the parent, as far as it uses the kernel: `first` says whether there is no
`_pgfault_handler` yet, and `thisenv` is the environment itself. `upcall` is the address of
`_pgfault_upcall`. What the code stores to the variables and the stack of the program is left
out here (`FirstFork` has the assignment of `_pgfault_handler`).
-/

namespace Jos

open Prog

/-- `FEC_WR`: the fault was caused by a write. -/
def fecWr : Word := 2

/-- The page of the exception stack. -/
def uxstack : Word := uxstacktop - 4096

section

variable (c : Nat) (cur : EnvIdx)

/-- The test at the start of `pgfault`, for the record at `utf`. The result is the faulting
address. -/
def pgfaultTest (utf : Word) : User Word := do
  let addr ← loadWord c utf
  let err ← loadWord c (utf + 4)
  if err &&& fecWr = 0 then exit .panic
  else do
    let pte ← uvptEntry c (pgnum addr)
    if pte &&& pteCow = 0 then exit .panic else pure addr

/-- A private copy of the page at `addr`. -/
def copyPage (addr : Word) : User Unit := do
  let id ← call (sysGetenvid cur)
  let r ← call (sysPageAlloc cur id pftemp (pteP ||| pteW ||| pteU))
  check r
  memmove c pftemp (rounddown addr) pgsize
  let r ← call (sysPageUnmap cur id (rounddown addr))
  check r
  let r ← call (sysPageMap cur id pftemp id (rounddown addr) (pteP ||| pteU ||| pteW))
  check r
  let r ← call (sysPageUnmap cur id pftemp)
  check r

/-- The page fault handler of `fork`. -/
def pgfault (utf : Word) : User Unit := do
  let addr ← pgfaultTest c utf
  copyPage c cur addr

/-- The permissions of a page that is shared with the child. -/
def duppagePerm (pte : Word) : Word :=
  if pte &&& pteW ≠ 0 ∨ pte &&& pteCow ≠ 0 then pteP ||| pteU ||| pteCow else pteP ||| pteU

/-- Map the page `pn` in the child, copy-on-write in both if one could write it. -/
def duppage (envid : Word) (pn : Nat) : User Unit := do
  let addr := BitVec.ofNat 32 (pn * pgsize)
  let pte ← uvptEntry c pn
  let id ← call (sysGetenvid cur)
  let perm := duppagePerm pte
  let r ← call (sysPageMap cur id addr envid addr perm)
  check r
  when (perm &&& pteCow ≠ 0) do
    let r ← call (sysPageMap cur id addr id addr perm)
    check r

/-- The body of the loop of `fork`. -/
def dupPresent (envid : Word) (pn : Nat) : User Unit := do
  let pde ← uvpdEntry c (pn / 1024)
  when (pde &&& pteP ≠ 0) do
    let pte ← uvptEntry c pn
    when (pte &&& pteP ≠ 0) (duppage c cur envid pn)

/-- The loop of `fork`, from `UTEXT` to the exception stack. -/
def dupPages (envid : Word) : User Unit :=
  forRange (pgnum uxstack - pgnum utext) fun i => dupPresent c cur envid (pgnum utext + i)

/-- The first time, `set_pgfault_handler` allocates the exception stack. -/
def setPgfaultHandler (first : Bool) (upcall : Word) : User Unit :=
  when (first = true) do
    let id ← call (sysGetenvid cur)
    let r ← call (sysPageAlloc cur id uxstack (pteU ||| pteP ||| pteW))
    check r
    let r ← call (sysEnvSetPgfaultUpcall cur id upcall)
    check r

/-- The exception stack of the child. The arguments of `memmove` are as in the source. -/
def copyStack (envid : Word) : User Unit := do
  let r ← call (sysPageAlloc cur envid uxstack (pteP ||| pteW ||| pteU))
  check r
  let id ← call (sysGetenvid cur)
  let r ← call (sysPageMap cur envid uxstack id pftemp (pteP ||| pteW ||| pteU))
  check r
  memmove c uxstack pftemp pgsize
  let id ← call (sysGetenvid cur)
  let r ← call (sysPageUnmap cur id pftemp)
  check r

/-- `fork` in the parent. (With a result of 0 from `sys_exofork` it is the child that runs.) -/
def fork (first : Bool) (upcall : Word) : User Word := do
  setPgfaultHandler cur first upcall
  let childId ← call (sysExofork cur)
  check childId
  if childId = 0 then pure 0
  else do
    dupPages c cur childId
    copyStack c cur childId
    let r ← call (sysEnvSetPgfaultUpcall cur childId upcall)
    check r
    let r ← call (sysEnvSetStatus cur childId 2)
    check r
    pure childId

end

end Jos
