import Jos.Base.Prog
import Jos.Mmu

/-!
# Physical pages and page tables (`kern/pmap.c`, `kern/pmap.h`)

`Phys` is what the memory manager owns: the `pages[]` array with the free list
threaded through it and the bytes of physical memory. A `struct PageInfo *` is
the index of the page, null is `none`. The kernel reaches physical memory only
through the map at `KERNBASE`, so a kernel virtual address is modelled by the
frame it addresses; this is exact for the 256 MB (65536 frames) that the map
covers. `KADDR`, `pa2page` and `page_free` panic as in the source. The TLB is
not part of `Phys`, so `tlb_invalidate` has no counterpart here.
-/

namespace Jos

open Prog

/-- Why the kernel stopped. -/
inductive Panic where
  | kaddr
  | paddr
  | pa2page
  | pageFree
  /-- A load or store by the kernel that the page tables do not allow. -/
  | kernelFault
  /-- `panic` in `region_alloc`, `load_icode` or `env_create`. -/
  | envCreate
  /-- `panic` in `mmio_map_region`. -/
  | mmioLimit
  | unhandledTrap
  /-- A failed `assert`. -/
  | assertion
  deriving DecidableEq, Repr

def eBadEnv : Word := 2
def eInval : Word := 3
def eNoMem : Word := 4
def eNoFreeEnv : Word := 5
def eFault : Word := 6
def eIpcNotRecv : Word := 7

/-- `struct PageInfo`. -/
structure PageInfo where
  link : Option Nat
  ref : BitVec 16

/-- The state of the physical memory manager. `userPages` is a history variable:
the pages that `page_alloc` returned to a caller that wanted a user page. Nothing
reads it. -/
structure Phys where
  npages : Nat
  pages : Nat → PageInfo
  pageFreeList : Option Nat
  mem : Nat → Page
  userPages : List Nat

namespace Phys

def word (p : Phys) (frame : Nat) (i : Idx) : Word := readWord (p.mem frame) i

def setPage (p : Phys) (frame : Nat) (page : Page) : Phys :=
  { p with mem := Function.update p.mem frame page }

def setWord (p : Phys) (frame : Nat) (i : Idx) (w : Word) : Phys :=
  p.setPage frame (writeWord (p.mem frame) i w)

def setByte (p : Phys) (frame off : Nat) (b : Byte) : Phys :=
  p.setPage frame (Function.update (p.mem frame) off b)

def setRef (p : Phys) (pp : Nat) (ref : BitVec 16) : Phys :=
  { p with pages := Function.update p.pages pp { p.pages pp with ref } }

def setLink (p : Phys) (pp : Nat) (link : Option Nat) : Phys :=
  { p with pages := Function.update p.pages pp { p.pages pp with link } }

def ref (p : Phys) (pp : Nat) : BitVec 16 := (p.pages pp).ref

def link (p : Phys) (pp : Nat) : Option Nat := (p.pages pp).link

/-- The page directory entry and the page table entry the x86 walk of `pgdir`
finds for `va`, if both are present. -/
def translate (p : Phys) (pgdir : Nat) (va : Word) : Option (Word × Word) :=
  let pde := p.word pgdir (pdx va)
  if pde &&& pteP = 0 then none
  else
    let pte := p.word (pgnum pde) (ptx va)
    if pte &&& pteP = 0 then none else some (pde, pte)

/-- The byte at `va`, if anything is mapped there. -/
def byteAt (p : Phys) (pgdir : Nat) (va : Word) : Option Byte :=
  (p.translate pgdir va).map fun entries => p.mem (pgnum entries.2) (pgoff va)

/-- User mode may read `va`, and write it if `write`: both levels must agree. -/
def userAccess (p : Phys) (pgdir : Nat) (va : Word) (write : Bool) : Prop :=
  ∃ pde pte, p.translate pgdir va = some (pde, pte) ∧
    pde &&& pteU ≠ 0 ∧ pte &&& pteU ≠ 0 ∧
    (write = true → pde &&& pteW ≠ 0 ∧ pte &&& pteW ≠ 0)

end Phys

/-- Code of `pmap.c`: it returns or panics, and never leaves the kernel. -/
abbrev Pmap (α : Type) := Prog Phys Empty Panic α

/-- A `pte_t *`: an entry of a page table page. -/
structure PtePtr where
  table : Nat
  idx : Idx
  deriving DecidableEq, Repr

def PtePtr.load (pte : PtePtr) : Pmap Word := do
  let p ← get
  pure (p.word pte.table pte.idx)

def PtePtr.store (pte : PtePtr) (w : Word) : Pmap Unit :=
  modify fun p => p.setWord pte.table pte.idx w

/-- The common check of `KADDR` and `pa2page`. -/
def frameOf (why : Panic) (pa : Word) : Pmap Nat := do
  let p ← get
  if pgnum pa ≥ p.npages then panic why else pure (pgnum pa)

def kaddr (pa : Word) : Pmap Nat := frameOf .kaddr pa

def pa2page (pa : Word) : Pmap Nat := frameOf .pa2page pa

def page2pa (pp : Nat) : Word := pageAddr pp

def page2kva (pp : Nat) : Pmap Nat := kaddr (page2pa pp)

/-- `memset(page2kva(pp), 0, PGSIZE)`. -/
def clearPage (pp : Nat) : Pmap Unit := do
  let kva ← page2kva pp
  modify fun p => p.setPage kva fun _ => 0

/-- Allocate a physical page; `zero` is `ALLOC_ZERO`. -/
def pageAlloc (zero : Bool) : Pmap (Option Nat) := do
  let p ← get
  match p.pageFreeList with
  | none => pure none
  | some pp => do
      modify fun p => { p with pageFreeList := p.link pp }
      modify fun p => p.setLink pp none
      when (zero = true) (clearPage pp)
      pure (some pp)

/-- Return a page to the free list. -/
def pageFree (pp : Nat) : Pmap Unit := do
  let p ← get
  if p.ref pp ≠ 0 ∨ p.link pp ≠ none then panic .pageFree
  else modify fun p => { p.setLink pp p.pageFreeList with pageFreeList := some pp }

/-- Drop one reference, and free the page with the last one. -/
def pageDecref (pp : Nat) : Pmap Unit := do
  modify fun p => p.setRef pp (p.ref pp - 1)
  let p ← get
  when (p.ref pp = 0) (pageFree pp)

/-- `pp->pp_ref++`. -/
def pageIncref (pp : Nat) : Pmap Unit :=
  modify fun p => p.setRef pp (p.ref pp + 1)

/-- The entry for `va`; with `create` a missing page table is allocated. -/
def pgdirWalk (pgdir : Nat) (va : Word) (create : Bool) : Pmap (Option PtePtr) := do
  let p ← get
  let pde := p.word pgdir (pdx va)
  if pde &&& pteP ≠ 0 then do
    let pt ← kaddr (pteAddr pde)
    pure (some ⟨pt, ptx va⟩)
  else if create then do
    match ← pageAlloc true with
    | none => pure none
    | some newPage => do
        let pt ← page2kva newPage
        pageIncref newPage
        modify fun p => p.setWord pgdir (pdx va) (page2pa pt ||| pteP ||| pteW ||| pteU)
        pure (some ⟨pt, ptx va⟩)
  else pure none

/-- The page mapped at `va`, with the address of its entry. The source does not
look at `PTE_P` of the entry it finds. -/
def pageLookup (pgdir : Nat) (va : Word) : Pmap (Option (Nat × PtePtr)) := do
  match ← pgdirWalk pgdir va false with
  | none => pure none
  | some pte => do
      let w ← pte.load
      let pp ← pa2page (pteAddr w)
      pure (some (pp, pte))

/-- Unmap the page at `va`. -/
def pageRemove (pgdir : Nat) (va : Word) : Pmap Unit := do
  match ← pageLookup pgdir va with
  | none => pure ()
  | some (page, pte) => do
      pageDecref page
      pte.store 0

/-- Map the page `pp` at `va` with `perm|PTE_P`. -/
def pageInsert (pgdir pp : Nat) (va perm : Word) : Pmap Word := do
  match ← pgdirWalk pgdir va true with
  | none => pure (-eNoMem)
  | some pte => do
      let w ← pte.load
      if w &&& pteP ≠ 0 ∧ pteAddr w = page2pa pp then do
        pte.store (page2pa pp ||| perm ||| pteP)
        pure 0
      else do
        when (w &&& pteP ≠ 0) (pageRemove pgdir va)
        pte.store (page2pa pp ||| perm ||| pteP)
        pageIncref pp
        pure 0

/-- The test that `user_mem_check` makes for the page at `addr`. -/
def userMemDenied (pgdir : Nat) (addr perm : Word) : Pmap Bool := do
  match ← pgdirWalk pgdir addr false with
  | none => pure true
  | some pte => do
      let w ← pte.load
      pure (decide (addr ≥ ulim ∨ w &&& perm ≠ perm))

/-- The loop of `user_mem_check` from `addr` on, for at most `n` pages. -/
def userMemScan (pgdir : Nat) (va stop perm : Word) : Nat → Word → Pmap (Option Word)
  | 0, _ => pure none
  | n + 1, addr =>
      if addr < stop then do
        let denied ← userMemDenied pgdir addr perm
        if denied = true then pure (some (if addr < va then va else addr))
        else userMemScan pgdir va stop perm n (addr + 4096)
      else pure none

/-- `none` is the return value 0; `some addr` is `-E_FAULT` with `addr` left in
`user_mem_check_addr`. The loop visits at most the 2^20 pages of the address space. -/
def userMemCheck (pgdir : Nat) (va len perm : Word) : Pmap (Option Word) :=
  userMemScan pgdir va (roundup (va + len)) (perm ||| pteP ||| pteU) 1048576 (rounddown va)

/-- A store by the kernel at a virtual address of the loaded page directory.
`CR0_WP` is set, so a read-only entry faults in kernel mode too. -/
def kernelStore (pgdir : Nat) (va : Word) (b : Byte) : Pmap Unit := do
  let p ← get
  match p.translate pgdir va with
  | none => panic .kernelFault
  | some (pde, pte) =>
      if pde &&& pteW = 0 ∨ pte &&& pteW = 0 then panic .kernelFault
      else modify fun p => p.setByte (pgnum pte) (pgoff va) b

/-- A load by the kernel at a virtual address of the loaded page directory. -/
def kernelLoad (pgdir : Nat) (va : Word) : Pmap Byte := do
  let p ← get
  match p.translate pgdir va with
  | none => panic .kernelFault
  | some (_, pte) => pure (p.mem (pgnum pte) (pgoff va))

/-- How `%.*s` reads a string: up to a NUL, and otherwise one byte more than the
`n` it prints. -/
def readString (pgdir : Nat) : Nat → Word → Pmap Unit
  | 0, va => do
      let _ ← kernelLoad pgdir va
      pure ()
  | n + 1, va => do
      let ch ← kernelLoad pgdir va
      when (ch ≠ 0) (readString pgdir n (va + 1))

/-- Store a sequence of bytes at consecutive virtual addresses. -/
def kernelStores (pgdir : Nat) : Word → List Byte → Pmap Unit
  | _, [] => pure ()
  | va, b :: bs => do
      kernelStore pgdir va b
      kernelStores pgdir (va + 1) bs

end Jos
