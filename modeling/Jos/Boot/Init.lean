import Jos.Base.Linked
import Jos.Kernel.Syscall

/-!
# Booting (`mem_init`, `env_init`, `env_create`)

From power-on to the first call of `sched_yield`. Kernel addresses are frames, as
in `pmap.c`, so `boot_alloc` counts in pages. The arrays `pages[]` and `envs[]`
are records of the state; what `boot_alloc` reserves for them are the frames that
`UPAGES` and `UENVS` map. The self tests of `mem_init` take pages and give them
back: `SelfTest` says what they may leave behind. Only the part of `check_page`
that uses up device addresses is code here.
-/

namespace Jos

open Prog

/-- What the kernel finds: memory, its own image and the processors. -/
structure Hardware where
  npages : Nat
  npagesBasemem : Nat
  /-- The page after the kernel image, `ROUNDUP(end, PGSIZE)`. -/
  kernEnd : Nat
  bootstack : Nat
  percpuKstacks : Nat → Nat
  /-- The page of the local APIC's registers. -/
  lapicaddr : Option Nat
  ncpu : Nat
  /-- The contents of memory at power-on. -/
  mem : Nat → Page

def mpentryPaddr : Nat := 0x7000
def iophysmem : Nat := 0x0A0000
def extphysmem : Nat := 0x100000

def sizeofPageInfo : Nat := 8
def sizeofEnv : Nat := 124

/-- The number of pages that `n` bytes take. -/
def pagesFor (n : Nat) : Nat := (n + pgsize - 1) / pgsize

/-- The address of the allocation and the next value of `nextfree`. -/
def bootAlloc (nextfree n : Nat) : Nat × Nat := (nextfree, nextfree + pagesFor n)

namespace Hardware

variable (m : Hardware)

def kernPgdir : Nat := (bootAlloc m.kernEnd pgsize).1

/-- The frames of `pages[]`. -/
def pagesAlloc : Nat × Nat :=
  bootAlloc (bootAlloc m.kernEnd pgsize).2 (m.npages * sizeofPageInfo)

/-- The frames of `envs[]`. -/
def envsAlloc : Nat × Nat := bootAlloc m.pagesAlloc.2 (nenv * sizeofEnv)

/-- `PADDR(boot_alloc(0))/PGSIZE` once the arrays are allocated. -/
def firstFree : Nat := m.envsAlloc.2

/-- `pages[]` is cleared, and nothing is on the free list. -/
def powerOn : Phys :=
  { npages := m.npages, pages := fun _ => ⟨none, 0⟩, pageFreeList := none, mem := m.mem,
    userPages := [] }

end Hardware

/-- A machine on which the kernel can boot: the memory that the map at `KERNBASE` covers,
base memory up to the I/O hole with room for the page at `MPENTRY_PADDR`, the kernel
above the hole, and some memory left. -/
structure Machine extends Hardware where
  npages_le : npages ≤ 65536
  basemem_gt : mpentryPaddr / pgsize < npagesBasemem
  basemem_le : npagesBasemem ≤ iophysmem / pgsize
  kernEnd_ge : extphysmem / pgsize ≤ kernEnd
  firstFree_lt : toHardware.firstFree < npages

section Pmap

variable (m : Hardware)

/-- The page directory of the kernel, with nothing but the self-map. -/
def initPgdir : Pmap Unit := do
  modify fun p => p.setPage m.kernPgdir fun _ => 0
  modify fun p => p.setWord m.kernPgdir (pdx uvpt) (page2pa m.kernPgdir ||| pteU ||| pteP)

/-- A page that is in use from the start. -/
def reservePage (i : Nat) : Pmap Unit := do
  modify fun p => p.setRef i 1
  modify fun p => p.setLink i none

/-- A page for the free list. -/
def releasePage (i : Nat) : Pmap Unit := do
  modify fun p => p.setRef i 0
  modify fun p => p.setLink i p.pageFreeList
  modify fun p => { p with pageFreeList := some i }

/-- The link of the page at `MPENTRY_PADDR` is left as it is. -/
def pageInit : Pmap Unit :=
  forRange m.npages fun i =>
    if i = 0 then reservePage i
    else if i < m.npagesBasemem then
      if i = mpentryPaddr / pgsize then modify fun p => p.setRef i 1
      else releasePage i
    else if iophysmem / pgsize ≤ i ∧ i < extphysmem / pgsize then reservePage i
    else if extphysmem / pgsize ≤ i ∧ i < m.firstFree then reservePage i
    else releasePage i

/-- Map `n` pages from `va` to `pa`, with `perm|PTE_P`. Without memory for a page table
the rest is silently left out. -/
def bootMapRegion (pgdir : Nat) (perm : Word) : Nat → Word → Word → Pmap Unit
  | 0, _, _ => pure ()
  | n + 1, va, pa => do
      match ← pgdirWalk pgdir va true with
      | none => pure ()
      | some pte => do
          pte.store (pa ||| perm ||| pteP)
          bootMapRegion pgdir perm n (va + 4096) (pa + 4096)

/-- Map `n` pages of device memory at `base`; the result is the next `base`. -/
def mmioMapRegion (pgdir : Nat) (base pa : Word) (n : Nat) : Pmap Word := do
  let size := BitVec.ofNat 32 (n * pgsize)
  if base + size > mmiolim then panic .mmioLimit
  else do
    bootMapRegion pgdir (pteW ||| ptePcd ||| ptePwt) n base pa
    pure (base + size)

/-- `*pgdir_walk(pgdir, va, 0) = 0`. -/
def clearEntry (pgdir : Nat) (va : Word) : Pmap Unit := do
  match ← pgdirWalk pgdir va false with
  | none => panic .kernelFault
  | some pte => pte.store 0

/-- The end of `check_page`: two regions of device memory are mapped and cleared. -/
def checkMmio (pgdir : Nat) : Pmap Word := do
  let mm2 ← mmioMapRegion pgdir mmiobase 0 2
  let base ← mmioMapRegion pgdir mm2 0 1
  clearEntry pgdir mmiobase
  clearEntry pgdir (mmiobase + 4096)
  clearEntry pgdir mm2
  pure base

/-- Pages of a kernel stack, and of the gap below it. -/
def kstkPages : Nat := 8

def ncpuMax : Nat := 8

/-- Where the stack of CPU `i` starts. -/
def kstackBase (i : Nat) : Word :=
  kstacktop - BitVec.ofNat 32 (i * (2 * kstkPages * pgsize)) - BitVec.ofNat 32 (kstkPages * pgsize)

def memInitMp : Pmap Unit :=
  forRange ncpuMax fun i =>
    bootMapRegion m.kernPgdir (pteW ||| pteP) kstkPages (kstackBase i) (page2pa (m.percpuKstacks i))

/-- The mappings above `UTOP`. -/
def mapKernel : Pmap Unit := do
  bootMapRegion m.kernPgdir (pteU ||| pteP) (pagesFor (m.npages * sizeofPageInfo)) upages
    (page2pa m.pagesAlloc.1)
  bootMapRegion m.kernPgdir (pteU ||| pteP) (pagesFor (nenv * sizeofEnv)) uenvs
    (page2pa m.envsAlloc.1)
  bootMapRegion m.kernPgdir (pteW ||| pteP) kstkPages (kstackBase 0) (page2pa m.bootstack)
  bootMapRegion m.kernPgdir (pteW ||| pteP) 65536 kernbase 0
  memInitMp m

/-- `mem_init` up to its first tests, and from there on. -/
def memInitStart : Pmap Unit := do
  initPgdir m
  pageInit m

def memInitRest : Pmap Word := do
  let base ← checkMmio m.kernPgdir
  mapKernel m
  pure base

/-- A processor maps the registers of its local APIC. -/
def lapicInit (base : Word) : Pmap Word :=
  match m.lapicaddr with
  | none => pure base
  | some lapic => mmioMapRegion m.kernPgdir base (page2pa lapic) 1

/-- All `n` processors do. -/
def lapicInits : Nat → Word → Pmap Word
  | 0, base => pure base
  | n + 1, base => do
      let next ← lapicInit m base
      lapicInits n next

end Pmap

/-- The self tests may reorder the free list and leave something in free pages. -/
structure SelfTest (p q : Phys) : Prop where
  npages : q.npages = p.npages
  free : ∀ l, IsList p.link p.pageFreeList l →
    ∃ l', IsList q.link q.pageFreeList l' ∧ l'.Perm l
  ref : q.ref = p.ref
  link : ∀ f, ¬ Linked p.link p.pageFreeList f → q.link f = p.link f
  mem : ∀ f, ¬ Linked p.link p.pageFreeList f → q.mem f = p.mem f
  userPages : q.userPages = p.userPages

/-- A cleared `struct Env`. -/
def Env.zero : Env :=
  { tf := .zero, link := none, id := 0, parentId := 0, type := .user, status := .free, runs := 0,
    cpunum := 0, pgdir := none, pgfaultUpcall := 0, ipcRecving := false, ipcDstva := 0,
    ipcValue := 0, ipcFrom := 0, ipcPerm := 0 }

/-- One iteration of `env_init`. -/
def Kernel.freeSlot (k : Kernel) (i : EnvIdx) : Kernel :=
  { k.setEnv i { k.envs i with id := 0, link := k.envFreeList } with envFreeList := some i }

/-- `envs[]` is cleared, and all processors wait for the kernel lock. -/
def Hardware.kernel (m : Hardware) (p : Phys) : Kernel where
  phys := p
  kernPgdir := m.kernPgdir
  envs _ := .zero
  envFreeList := none
  cpus c := ⟨none, if c < m.ncpu then .starting else .unused, m.kernPgdir⟩

/-- The loop goes from the last slot to the first. -/
def envInit (m : Hardware) (p : Phys) : Kernel :=
  (List.finRange nenv).foldr (fun i k => k.freeSlot i) (m.kernel p)

/-- A loadable segment of a program, linked below the user stack. `data` is what the file
has of it. -/
structure Segment where
  va : Word
  memsz : Word
  data : List Byte
  below : va.toNat + memsz.toNat ≤ ustacktop.toNat - pgsize

/-- An ELF image. -/
structure Binary where
  magic : Word
  entry : Word
  segments : List Segment

def elfMagic : Word := 0x464C457F

/-- The loop of `region_alloc`. -/
def regionAllocFrom (pgdir : Nat) (stop : Word) : Nat → Word → Pmap Unit
  | 0, _ => pure ()
  | n + 1, addr =>
      if addr < stop then do
        match ← userPageAlloc false with
        | none => panic .envCreate
        | some pp => do
            let r ← pageInsert pgdir pp addr (pteU ||| pteW)
            if r ≠ 0 then panic .envCreate else regionAllocFrom pgdir stop n (addr + 4096)
      else pure ()

def regionAlloc (pgdir : Nat) (va len : Word) : Pmap Unit :=
  regionAllocFrom pgdir (roundup (va + len)) 1048576 (rounddown va)

/-- Load one segment, with zeros behind what the file has. -/
def loadSegment (pgdir : Nat) (ph : Segment) : Pmap Unit :=
  if ph.data.length > ph.memsz.toNat then panic .envCreate
  else do
    regionAlloc pgdir ph.va ph.memsz
    kernelStores pgdir ph.va
      (ph.data ++ List.replicate (ph.memsz.toNat - ph.data.length) 0)

def loadSegments (pgdir : Nat) : List Segment → Pmap Unit
  | [] => pure ()
  | ph :: rest => do
      loadSegment pgdir ph
      loadSegments pgdir rest

def loadIcode (e : EnvIdx) (binary : Binary) : KM Unit :=
  if binary.magic ≠ elfMagic then panic .envCreate
  else do
    let pgdir ← paddrPgdir e
    pmap (loadSegments pgdir binary.segments)
    modify fun k => k.setTf e { (k.envs e).tf with eip := binary.entry }
    pmap (regionAlloc pgdir (ustacktop - 4096) 4096)

def envCreate (binary : Binary) : KM Unit := do
  match ← envAlloc 0 with
  | .error _ => panic .envCreate
  | .ok e => do
      loadIcode e binary
      modify fun k => k.setEnv e { k.envs e with type := .user }

def envCreates : List Binary → KM Unit
  | [] => pure ()
  | binary :: rest => do
      envCreate binary
      envCreates rest

/-- `k` is a state in which the kernel of `m`, with these programs, calls `sched_yield`. -/
def Booted (m : Machine) (binaries : List Binary) (k : Kernel) : Prop :=
  ∃ p₁ p₂ p₃ p₄ p₅ base next,
    memInitStart m.toHardware m.powerOn = .ret () p₁ ∧ SelfTest p₁ p₂ ∧
      memInitRest m.toHardware p₂ = .ret base p₃ ∧ SelfTest p₃ p₄ ∧
      lapicInits m.toHardware m.ncpu base p₄ = .ret next p₅ ∧
      envCreates binaries (envInit m.toHardware p₅) = .ret () k

end Jos
