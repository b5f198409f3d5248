import Jos.Boot.KernelMap
import Jos.Pmap.Virtual

/-!
# Kernel virtual addresses (`kern/pmap.h`, `i386_detect_memory`)

Elsewhere a kernel address is the frame that it addresses. Here it is a word, as in the
source: `KADDR` adds `KERNBASE` to a physical address, and `page_alloc` clears a page
through the address that comes out, whatever the page tables make of it. Above `KERNBASE`
there is room for 256 MB; the CMOS registers can report more than 4 GB.
-/

namespace Jos

open Prog

/-- The registers of the real-time clock. -/
abbrev Cmos := Word → Byte

def nvramBaselo : Word := 0x15
def nvramExtlo : Word := 0x17
def nvramExt16lo : Word := 0x34

def nvramRead (cmos : Cmos) (r : Word) : Word :=
  (cmos r).setWidth 32 ||| (cmos (r + 1)).setWidth 32 <<< 8

/-- `npages` and `npages_basemem`. -/
def i386DetectMemory (cmos : Cmos) : Word × Word :=
  let basemem := nvramRead cmos nvramBaselo
  let extmem := nvramRead cmos nvramExtlo
  let ext16mem := nvramRead cmos nvramExt16lo * 64
  let totalmem :=
    if ext16mem ≠ 0 then 16 * 1024 + ext16mem
    else if extmem ≠ 0 then 1 * 1024 + extmem
    else basemem
  (totalmem / 4, basemem / 4)

namespace Kva

/-- `PADDR`. -/
def paddr (kva : Word) : Pmap Word :=
  if kva < kernbase then panic .paddr else pure (kva - kernbase)

/-- `KADDR`. -/
def kaddr (pa : Word) : Pmap Word := do
  let p ← get
  if pgnum pa ≥ p.npages then panic .kaddr else pure (pa + kernbase)

def page2kva (pp : Nat) : Pmap Word := kaddr (page2pa pp)

/-- `memset(kva, 0, n)`, in the address space of `pgdir`. -/
def memset (pgdir : Nat) (kva : Word) (n : Nat) : Pmap Unit :=
  kernelStores pgdir kva (List.replicate n 0)

def pageAlloc (pgdir : Nat) (zero : Bool) : Pmap (Option Nat) := do
  let p ← get
  match p.pageFreeList with
  | none => pure none
  | some returnPage => do
      modify fun p => { p with pageFreeList := p.link returnPage }
      modify fun p => p.setLink returnPage none
      when (zero = true) do
        let kva ← page2kva returnPage
        memset pgdir kva pgsize
      pure (some returnPage)

end Kva

/-- The directory `d` maps physical memory at `KERNBASE`, for the kernel to write. -/
def Phys.MapsKernbase (p : Phys) (d : Nat) : Prop :=
  ∀ va, kernbase ≤ va → ∃ pde pte, p.translate d va = some (pde, pte) ∧ pde &&& pteW ≠ 0 ∧
    pte &&& pteW ≠ 0 ∧ pgnum pte = pgnum (va - kernbase)

/-- The kernel address of a page leads back to it. -/
def Phys.RoundTrip (p : Phys) (pp : Nat) : Prop :=
  ∃ kva, Kva.page2kva pp p = .ret kva p ∧ kernbase ≤ kva ∧ Kva.paddr kva p = .ret (page2pa pp) p

/-- All pages have a kernel address, and `page_alloc(ALLOC_ZERO)` clears the page that it
returns and nothing else. -/
structure Phys.KvaSound (p : Phys) : Prop where
  roundTrip : ∀ pp < p.npages, p.RoundTrip pp
  clears : ∀ d pp, p.pageFreeList = some pp → pp < p.npages → p.MapsKernbase d → p.Plain d pp →
    ∃ q, Kva.pageAlloc d true p = .ret (some pp) q ∧ (∀ off < 4096, q.mem pp off = 0) ∧
      ∀ f off, f ≠ pp ∨ 4096 ≤ off → q.mem f off = p.mem f off

section RoundTrip

variable {p : Phys} {pp : Nat}

theorem Phys.roundTrip (hlt : pp < p.npages) (hsmall : pp < 65536) : p.RoundTrip pp := by
  have hpa : (page2pa pp).toNat = pp * 4096 := pageAddr_toNat (by omega)
  have hnum : pgnum (page2pa pp) = pp := pgnum_pageAddr (by omega)
  have hbase : kernbase.toNat = 4026531840 := by decide
  have hkva : (page2pa pp + kernbase).toNat = pp * 4096 + 4026531840 := by
    rw [BitVec.toNat_add]
    omega
  refine ⟨page2pa pp + kernbase, ?_, ?_, ?_⟩
  · rw [Kva.page2kva, Kva.kaddr, get_bind, if_neg (by omega)]
    rfl
  · rw [BitVec.le_def]
    omega
  · rw [Kva.paddr, if_neg, BitVec.add_sub_cancel]
    · rfl
    · rw [BitVec.lt_def]
      omega

/-- The first page above 256 MB gets the address 0. -/
theorem Phys.not_roundTrip (hlt : 65536 < p.npages) : ¬ p.RoundTrip 65536 := by
  rintro ⟨kva, hkva, hbase, -⟩
  have hnum : pgnum (page2pa 65536) = 65536 := by decide
  rw [Kva.page2kva, Kva.kaddr, get_bind, if_neg (by omega)] at hkva
  obtain ⟨rfl, -⟩ := Outcome.ret.inj hkva
  exact absurd hbase (by decide)

end RoundTrip

section Clearing

variable {p : Phys} {d f : Nat} {va : Word}

/-- The bytes from `va` on are those of the page `f`. -/
structure Phys.Window (p : Phys) (d : Nat) (va : Word) (f : Nat) : Prop where
  plain : p.Plain d f
  walk : ∀ i < 4096, ∃ pde pte, p.translate d (va + BitVec.ofNat 32 i) = some (pde, pte) ∧
    pde &&& pteW ≠ 0 ∧ pte &&& pteW ≠ 0 ∧ pgnum pte = f
  offset : ∀ i < 4096, pgoff (va + BitVec.ofNat 32 i) = i

theorem Phys.Window.setByte (h : p.Window d va f) (off : Nat) (b : Byte) :
    (p.setByte f off b).Window d va f := by
  have hstores := Phys.Stores.setByte h.plain off b
  refine ⟨hstores.plain.mpr h.plain, fun i hi => ?_, h.offset⟩
  rw [hstores.translate]
  exact h.walk i hi

theorem Phys.Window.store (h : p.Window d va f) {i : Nat} (hi : i < 4096) (b : Byte) :
    kernelStore d (va + BitVec.ofNat 32 i) b p = .ret () (p.setByte f i b) := by
  obtain ⟨pde, pte, walk, hpde, hpte, hf⟩ := h.walk i hi
  rw [kernelStore, get_bind, walk]
  dsimp only
  rw [if_neg (by rintro (hz | hz); exacts [hpde hz, hpte hz]), h.offset i hi, hf]
  rfl

/-- Clearing `n` bytes from the offset `i` on. -/
theorem Phys.Window.memset {i n : Nat} (h : p.Window d va f) (hle : i + n ≤ 4096) :
    Kva.memset d (va + BitVec.ofNat 32 i) n p = .ret ()
      (p.setPage f fun off => if i ≤ off ∧ off < i + n then 0 else p.mem f off) := by
  induction n generalizing i p with
  | zero =>
      have hsame : (fun off => if i ≤ off ∧ off < i + 0 then 0 else p.mem f off) = p.mem f := by
        funext off
        rw [if_neg (by omega)]
      rw [hsame, Phys.setPage, Function.update_eq_self]
      rfl
  | succ n ih =>
      have hnext : va + BitVec.ofNat 32 i + 1 = va + BitVec.ofNat 32 (i + 1) := add_ofNat va i 1
      have hrest := ih (h.setByte i 0) (i := i + 1) (by omega)
      rw [Kva.memset] at hrest ⊢
      rw [List.replicate_succ, kernelStores, bind_ret _ (h.store (by omega) 0), hnext, hrest]
      congr 1
      simp only [Phys.setByte, Phys.setPage, Function.update_idem, Function.update_self]
      congr 2
      funext off
      by_cases hoff : off = i
      · subst hoff
        rw [Function.update_self, if_neg (by omega), if_pos (by omega)]
      · rw [Function.update_of_ne hoff]
        by_cases hin : i + 1 ≤ off ∧ off < i + 1 + n
        · rw [if_pos hin, if_pos (by omega)]
        · rw [if_neg hin, if_neg (by omega)]

/-- The kernel address of a page below 256 MB shows it. -/
theorem Phys.MapsKernbase.window (h : p.MapsKernbase d) (hplain : p.Plain d f) (hf : f < 65536) :
    p.Window d (page2pa f + kernbase) f := by
  have hpa : (page2pa f).toNat = f * 4096 := pageAddr_toNat (by omega)
  have hbase : kernbase.toNat = 4026531840 := by decide
  have haddr : ∀ i < 4096, (page2pa f + kernbase + BitVec.ofNat 32 i).toNat =
      f * 4096 + 4026531840 + i := by
    intro i hi
    rw [BitVec.toNat_add, BitVec.toNat_add, BitVec.toNat_ofNat]
    omega
  refine ⟨hplain, fun i hi => ?_, fun i hi => ?_⟩
  · have hi' := haddr i hi
    obtain ⟨pde, pte, walk, hpde, hpte, hnum⟩ := h (page2pa f + kernbase + BitVec.ofNat 32 i)
      (by rw [BitVec.le_def]; omega)
    refine ⟨pde, pte, walk, hpde, hpte, hnum.trans ?_⟩
    rw [pgnum_eq, BitVec.toNat_sub]
    omega
  · rw [pgoff_eq, haddr i hi]
    omega

/-- Up to 256 MB, `page_alloc` clears what it returns. -/
theorem Kva.pageAlloc_run (head : p.pageFreeList = some f) (hlt : f < p.npages) (hf : f < 65536)
    (hmaps : p.MapsKernbase d) (hplain : p.Plain d f) :
    Kva.pageAlloc d true p = .ret (some f)
      ((p.take f).setPage f fun off => if off < 4096 then 0 else p.mem f off) := by
  have hnum : pgnum (page2pa f) = f := pgnum_pageAddr (by omega)
  have hkva : Kva.page2kva f (p.take f) = .ret (page2pa f + kernbase) (p.take f) := by
    rw [Kva.page2kva, Kva.kaddr, get_bind, if_neg (by rw [hnum]; exact Nat.not_le.mpr hlt)]
    rfl
  have hmaps' : (p.take f).MapsKernbase d := hmaps
  have hwindow := (hmaps'.window hplain hf).memset (i := 0) (n := 4096) (by omega)
  rw [show page2pa f + kernbase + BitVec.ofNat 32 0 = page2pa f + kernbase from
    BitVec.add_zero _] at hwindow
  have hclear : (fun off => if 0 ≤ off ∧ off < 0 + 4096 then 0 else (p.take f).mem f off) =
      fun off => if off < 4096 then 0 else p.mem f off := by
    funext off
    simp only [Nat.zero_le, true_and, Nat.zero_add]
    rfl
  rw [hclear] at hwindow
  rw [Kva.pageAlloc, get_bind, head]
  dsimp only
  rw [modify_bind, modify_bind, when_pos _ rfl]
  change ((Kva.page2kva f >>= fun kva => Kva.memset d kva 4096) >>= fun _ => pure (some f))
    (p.take f) = _
  rw [bind_ret _ ((bind_ret _ hkva).trans hwindow)]
  rfl

end Clearing

/-- The 16-bit register counts the 64 KB blocks above 16 MB. -/
theorem i386DetectMemory_le (cmos : Cmos) :
    (i386DetectMemory cmos).1.toNat ≤ 65536 ↔ (nvramRead cmos nvramExt16lo).toNat ≤ 3840 := by
  have hread : ∀ r, (nvramRead cmos r).toNat < 65536 := by
    intro r
    have hlow := (cmos r).isLt
    have hhigh := (cmos (r + 1)).isLt
    rw [nvramRead, BitVec.toNat_or]
    refine Nat.or_lt_two_pow (n := 16) ?_ ?_
    · rw [BitVec.toNat_setWidth]
      omega
    · rw [BitVec.toNat_shiftLeft, BitVec.toNat_setWidth, Nat.shiftLeft_eq]
      omega
  have hbase := hread nvramBaselo
  have hext := hread nvramExtlo
  have hext16 := hread nvramExt16lo
  have hblocks : (nvramRead cmos nvramExt16lo * 64).toNat =
      (nvramRead cmos nvramExt16lo).toNat * 64 := by
    rw [BitVec.toNat_mul, show (64 : Word).toNat = 64 from rfl]
    omega
  rw [i386DetectMemory]
  dsimp only
  rw [BitVec.toNat_udiv, show (4 : Word).toNat = 4 from rfl]
  split
  · have htotal : (16 * 1024 + nvramRead cmos nvramExt16lo * 64 : Word).toNat =
        16384 + (nvramRead cmos nvramExt16lo).toNat * 64 := by
      rw [BitVec.toNat_add, hblocks, show (16 * 1024 : Word).toNat = 16384 from rfl]
      omega
    rw [htotal]
    omega
  · rename_i hzero
    have hnone : (nvramRead cmos nvramExt16lo).toNat * 64 = 0 := by
      rw [← hblocks, not_not.mp hzero]
      rfl
    have hsmall : (if nvramRead cmos nvramExtlo ≠ 0 then 1 * 1024 + nvramRead cmos nvramExtlo
        else nvramRead cmos nvramBaselo : Word).toNat ≤ 262144 := by
      split
      · rw [BitVec.toNat_add, show (1 * 1024 : Word).toNat = 1024 from rfl]
        omega
      · omega
    omega

/-- The kernel's addresses are right exactly on a machine whose CMOS reports at most 3840
blocks above 16 MB, that is, at most 256 MB. -/
theorem kva_sound_iff {cmos : Cmos} {p : Phys}
    (detected : p.npages = (i386DetectMemory cmos).1.toNat) :
    p.KvaSound ↔ (nvramRead cmos nvramExt16lo).toNat ≤ 3840 := by
  rw [← i386DetectMemory_le, ← detected]
  constructor
  · intro sound
    by_contra hmore
    exact Phys.not_roundTrip (by omega) (sound.roundTrip 65536 (by omega))
  · intro hle
    refine ⟨fun pp hlt => Phys.roundTrip hlt (by omega), fun d pp head hlt hmaps hplain => ?_⟩
    refine ⟨_, Kva.pageAlloc_run head hlt (by omega) hmaps hplain, fun off hoff => ?_,
      fun f off hother => ?_⟩
    · simp [Phys.setPage, hoff]
    · by_cases hf : f = pp
      · subst hf
        have hoff : ¬ off < 4096 := Nat.not_lt.mpr (hother.resolve_left fun h => h rfl)
        simp [Phys.setPage, hoff]
      · exact congrFun ((p.take pp).mem_setPage_of_ne _ hf) off

/-- The kernel's directory maps physical memory as `KADDR` expects it. -/
theorem Hardware.KernelSpace.mapsKernbase {m : Machine} {p : Phys} (h : m.KernelSpace p) :
    p.MapsKernbase m.kernPgdir := by
  intro va hva
  have hbase : kernbase.toNat = 4026531840 := by decide
  have hnum := pgnum_eq va
  have hlt := va.isLt
  rw [BitVec.le_def] at hva
  have hfirst : Hardware.kernbaseRegion.first = 983040 := by decide
  have hcovers : Hardware.kernbaseRegion.Covers (pgnum va) := by
    rw [Region.Covers, hfirst]
    change _ ∧ pgnum va < 983040 + 65536
    omega
  obtain ⟨t, ht⟩ := h.mapped _ (m.mem_memlayout.mpr (.inr (.inr (.inl rfl)))) va hcovers
  refine ⟨_, _, ht, ?_, ?_, ?_⟩
  · rw [mkPte_and _ _ (by decide)]
    decide
  · rw [Region.entry, mkPte_and _ _ (by decide)]
    decide
  · rw [Region.entry, hfirst]
    change pgnum (mkPte (0 + (pgnum va - 983040)) (pteW ||| pteP)) = _
    rw [pgnum_mkPte (by omega) (by decide), pgnum_eq, pgnum_eq, BitVec.toNat_sub]
    omega

/-- 640 KB of base memory and `n` times 256 blocks above 16 MB. -/
def cmosOf (n : Byte) : Cmos := fun r =>
  if r = nvramBaselo then 0x80 else if r = nvramBaselo + 1 then 2
  else if r = nvramExt16lo + 1 then n else 0

/-- The machine on which the kernel is tested has 128 MB. -/
theorem kva_sound_iff_qemu : ∃ p, qemu.KernelSpace p ∧ p.MapsKernbase qemu.kernPgdir ∧
    p.npages = (i386DetectMemory (cmosOf 7)).1.toNat ∧ p.KvaSound := by
  obtain ⟨p₁, hrun, room, test⟩ := qemu_memInitStart
  obtain ⟨base, p, n, l, -, htree, hM⟩ := KernTree.memInitRest_entries hrun room test
  have hspace := htree.kernelSpace hM
  have hnpages : p.npages = (i386DetectMemory (cmosOf 7)).1.toNat := by
    rw [htree.npages]
    decide
  exact ⟨p, hspace, hspace.mapsKernbase, hnpages, (kva_sound_iff hnpages).mpr (by decide)⟩

/-- On a machine with 512 MB the page at 256 MB gets the address 0, which is no kernel address. -/
theorem kva_wraps : (i386DetectMemory (cmosOf 31)).1.toNat = 131072 ∧
    ∀ p : Phys, p.npages = 131072 → Kva.page2kva 65536 p = .ret 0 p ∧
      Kva.paddr 0 p = .panic .paddr ∧ ¬ p.KvaSound := by
  refine ⟨by decide, fun p hp => ⟨?_, rfl, fun sound => ?_⟩⟩
  · have hnum : pgnum (page2pa 65536) = 65536 := by decide
    rw [Kva.page2kva, Kva.kaddr, get_bind, if_neg (by omega)]
    rfl
  · exact Phys.not_roundTrip (by omega) (sound.roundTrip 65536 (by omega))

end Jos
