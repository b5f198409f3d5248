import Mathlib.Data.Nat.Bitwise
import Mathlib.Logic.Function.Basic
import Mathlib.Tactic.NormNum

/-!
# The x86 paging vocabulary

Constants and address macros of `inc/mmu.h` and `inc/memlayout.h`. A linear
address, a physical address and a page table entry are all 32-bit words. A
physical page is its 4096 bytes; tables are read and written as little-endian
words of such a page, so that a page table entry really is four of the bytes
that a user mapping of the same page would expose.
-/

namespace Jos

abbrev Byte := BitVec 8
abbrev Word := BitVec 32

/-- An index into a page directory or a page table. -/
abbrev Idx := Fin 1024

instance idxNeZero : NeZero (1024 : Nat) := ⟨by decide⟩

abbrev pgsize : Nat := 4096

def pteP : Word := 0x001
def pteW : Word := 0x002
def pteU : Word := 0x004
def ptePwt : Word := 0x008
def ptePcd : Word := 0x010
def pteAvail : Word := 0xE00

/-- Flags that a system call may set in a page table entry. -/
def pteSyscall : Word := pteAvail ||| pteP ||| pteW ||| pteU

/-- Marks a copy-on-write page; one of the `pteAvail` bits. -/
def pteCow : Word := 0x800

def kernbase : Word := 0xF0000000
def kstacktop : Word := 0xF0000000
def mmiolim : Word := 0xEFC00000
def mmiobase : Word := 0xEF800000
def ulim : Word := 0xEF800000
def uvpt : Word := 0xEF400000
def upages : Word := 0xEF000000
def uenvs : Word := 0xEEC00000
def utop : Word := 0xEEC00000
def uxstacktop : Word := 0xEEC00000
def ustacktop : Word := 0xEEBFE000
def utext : Word := 0x00800000
def pftemp : Word := 0x007FF000

/-- Page directory index. -/
def pdx (la : Word) : Idx :=
  ⟨(la >>> 22 &&& 0x3FF#32).toNat,
    Nat.lt_succ_of_le (by rw [BitVec.toNat_and]; exact Nat.and_le_right)⟩

/-- Page table index. -/
def ptx (la : Word) : Idx :=
  ⟨(la >>> 12 &&& 0x3FF#32).toNat,
    Nat.lt_succ_of_le (by rw [BitVec.toNat_and]; exact Nat.and_le_right)⟩

/-- Page number field of an address. -/
def pgnum (la : Word) : Nat := (la >>> 12).toNat

/-- Offset in the page. -/
def pgoff (la : Word) : Nat := (la &&& 0xFFF#32).toNat

/-- Address in a page table or page directory entry. -/
def pteAddr (pte : Word) : Word := pte &&& ~~~0xFFF#32

/-- `ROUNDDOWN(a, PGSIZE)` on 32-bit values. -/
def rounddown (a : Word) : Word := a - a % 4096#32

/-- `ROUNDUP(a, PGSIZE)` on 32-bit values; the addition wraps. -/
def roundup (a : Word) : Word := rounddown (a + 4096#32 - 1#32)

theorem add_ofNat (a : Word) (i j : Nat) :
    a + BitVec.ofNat 32 i + BitVec.ofNat 32 j = a + BitVec.ofNat 32 (i + j) := by
  rw [BitVec.ofNat_add, BitVec.add_assoc]

theorem add_one_add_ofNat (a : Word) (i : Nat) :
    a + 1 + BitVec.ofNat 32 i = a + BitVec.ofNat 32 (i + 1) := by
  rw [Nat.add_comm i 1]
  exact add_ofNat a 1 i

theorem pdx_val (la : Word) : (pdx la).val = la.toNat / 4194304 := by
  have hlt := la.isLt
  have hmask : ∀ n : Nat, n &&& 1023 = n % 1024 := fun n => Nat.and_two_pow_sub_one_eq_mod n 10
  simp only [pdx, BitVec.toNat_and, BitVec.toNat_ushiftRight, BitVec.toNat_ofNat,
    Nat.shiftRight_eq_div_pow]
  norm_num [hmask]
  omega

theorem ptx_val (la : Word) : (ptx la).val = la.toNat / 4096 % 1024 := by
  have hmask : ∀ n : Nat, n &&& 1023 = n % 1024 := fun n => Nat.and_two_pow_sub_one_eq_mod n 10
  simp only [ptx, BitVec.toNat_and, BitVec.toNat_ushiftRight, BitVec.toNat_ofNat,
    Nat.shiftRight_eq_div_pow]
  norm_num [hmask]

theorem pgnum_eq (la : Word) : pgnum la = la.toNat / 4096 := by
  simp [pgnum, BitVec.toNat_ushiftRight, Nat.shiftRight_eq_div_pow]

theorem pgoff_eq (la : Word) : pgoff la = la.toNat % 4096 := by
  have hmask : ∀ n : Nat, n &&& 4095 = n % 4096 := fun n => Nat.and_two_pow_sub_one_eq_mod n 12
  simp [pgoff, BitVec.toNat_and, hmask]

theorem pgoff_lt (la : Word) : pgoff la < 4096 := by
  rw [pgoff_eq]
  exact Nat.mod_lt _ (by decide)

theorem pgnum_pteAddr (pte : Word) : pgnum (pteAddr pte) = pgnum pte := by
  have h : pteAddr pte >>> 12 = pte >>> 12 := by
    simp only [pteAddr, BitVec.ushiftRight_and_distrib]
    have hall : (~~~0xFFF#32) >>> 12 = 0xFFFFF#32 := by decide
    rw [hall]
    apply BitVec.eq_of_toNat_eq
    have hlt := (pte >>> 12).isLt
    rw [BitVec.toNat_and, BitVec.toNat_ushiftRight, Nat.shiftRight_eq_div_pow]
    have hmask : ∀ n : Nat, n &&& 1048575 = n % 1048576 :=
      fun n => Nat.and_two_pow_sub_one_eq_mod n 20
    have hpte := pte.isLt
    norm_num [hmask]
    omega
  rw [pgnum, h, pgnum]

/-- The user half of the address space is the first 955 directory entries. -/
theorem pdx_lt_iff (va : Word) : (pdx va).val < 955 ↔ va < utop := by
  rw [pdx_val, BitVec.lt_def]
  have hutop : utop.toNat = 955 * 4194304 := by decide
  omega

theorem rounddown_toNat (a : Word) : (rounddown a).toNat = a.toNat / 4096 * 4096 := by
  have hmod : (a % 4096#32).toNat = a.toNat % 4096 := by
    rw [BitVec.toNat_umod]
    rfl
  rw [rounddown, BitVec.toNat_sub_of_le (by rw [BitVec.le_def, hmod]; omega), hmod]
  omega

/-- The page frame an entry points to, if it is present. -/
def entryFrame (pte : Word) : Option Nat :=
  if pte &&& pteP ≠ 0 then some (pgnum pte) else none

@[simp] theorem entryFrame_zero : entryFrame 0#32 = none := by
  simp [entryFrame]

/-- Address of the first byte of a page frame. -/
def pageAddr (frame : Nat) : Word := BitVec.ofNat 32 frame <<< 12

/-- A page table entry for `frame`; `perm|PTE_P` in its low twelve bits. -/
def mkPte (frame : Nat) (perm : Word) : Word := pageAddr frame ||| perm ||| pteP

theorem pageAddr_toNat {frame : Nat} (h : frame < 1048576) :
    (pageAddr frame).toNat = frame * 4096 := by
  simp only [pageAddr, BitVec.toNat_shiftLeft, BitVec.toNat_ofNat, Nat.shiftLeft_eq]
  omega

theorem pageAddr_aligned (frame : Nat) : (pageAddr frame).toNat % 4096 = 0 := by
  simp only [pageAddr, BitVec.toNat_shiftLeft, BitVec.toNat_ofNat, Nat.shiftLeft_eq]
  omega

/-- The low twelve bits of an address of a page are clear. -/
theorem pageAddr_and (frame : Nat) {m : Word} (hm : m.toNat < 4096) :
    pageAddr frame &&& m = 0 := by
  apply BitVec.eq_of_getLsbD_eq
  intro i hi
  rw [BitVec.getLsbD_and, pageAddr, BitVec.getLsbD_shiftLeft]
  by_cases h12 : i < 12
  · simp [h12]
  · have hbit : m.getLsbD i = false := by
      rw [← BitVec.testBit_toNat]
      apply Nat.testBit_lt_two_pow
      calc m.toNat < 2 ^ 12 := hm
        _ ≤ 2 ^ i := Nat.pow_le_pow_right (by decide) (by omega)
    simp [hbit]

theorem pageAddr_succ (frame : Nat) : pageAddr frame + 4096 = pageAddr (frame + 1) := by
  apply BitVec.eq_of_toNat_eq
  have hsize : (4096 : Word).toNat = 4096 := rfl
  rw [BitVec.toNat_add, hsize]
  simp only [pageAddr, BitVec.toNat_shiftLeft, BitVec.toNat_ofNat, Nat.shiftLeft_eq]
  omega

theorem pteAddr_eq (pte : Word) : pteAddr pte = pageAddr (pgnum pte) := by
  have hoff : pgoff (pteAddr pte) = 0 := by
    rw [pgoff, pteAddr, BitVec.and_assoc, show ~~~0xFFF#32 &&& 0xFFF#32 = 0#32 by decide,
      BitVec.and_zero]
    rfl
  have hnum := pgnum_pteAddr pte
  rw [pgoff_eq] at hoff
  rw [pgnum_eq, pgnum_eq] at hnum
  have hlt := pte.isLt
  apply BitVec.eq_of_toNat_eq
  rw [pgnum_eq, pageAddr_toNat (by omega)]
  omega

theorem mkPte_present (frame : Nat) (perm : Word) : mkPte frame perm &&& pteP ≠ 0 := by
  intro h
  have hbit := congrArg (fun w => w.getLsbD 0) h
  simp [mkPte, pteP] at hbit

/-- The permissions of an entry. -/
theorem mkPte_and (frame : Nat) (perm : Word) {mask : Word} (hm : mask.toNat < 4096) :
    mkPte frame perm &&& mask = (perm ||| pteP) &&& mask := by
  rw [mkPte, BitVec.or_assoc, BitVec.and_or_distrib_right, pageAddr_and frame hm]
  exact BitVec.zero_or

theorem pgnum_mkPte {frame : Nat} {perm : Word} (h : frame < 1048576) (hp : perm.toNat < 4096) :
    pgnum (mkPte frame perm) = frame := by
  have hor : ∀ a b : Nat, (a ||| b) / 4096 = a / 4096 ||| b / 4096 := by
    intro a b
    have := Nat.shiftRight_or_distrib (a := a) (b := b) (i := 12)
    simpa only [Nat.shiftRight_eq_div_pow] using this
  have hperm : perm.toNat / 4096 = 0 := Nat.div_eq_of_lt hp
  have hpres : pteP.toNat / 4096 = 0 := by decide
  rw [pgnum_eq, mkPte, BitVec.toNat_or, BitVec.toNat_or, hor, hor, hperm, hpres,
    pageAddr_toNat h, Nat.or_zero, Nat.or_zero]
  omega

theorem entryFrame_mkPte {frame : Nat} {perm : Word} (h : frame < 1048576)
    (hp : perm.toNat < 4096) : entryFrame (mkPte frame perm) = some frame := by
  rw [entryFrame, if_pos (mkPte_present frame perm), pgnum_mkPte h hp]

/-- The directory entry that `pgdir_walk` makes. -/
theorem tablePde_eq (f : Nat) :
    pageAddr f ||| pteP ||| pteW ||| pteU = mkPte f (pteW ||| pteU) := by
  rw [mkPte, BitVec.or_assoc, BitVec.or_assoc, BitVec.or_assoc, BitVec.or_comm pteP,
    BitVec.or_assoc]

/-- The bytes of a physical page. -/
abbrev Page := Nat → Byte

/-- The `i`-th little-endian word of a page. -/
def readWord (page : Page) (i : Idx) : Word :=
  page (4 * i + 3) ++ page (4 * i + 2) ++ page (4 * i + 1) ++ page (4 * i)

/-- Store one word; the other 1023 words keep their bytes. -/
def writeWord (page : Page) (i : Idx) (w : Word) : Page := fun k =>
  if k / 4 = i then w.extractLsb' (8 * (k % 4)) 8 else page k

theorem bytes_append (w : Word) :
    (w.extractLsb' 24 8 ++ w.extractLsb' 16 8 ++ w.extractLsb' 8 8 ++ w.extractLsb' 0 8 : Word) =
      w := by
  rw [BitVec.extractLsb'_append_extractLsb'_eq_extractLsb' (by decide),
    BitVec.extractLsb'_append_extractLsb'_eq_extractLsb' (by decide),
    BitVec.extractLsb'_append_extractLsb'_eq_extractLsb' (by decide)]
  exact BitVec.extractLsb'_eq_self

@[simp] theorem readWord_writeWord_same (page : Page) (i : Idx) (w : Word) :
    readWord (writeWord page i w) i = w := by
  have hb : ∀ r, r < 4 → writeWord page i w (4 * i + r) = w.extractLsb' (8 * r) 8 := by
    intro r hr
    have hq : (4 * i.val + r) / 4 = i.val := by omega
    have hr' : (4 * i.val + r) % 4 = r := by omega
    rw [writeWord, if_pos hq, hr']
  have h0 := hb 0 (by decide)
  rw [readWord, hb 3 (by decide), hb 2 (by decide), hb 1 (by decide),
    show 4 * i.val = 4 * i.val + 0 from rfl, h0]
  exact bytes_append w

theorem readWord_writeWord_ne (page : Page) {i j : Idx} (w : Word) (h : j ≠ i) :
    readWord (writeWord page i w) j = readWord page j := by
  have hv : j.val ≠ i.val := fun hv => h (Fin.ext hv)
  have hb : ∀ r, r < 4 → writeWord page i w (4 * j + r) = page (4 * j + r) := by
    intro r hr
    rw [writeWord, if_neg (by omega)]
  have h0 := hb 0 (by decide)
  rw [readWord, hb 3 (by decide), hb 2 (by decide), hb 1 (by decide),
    show 4 * j.val = 4 * j.val + 0 from rfl, h0]
  rfl

/-- The bytes of four that were put together. -/
theorem extract_byte (a b c d : Byte) (r : Nat) (hr : r < 4) :
    (a ++ b ++ c ++ d).extractLsb' (8 * r) 8 =
      if r = 0 then d else if r = 1 then c else if r = 2 then b else a := by
  obtain rfl | rfl | rfl | rfl : r = 0 ∨ r = 1 ∨ r = 2 ∨ r = 3 := by omega
  all_goals
    apply BitVec.eq_of_getLsbD_eq
    intro i hi
    simp only [BitVec.getLsbD_extractLsb', hi, decide_true, Bool.true_and, BitVec.getLsbD_append]
    grind

/-- Storing the word that is there. -/
theorem writeWord_readWord (page : Page) (i : Idx) : writeWord page i (readWord page i) = page := by
  funext k
  rw [writeWord]
  split
  · rename_i hk
    have hr := Nat.mod_lt k (show 0 < 4 by decide)
    have hbyte := extract_byte (page (4 * i + 3)) (page (4 * i + 2)) (page (4 * i + 1))
      (page (4 * i)) (k % 4) hr
    refine hbyte.trans ?_
    split
    · congr 1
      omega
    · split
      · congr 1
        omega
      · split
        · congr 1
          omega
        · congr 1
          omega
  · rfl
theorem writeWord_writeWord (page : Page) (i : Idx) (v w : Word) :
    writeWord (writeWord page i v) i w = writeWord page i w := by
  funext k
  by_cases hk : k / 4 = i.val
  · simp [writeWord, hk]
  · simp [writeWord, hk]

@[simp] theorem readWord_zero (i : Idx) : readWord (fun _ => 0) i = 0 := by
  simp only [readWord]
  decide

end Jos
