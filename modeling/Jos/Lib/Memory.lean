import Jos.Base.StringInstr
import Jos.Mmu

/-!
# `memset` and `memmove` (`lib/string.c`)

The versions in assembly. The `int` and the `size_t` of the arguments are words.
-/

namespace Jos.Memory

/-- The address space and the direction flag. -/
structure Machine where
  mem : Bytes
  df : Bool

namespace Machine

variable (k : Machine)

def cld : Machine := { k with df := false }

def std : Machine := { k with df := true }

/-- `rep movs`. Nothing reads the index registers afterwards. -/
def movs (size : Bytes.Size) (edi esi ecx : Word) : Machine :=
  { k with mem := Bytes.repMovs k.df size ecx.toNat k.mem edi esi }

/-- `rep stos`, with what it leaves in `edi`. -/
def stos (size : Bytes.Size) (edi eax ecx : Word) : Machine × Word :=
  ({ k with mem := Bytes.repStos k.df size eax ecx.toNat k.mem edi },
    Bytes.repIndex k.df size ecx.toNat edi)

end Machine

/-- `(int)p%4 == 0`. -/
def aligned (p : Word) : Bool := p.srem 4 == 0

/-- `memset`. The assembly has `v` in `edi` as an operand that it only reads, so the compiler
returns `edi`, which `rep stos` has moved. -/
def memset (k : Machine) (v c n : Word) : Machine × Word :=
  if n = 0 then (k, v)
  else if aligned v ∧ n % 4 = 0 then
    let c := c &&& 0xFF
    let c := (c <<< 24) ||| (c <<< 16) ||| (c <<< 8) ||| c
    k.cld.stos .dword v c (n / 4)
  else k.cld.stos .byte v c n

/-- `memmove`. -/
def memmove (k : Machine) (dst src n : Word) : Machine × Word :=
  let s := src
  let d := dst
  if s < d ∧ s + n > d then
    let s := s + n
    let d := d + n
    if aligned s ∧ aligned d ∧ n % 4 = 0 then
      ((k.std.movs .dword (d - 4) (s - 4) (n / 4)).cld, dst)
    else ((k.std.movs .byte (d - 1) (s - 1) n).cld, dst)
  else if aligned s ∧ aligned d ∧ n % 4 = 0 then (k.cld.movs .dword d s (n / 4), dst)
  else (k.cld.movs .byte d s n, dst)

/-! ### The blocks -/

variable {dst src n : Word}

/-- The bytes at `dst` are the ones that were at `src`, and the others are the old ones. -/
structure Moved (dst src n : Word) (m m' : Bytes) : Prop where
  copied : ∀ i < n.toNat, m' (dst + BitVec.ofNat 32 i) = m (src + BitVec.ofNat 32 i)
  frame : ∀ a, (∀ i < n.toNat, a ≠ dst + BitVec.ofNat 32 i) → m' a = m a

/-- The bytes at `dst` are the low byte of `c`, and the others are the old ones. -/
structure Filled (dst c n : Word) (m m' : Bytes) : Prop where
  filled : ∀ i < n.toNat, m' (dst + BitVec.ofNat 32 i) = c.setWidth 8
  frame : ∀ a, (∀ i < n.toNat, a ≠ dst + BitVec.ofNat 32 i) → m' a = m a

theorem add_sub_toNat {i : Nat} (hi : i < n.toNat) :
    (dst + BitVec.ofNat 32 i - dst).toNat = i := by
  rw [BitVec.add_comm, BitVec.add_sub_cancel, BitVec.toNat_ofNat]
  omega

theorem le_of_outside {a : Word} (h : ∀ i < n.toNat, a ≠ dst + BitVec.ofNat 32 i) :
    n.toNat ≤ (a - dst).toNat := by
  by_contra hlt
  exact h _ (Nat.not_le.mp hlt) (Bytes.sub_eq_ofNat rfl)

theorem move_moved (dst src n : Word) (m : Bytes) : Moved dst src n m (m.move dst src n.toNat) := by
  refine ⟨fun i hi => ?_, fun a ha => Bytes.move_of_le (le_of_outside ha)⟩
  rw [Bytes.move_of_lt (by rwa [add_sub_toNat hi]), BitVec.add_comm dst, BitVec.add_sub_cancel]

theorem fill_filled (dst c n : Word) (m : Bytes) :
    Filled dst c n m (m.fill dst (c.setWidth 8) n.toNat) :=
  ⟨fun _ hi => Bytes.fill_of_lt (by rwa [add_sub_toNat hi]),
    fun _ ha => Bytes.fill_of_le (le_of_outside ha)⟩

/-- A length that can be moved by words. -/
theorem words_toNat (h : n % 4 = 0) : 4 * (n / 4).toNat = n.toNat := by
  have hmod : n.toNat % 4 = 0 := congrArg BitVec.toNat h
  rw [BitVec.toNat_udiv, show (4 : Word).toNat = 4 from rfl]
  omega

/-- Every byte of the word for `rep stosl` is the low byte of `c`. -/
theorem repeats_dword (c : Word) :
    Bytes.Size.dword.Repeats
      (((c &&& 0xFF) <<< 24) ||| ((c &&& 0xFF) <<< 16) ||| ((c &&& 0xFF) <<< 8) ||| (c &&& 0xFF))
      (c.setWidth 8) := by
  intro i hi
  have hi' : i < 4 := hi
  apply BitVec.eq_of_getLsbD_eq
  intro j hj
  have hmask : ∀ t, (0xFF : Word).getLsbD t = decide (t < 8) := by
    intro t
    rw [show (0xFF : Word) = (BitVec.allOnes 8).setWidth 32 from rfl, BitVec.getLsbD_setWidth,
      BitVec.getLsbD_allOnes]
    grind
  obtain rfl | rfl | rfl | rfl : i = 0 ∨ i = 1 ∨ i = 2 ∨ i = 3 := by omega
  all_goals
    simp only [BitVec.getLsbD_extractLsb', BitVec.getLsbD_or, BitVec.getLsbD_shiftLeft,
      BitVec.getLsbD_and, hmask, BitVec.getLsbD_setWidth, hj, decide_true, Bool.true_and]
    grind

theorem memset_mem (k : Machine) (dst c n : Word) :
    (memset k dst c n).1.mem = k.mem.fill dst (c.setWidth 8) n.toNat := by
  have hrange := Nat.le_of_lt n.isLt
  rw [memset]
  split
  · rename_i hzero
    rw [hzero]
    exact Bytes.fill_zero.symm
  · split
    · rename_i hword
      exact Bytes.repStos_forward (repeats_dword c) (words_toNat hword.2) hrange
    · have hlow : Bytes.Size.byte.Repeats c (c.setWidth 8) := by
        intro i hi
        obtain rfl := Nat.lt_one_iff.mp hi
        rw [Nat.mul_zero, ← BitVec.setWidth_eq_extractLsb' (by decide)]
      exact Bytes.repStos_forward hlow (Nat.one_mul _) hrange

theorem add_length (a n : Word) : a + n = a + BitVec.ofNat 32 n.toNat := by
  rw [BitVec.ofNat_toNat, BitVec.setWidth_eq]

/-- As it is compiled, `memset` returns the end of the block and not `v`. No caller looks. -/
theorem memset_ret (k : Machine) (v c n : Word) : (memset k v c n).2 = v + n := by
  rw [memset, add_length v n]
  split
  · rename_i hzero
    rw [hzero]
    exact (BitVec.add_zero v).symm
  · split
    · rename_i hword
      exact Bytes.repIndex_forward (words_toNat hword.2)
    · exact Bytes.repIndex_forward (Nat.one_mul _)

/-- What the test for an overlap leaves. Its sum does not wrap where it matters. -/
theorem apart_of_not (hs : src.toNat + n.toNat ≤ 4294967296)
    (hd : dst.toNat + n.toNat ≤ 4294967296) (h : ¬(src < dst ∧ src + n > dst)) :
    dst.toNat ≤ src.toNat ∨ src.toNat + n.toNat ≤ dst.toNat := by
  by_contra hboth
  refine h ⟨BitVec.lt_def.mpr (by omega), ?_⟩
  show dst < src + n
  rw [BitVec.lt_def, BitVec.toNat_add]
  omega

/-- The test for an overlap chooses a direction in which no byte is overwritten before it is
read. -/
theorem memmove_mem (k : Machine) (hs : src.toNat + n.toNat ≤ 4294967296)
    (hd : dst.toNat + n.toNat ≤ 4294967296) :
    (memmove k dst src n).1.mem = k.mem.move dst src n.toNat := by
  rw [memmove]
  dsimp only
  split
  · rename_i hover
    rw [add_length dst n, add_length src n]
    split
    · rename_i hword
      exact Bytes.repMovs_backward (words_toNat hword.2.2) hd hover.1
    · exact Bytes.repMovs_backward (Nat.one_mul _) hd hover.1
  · rename_i hover
    have hapart := apart_of_not hs hd hover
    split
    · rename_i hword
      exact Bytes.repMovs_forward (words_toNat hword.2.2) hs hd hapart
    · exact Bytes.repMovs_forward (Nat.one_mul _) hs hd hapart

/-- `memmove` leaves the direction flag clear, as the compiler relies on. -/
theorem memmove_df (k : Machine) (dst src n : Word) : (memmove k dst src n).1.df = false := by
  rw [memmove]
  dsimp only
  split
  · split
    all_goals rfl
  · split
    all_goals rfl

/-- `memmove` and `memset` do what they say, whatever the overlap and the alignment. -/
theorem memmove_memset_correct (k : Machine) :
    (∀ dst src n : Word, src.toNat + n.toNat ≤ 4294967296 → dst.toNat + n.toNat ≤ 4294967296 →
      Moved dst src n k.mem (memmove k dst src n).1.mem ∧ (memmove k dst src n).1.df = false ∧
        (memmove k dst src n).2 = dst) ∧
    ∀ v c n : Word, Filled v c n k.mem (memset k v c n).1.mem := by
  constructor
  · intro dst src n hs hd
    refine ⟨?_, memmove_df k dst src n, ?_⟩
    · rw [memmove_mem k hs hd]
      exact move_moved dst src n k.mem
    · rw [memmove]
      dsimp only
      split
      all_goals
        split
        all_goals rfl
  · intro v c n
    rw [memset_mem]
    exact fill_filled v c n k.mem

/-- Eight bytes, moved by one byte to the end of the address space, and its last byte set. -/
theorem memmove_memset_correct_end :
    Moved 0xFFFFFFF8 0xFFFFFFF7 8 (fun a => a.setWidth 8)
        (memmove ⟨fun a => a.setWidth 8, true⟩ 0xFFFFFFF8 0xFFFFFFF7 8).1.mem ∧
      Filled 0xFFFFFFFF 0x161 1 (fun a => a.setWidth 8)
        (memset ⟨fun a => a.setWidth 8, true⟩ 0xFFFFFFFF 0x161 1).1.mem :=
  have h := memmove_memset_correct ⟨fun a => a.setWidth 8, true⟩
  ⟨(h.1 0xFFFFFFF8 0xFFFFFFF7 8 (by decide) (by decide)).1, h.2 0xFFFFFFFF 0x161 1⟩

/-! ### The versions in C -/

/-- `while (n-- > 0) *d++ = *s++`. -/
def copyUp : Nat → Bytes → Word → Word → Bytes
  | 0, m, _, _ => m
  | n + 1, m, d, s => copyUp n (fun a => if a = d then m s else m a) (d + 1) (s + 1)

/-- `while (n-- > 0) *--d = *--s`. -/
def copyDown : Nat → Bytes → Word → Word → Bytes
  | 0, m, _, _ => m
  | n + 1, m, d, s =>
      let d := d - 1
      let s := s - 1
      copyDown n (fun a => if a = d then m s else m a) d s

/-- `memmove`, where `ASM` is not set. -/
def memmovePlain (m : Bytes) (dst src n : Word) : Bytes :=
  if src < dst ∧ src + n > dst then copyDown n.toNat m (dst + n) (src + n)
  else copyUp n.toNat m dst src

theorem copyUp_eq (n : Nat) (m : Bytes) (d s : Word) :
    copyUp n m d s = Bytes.repMovs false .byte n m d s := by
  induction n generalizing m d s with
  | zero => rfl
  | succ n ih => exact ih _ _ _

theorem copyDown_eq (n : Nat) (m : Bytes) (d s : Word) :
    copyDown n m d s = Bytes.repMovs true .byte n m (d - 1) (s - 1) := by
  induction n generalizing m d s with
  | zero => rfl
  | succ n ih =>
      have hstride : ∀ a : Word, a + Bytes.Size.byte.stride true = a - 1 := by
        intro a
        rw [BitVec.sub_eq_add_neg]
        rfl
      rw [copyDown, ih, Bytes.repMovs, hstride, hstride]
      rfl

/-- The version in assembly does the same as the one in C. -/
theorem memmove_eq_plain (k : Machine) (hs : src.toNat + n.toNat ≤ 4294967296)
    (hd : dst.toNat + n.toNat ≤ 4294967296) :
    (memmove k dst src n).1.mem = memmovePlain k.mem dst src n := by
  rw [memmove_mem k hs hd, memmovePlain]
  split
  · rename_i hover
    rw [copyDown_eq, add_length dst n, add_length src n]
    exact (Bytes.repMovs_backward (Nat.one_mul _) hd hover.1).symm
  · rename_i hover
    rw [copyUp_eq]
    exact (Bytes.repMovs_forward (Nat.one_mul _) hs hd (apart_of_not hs hd hover)).symm

end Jos.Memory
