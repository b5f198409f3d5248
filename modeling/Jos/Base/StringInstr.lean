import Jos.Base.Bytes

/-!
# String instructions

`movs` and `stos` with the prefix `rep`. A repeated move of operands of any size is the move of the
whole block at once, if it goes in the direction that does not overwrite what is still to be read.
-/

namespace Bytes

/-- The size of an operand. -/
inductive Size
  | byte
  | dword

/-- The number of its bytes. -/
def Size.bytes : Size → Nat
  | .byte => 1
  | .dword => 4

/-- What an instruction adds to the index registers. The direction flag is `df`. -/
def Size.stride (size : Size) (df : Bool) : BitVec 32 :=
  if df then -BitVec.ofNat 32 size.bytes else BitVec.ofNat 32 size.bytes

/-- `movsb` and `movsl`, without the index registers. -/
def movs (m : Bytes) : Size → BitVec 32 → BitVec 32 → Bytes
  | .byte, edi, esi => fun a => if a = edi then m esi else m a
  | .dword, edi, esi => m.store edi (m.load esi)

/-- `stosb` and `stosl`, without the index register. -/
def stos (m : Bytes) : Size → BitVec 32 → BitVec 32 → Bytes
  | .byte, edi, eax => fun a => if a = edi then eax.setWidth 8 else m a
  | .dword, edi, eax => m.store edi eax

/-- `rep movs`. The count is `ecx`. -/
def repMovs (df : Bool) (size : Size) : Nat → Bytes → BitVec 32 → BitVec 32 → Bytes
  | 0, m, _, _ => m
  | ecx + 1, m, edi, esi =>
      repMovs df size ecx (m.movs size edi esi) (edi + size.stride df) (esi + size.stride df)

/-- `rep stos`. The count is `ecx`. -/
def repStos (df : Bool) (size : Size) (eax : BitVec 32) : Nat → Bytes → BitVec 32 → Bytes
  | 0, m, _ => m
  | ecx + 1, m, edi => repStos df size eax ecx (m.stos size edi eax) (edi + size.stride df)

/-- An index register after a repeated instruction. -/
def repIndex (df : Bool) (size : Size) : Nat → BitVec 32 → BitVec 32
  | 0, i => i
  | ecx + 1, i => repIndex df size ecx (i + size.stride df)

/-- The `n` bytes at `s`, moved to `d` at once. -/
def move (m : Bytes) (d s : BitVec 32) (n : Nat) : Bytes := fun a =>
  if (a - d).toNat < n then m (s + (a - d)) else m a

/-- The `n` bytes at `d`, set to `b`. -/
def fill (m : Bytes) (d : BitVec 32) (b : BitVec 8) (n : Nat) : Bytes := fun a =>
  if (a - d).toNat < n then b else m a

variable {m : Bytes} {d s a : BitVec 32} {b : BitVec 8} {i j n : Nat}

/-! ### One operand -/

theorem sub_eq_ofNat (h : (a - d).toNat = i) : a = d + BitVec.ofNat 32 i := by
  rw [← h, BitVec.ofNat_toNat, BitVec.setWidth_eq, BitVec.add_comm, BitVec.sub_add_cancel]

theorem load_byte (hi : i < 4) :
    (m.load a).extractLsb' (8 * i) 8 = m (a + BitVec.ofNat 32 i) := by
  rw [load]
  obtain rfl | rfl | rfl | rfl : i = 0 ∨ i = 1 ∨ i = 2 ∨ i = 3 := by omega
  case' inl => rw [BitVec.add_zero]
  all_goals
    apply BitVec.eq_of_getLsbD_eq
    intro j hj
    simp only [BitVec.getLsbD_extractLsb', hj, decide_true, Bool.true_and, BitVec.getLsbD_append]
    grind

theorem sub_lt_byte : (a - d).toNat < Size.byte.bytes ↔ a = d := by
  constructor
  · intro h
    rw [@sub_eq_ofNat d a 0 (Nat.lt_one_iff.mp h), BitVec.add_zero]
  · rintro rfl
    rw [BitVec.sub_self]
    decide

theorem movs_eq (size : Size) : m.movs size d s = m.move d s size.bytes := by
  funext a
  cases size with
  | byte =>
      rw [movs, move]
      dsimp only
      by_cases h : a = d
      · rw [if_pos h, if_pos (sub_lt_byte.mpr h), h, BitVec.sub_self, BitVec.add_zero]
      · rw [if_neg h, if_neg (mt sub_lt_byte.mp h)]
  | dword =>
      rw [movs, store, move]
      by_cases h : InWord d a
      · rw [if_pos h, if_pos (show _ < Size.dword.bytes from h), load_byte h, BitVec.ofNat_toNat,
          BitVec.setWidth_eq]
      · rw [if_neg h, if_neg (show ¬_ < Size.dword.bytes from h)]

/-- All bytes of the operand are `b`. -/
def Size.Repeats (size : Size) (eax : BitVec 32) (b : BitVec 8) : Prop :=
  ∀ i < size.bytes, eax.extractLsb' (8 * i) 8 = b

theorem stos_eq {size : Size} {eax : BitVec 32} (h : size.Repeats eax b) :
    m.stos size d eax = m.fill d b size.bytes := by
  funext a
  cases size with
  | byte =>
      have hb : eax.setWidth 8 = b := by
        rw [← h 0 (by decide), Nat.mul_zero, ← BitVec.setWidth_eq_extractLsb' (by decide)]
      rw [stos, fill]
      dsimp only
      by_cases ha : a = d
      · rw [if_pos ha, if_pos (sub_lt_byte.mpr ha), hb]
      · rw [if_neg ha, if_neg (mt sub_lt_byte.mp ha)]
  | dword =>
      rw [stos, store, fill]
      by_cases ha : InWord d a
      · rw [if_pos ha, if_pos (show _ < Size.dword.bytes from ha), h _ ha]
      · rw [if_neg ha, if_neg (show ¬_ < Size.dword.bytes from ha)]

/-! ### Blocks -/

theorem move_of_lt (h : (a - d).toNat < n) : m.move d s n a = m (s + (a - d)) := if_pos h

theorem move_of_le (h : n ≤ (a - d).toNat) : m.move d s n a = m a := if_neg (Nat.not_lt.mpr h)

theorem fill_of_lt (h : (a - d).toNat < n) : m.fill d b n a = b := if_pos h

theorem fill_of_le (h : n ≤ (a - d).toNat) : m.fill d b n a = m a := if_neg (Nat.not_lt.mpr h)

theorem move_zero : m.move d s 0 = m := funext fun _ => move_of_le (Nat.zero_le _)

theorem fill_zero : m.fill d b 0 = m := funext fun _ => fill_of_le (Nat.zero_le _)

/-- Where an address is, seen from `d` and from `i` bytes behind it. -/
theorem sub_add_ofNat (hi : i < 4294967296) :
    (i ≤ (a - d).toNat ∧ (a - (d + BitVec.ofNat 32 i)).toNat + i = (a - d).toNat) ∨
      ((a - d).toNat < i ∧
        (a - (d + BitVec.ofNat 32 i)).toNat + i = (a - d).toNat + 4294967296) := by
  rw [← BitVec.sub_sub]
  generalize a - d = off
  have hrange := off.isLt
  rw [BitVec.toNat_sub, BitVec.toNat_ofNat, Nat.mod_eq_of_lt hi]
  omega

/-- The source of an address, seen from `d` and from `i` bytes behind it. -/
theorem source_add (a d s i : BitVec 32) : s + i + (a - (d + i)) = s + (a - d) := by
  rw [← BitVec.sub_sub, BitVec.add_assoc, BitVec.add_comm i, BitVec.sub_add_cancel]

/-- The second block may be moved after the first one, if the first one does not overwrite it. -/
theorem move_append (hi : i < 4294967296) (hn : i + j ≤ 4294967296)
    (hread : ∀ k < j, i ≤ (s + BitVec.ofNat 32 (i + k) - d).toNat) :
    (m.move d s i).move (d + BitVec.ofNat 32 i) (s + BitVec.ofNat 32 i) j = m.move d s (i + j) := by
  funext a
  obtain ⟨hle, heq⟩ | ⟨hlt, heq⟩ := @sub_add_ofNat d a i hi
  · by_cases hin : (a - d).toNat < i + j
    · have hsrc := hread ((a - d).toNat - i) (by omega)
      rw [Nat.add_sub_cancel' hle, BitVec.ofNat_toNat, BitVec.setWidth_eq] at hsrc
      rw [move_of_lt (by omega), source_add, move_of_le hsrc, move_of_lt hin]
    · rw [move_of_le (by omega), move_of_le hle, move_of_le (by omega)]
  · rw [move_of_le (by omega), move_of_lt hlt, move_of_lt (by omega)]

/-- The first block may be moved after the second one, if the second one does not overwrite it. -/
theorem move_prepend (hi : i < 4294967296)
    (hread : ∀ k < i, j ≤ (s + BitVec.ofNat 32 k - (d + BitVec.ofNat 32 i)).toNat) :
    (m.move (d + BitVec.ofNat 32 i) (s + BitVec.ofNat 32 i) j).move d s i = m.move d s (i + j) := by
  funext a
  obtain ⟨hle, heq⟩ | ⟨hlt, heq⟩ := @sub_add_ofNat d a i hi
  · rw [move_of_le hle]
    by_cases hin : (a - d).toNat < i + j
    · rw [move_of_lt (by omega), source_add, move_of_lt hin]
    · rw [move_of_le (by omega), move_of_le (by omega)]
  · have hsrc := hread (a - d).toNat hlt
    rw [BitVec.ofNat_toNat, BitVec.setWidth_eq] at hsrc
    rw [move_of_lt hlt, move_of_le hsrc, move_of_lt (by omega)]

theorem fill_append (hi : i < 4294967296) (hn : i + j ≤ 4294967296) :
    (m.fill d b i).fill (d + BitVec.ofNat 32 i) b j = m.fill d b (i + j) := by
  funext a
  obtain ⟨hle, heq⟩ | ⟨hlt, heq⟩ := @sub_add_ofNat d a i hi
  · by_cases hin : (a - d).toNat < i + j
    · rw [fill_of_lt (by omega), fill_of_lt hin]
    · rw [fill_of_le (by omega), fill_of_le hle, fill_of_le (by omega)]
  · rw [fill_of_le (by omega), fill_of_lt hlt, fill_of_lt (by omega)]

/-! ### Repeated instructions -/

theorem toNat_add_ofNat (h : a.toNat + i < 4294967296) :
    (a + BitVec.ofNat 32 i).toNat = a.toNat + i := by
  rw [BitVec.toNat_add, BitVec.toNat_ofNat]
  omega

/-- Upwards, with `off` bytes moved already: the source is above the destination, or ends below
it. -/
theorem repMovs_up {size : Size} {off ecx : Nat} (hn : off + size.bytes * ecx = n)
    (hs : s.toNat + n ≤ 4294967296) (hd : d.toNat + n ≤ 4294967296)
    (h : d.toNat ≤ s.toNat ∨ s.toNat + n ≤ d.toNat) :
    repMovs false size ecx (m.move d s off) (d + BitVec.ofNat 32 off) (s + BitVec.ofNat 32 off) =
      m.move d s n := by
  induction ecx generalizing off with
  | zero =>
      obtain rfl : off = n := by simpa using hn
      rfl
  | succ ecx ih =>
      rw [Nat.mul_succ] at hn
      have hread : ∀ k < size.bytes, off ≤ (s + BitVec.ofNat 32 (off + k) - d).toNat := by
        intro k hk
        rw [BitVec.toNat_sub, toNat_add_ofNat (by omega)]
        omega
      by_cases hoff : off < 4294967296
      · have hnext : ∀ x : BitVec 32, x + BitVec.ofNat 32 off + size.stride false =
            x + BitVec.ofNat 32 (off + size.bytes) := by
          intro x
          rw [Size.stride, if_neg Bool.false_ne_true, BitVec.ofNat_add, BitVec.add_assoc]
        rw [repMovs, movs_eq, move_append hoff (by omega) hread, hnext, hnext]
        exact ih (by omega)
      · -- there is nothing left to move
        have hsize : 0 < size.bytes := by cases size <;> decide
        omega

/-- Downwards, with the last `off` bytes moved already: the source is below the destination. -/
theorem repMovs_down {size : Size} {off ecx : Nat} (hn : size.bytes * ecx + off = n)
    (hd : d.toNat + n ≤ 4294967296) (h : s.toNat < d.toNat) :
    repMovs true size ecx
        (m.move (d + BitVec.ofNat 32 (size.bytes * ecx)) (s + BitVec.ofNat 32 (size.bytes * ecx))
          off)
        (d + BitVec.ofNat 32 (size.bytes * ecx) - BitVec.ofNat 32 size.bytes)
        (s + BitVec.ofNat 32 (size.bytes * ecx) - BitVec.ofNat 32 size.bytes) =
      m.move d s n := by
  induction ecx generalizing off with
  | zero =>
      obtain rfl : off = n := by simpa using hn
      rw [repMovs, Nat.mul_zero, BitVec.add_zero, BitVec.add_zero]
  | succ ecx ih =>
      rw [Nat.mul_succ] at hn
      have hback : ∀ x : BitVec 32, x + BitVec.ofNat 32 (size.bytes * (ecx + 1)) =
          x + BitVec.ofNat 32 (size.bytes * ecx) + BitVec.ofNat 32 size.bytes := by
        intro x
        rw [Nat.mul_succ, BitVec.ofNat_add, BitVec.add_assoc]
      have hstride : ∀ x : BitVec 32, x + size.stride true = x - BitVec.ofNat 32 size.bytes := by
        intro x
        rw [Size.stride, if_pos rfl, BitVec.sub_eq_add_neg]
      have hsize : size.bytes < 4294967296 := by cases size <;> decide
      have hread : ∀ k < size.bytes,
          off ≤ (s + BitVec.ofNat 32 (size.bytes * ecx) + BitVec.ofNat 32 k -
            (d + BitVec.ofNat 32 (size.bytes * ecx) + BitVec.ofNat 32 size.bytes)).toNat := by
        intro k hk
        rcases Nat.eq_zero_or_pos off with rfl | hoff
        · exact Nat.zero_le _
        · have hs₁ := @toNat_add_ofNat s (size.bytes * ecx) (by omega)
          have hd₁ := @toNat_add_ofNat d (size.bytes * ecx) (by omega)
          have hs₂ := @toNat_add_ofNat (s + BitVec.ofNat 32 (size.bytes * ecx)) k (by omega)
          have hd₂ := @toNat_add_ofNat (d + BitVec.ofNat 32 (size.bytes * ecx)) size.bytes
            (by omega)
          rw [BitVec.toNat_sub, hs₂, hd₂]
          omega
      rw [repMovs, hback, hback, BitVec.add_sub_cancel, BitVec.add_sub_cancel, movs_eq,
        move_prepend hsize hread, hstride, hstride]
      exact ih (by omega)

/-- Upwards, from the first operand on. -/
theorem repMovs_forward {size : Size} {ecx : Nat} (hn : size.bytes * ecx = n)
    (hs : s.toNat + n ≤ 4294967296) (hd : d.toNat + n ≤ 4294967296)
    (h : d.toNat ≤ s.toNat ∨ s.toNat + n ≤ d.toNat) :
    repMovs false size ecx m d s = m.move d s n := by
  have hup := @repMovs_up m d s n size 0 ecx ((Nat.zero_add _).trans hn) hs hd h
  rwa [move_zero, BitVec.add_zero, BitVec.add_zero] at hup

/-- Downwards, from the last operand on. -/
theorem repMovs_backward {size : Size} {ecx : Nat} (hn : size.bytes * ecx = n)
    (hd : d.toNat + n ≤ 4294967296) (h : s.toNat < d.toNat) :
    repMovs true size ecx m (d + BitVec.ofNat 32 n - BitVec.ofNat 32 size.bytes)
        (s + BitVec.ofNat 32 n - BitVec.ofNat 32 size.bytes) =
      m.move d s n := by
  have hdown := @repMovs_down m d s n size 0 ecx hn hd h
  rwa [move_zero, hn] at hdown

/-- With `off` bytes set already. -/
theorem repStos_up {size : Size} {eax : BitVec 32} {off ecx : Nat} (hb : size.Repeats eax b)
    (hn : off + size.bytes * ecx = n) (hn' : n ≤ 4294967296) :
    repStos false size eax ecx (m.fill d b off) (d + BitVec.ofNat 32 off) = m.fill d b n := by
  induction ecx generalizing off with
  | zero =>
      obtain rfl : off = n := by simpa using hn
      rfl
  | succ ecx ih =>
      rw [Nat.mul_succ] at hn
      have hsize : 0 < size.bytes := by cases size <;> decide
      have hnext : d + BitVec.ofNat 32 off + size.stride false =
          d + BitVec.ofNat 32 (off + size.bytes) := by
        rw [Size.stride, if_neg Bool.false_ne_true, BitVec.ofNat_add, BitVec.add_assoc]
      rw [repStos, stos_eq hb, fill_append (by omega) (by omega), hnext]
      exact ih (by omega)

theorem repStos_forward {size : Size} {eax : BitVec 32} {ecx : Nat} (hb : size.Repeats eax b)
    (hn : size.bytes * ecx = n) (hn' : n ≤ 4294967296) :
    repStos false size eax ecx m d = m.fill d b n := by
  have hup := @repStos_up m d b n size eax 0 ecx hb ((Nat.zero_add _).trans hn) hn'
  rwa [fill_zero, BitVec.add_zero] at hup

/-- Upwards, the index register ends behind the block. -/
theorem repIndex_forward {size : Size} {ecx : Nat} (hn : size.bytes * ecx = n) :
    repIndex false size ecx d = d + BitVec.ofNat 32 n := by
  subst hn
  induction ecx generalizing d with
  | zero => rw [repIndex, Nat.mul_zero, BitVec.add_zero]
  | succ ecx ih =>
      rw [repIndex, ih, Size.stride, if_neg Bool.false_ne_true, BitVec.add_assoc, ← BitVec.ofNat_add,
        Nat.mul_succ, Nat.add_comm size.bytes]

end Bytes
