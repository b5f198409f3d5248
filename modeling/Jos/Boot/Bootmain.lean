import Jos.Mmu
import Mathlib.Logic.Function.Basic

/-!
# The boot loader (`boot/main.c`)

`bootmain` reads the kernel from the disk, whole sectors at a time: what it reads for a
segment starts before it and ends behind it. The part that is not in the image is cleared
afterwards.
-/

namespace Jos.Bootmain

/-- Physical memory. -/
abbrev Mem := Word → Byte

def sectsize : Nat := 512

/-- `ELFHDR`. -/
def elfhdr : Word := 0x10000

def elfMagic : Word := 0x464C457F

/-- `readsect`: the sector with this number comes to the 512 bytes at `dst`. -/
def readsect (disk : Nat → Byte) (dst offset : Word) (m : Mem) : Mem := fun a =>
  if (a - dst).toNat < sectsize then disk (offset.toNat * sectsize + (a - dst).toNat) else m a

/-- The loop of `readseg`; `none` if it does not end. -/
def readsegLoop (disk : Nat → Byte) (endPa : Word) : Nat → Word → Word → Mem → Option Mem
  | 0, _, _, _ => none
  | n + 1, pa, offset, m =>
      if pa < endPa then
        readsegLoop disk endPa n (pa + 512) (offset + 1) (readsect disk pa offset m)
      else some m

/-- `readseg`. After 2^23 rounds `pa` has come back to where it started. -/
def readseg (disk : Nat → Byte) (pa count offset : Word) (m : Mem) : Option Mem :=
  readsegLoop disk (pa + count) 8388609 (pa &&& ~~~511) (offset / 512 + 1) m

def word (m : Mem) (a : Word) : Word := m (a + 3) ++ m (a + 2) ++ m (a + 1) ++ m a

def half (m : Mem) (a : Word) : BitVec 16 := m (a + 1) ++ m a

/-- The loop that clears `n` bytes from `a` on. -/
def clear : Nat → Word → Mem → Mem
  | 0, _, m => m
  | n + 1, a, m => clear n (a + 1) (Function.update m a 0)

/-- The body of the loop, for the program header at `ph`. -/
def loadSegment (disk : Nat → Byte) (ph : Word) (m : Mem) : Option Mem := do
  let m ← readseg disk (word m (ph + 12)) (word m (ph + 20)) (word m (ph + 4)) m
  let pa := word m (ph + 12)
  let filesz := word m (ph + 16)
  let memsz := word m (ph + 20)
  pure (clear (memsz - filesz).toNat (pa + filesz) m)

/-- The loop, for at most `n` headers. -/
def loadSegments (disk : Nat → Byte) (eph : Word) : Nat → Word → Mem → Option Mem
  | 0, _, m => some m
  | n + 1, ph, m =>
      if ph < eph then do
        let m ← loadSegment disk ph m
        loadSegments disk eph n (ph + 32) m
      else some m

/-- `bootmain`: what is in memory at the call of the entry point, or NULL for `bad`. -/
def bootmain (disk : Nat → Byte) (m : Mem) : Option (Option (Mem × Word)) := do
  let m ← readseg disk elfhdr 4096 0 m
  if word m elfhdr ≠ elfMagic then pure none
  else do
    let ph := elfhdr + word m (elfhdr + 28)
    let eph := ph + 32 * (half m (elfhdr + 44)).setWidth 32
    let m ← loadSegments disk eph 65536 ph m
    pure (some (m, word m (elfhdr + 24)))

/-! ### Images -/

/-- A byte of the image, which starts at sector 1. -/
def image (disk : Nat → Byte) (i : Nat) : Byte := disk (sectsize + i)

def imageWord (disk : Nat → Byte) (off : Nat) : Word :=
  image disk (off + 3) ++ image disk (off + 2) ++ image disk (off + 1) ++ image disk off

def imageHalf (disk : Nat → Byte) (off : Nat) : BitVec 16 :=
  image disk (off + 1) ++ image disk off

/-- `struct Proghdr`, as far as it is used. -/
structure Proghdr where
  offset : Word
  pa : Word
  filesz : Word
  memsz : Word
  deriving DecidableEq

def proghdrAt (disk : Nat → Byte) (off : Nat) : Proghdr where
  offset := imageWord disk (off + 4)
  pa := imageWord disk (off + 12)
  filesz := imageWord disk (off + 16)
  memsz := imageWord disk (off + 20)

/-- The `n` headers from an offset on. -/
def proghdrsFrom (disk : Nat → Byte) : Nat → Nat → List Proghdr
  | _, 0 => []
  | off, n + 1 => proghdrAt disk off :: proghdrsFrom disk (off + 32) n

def phoff (disk : Nat → Byte) : Nat := (imageWord disk 28).toNat

def phnum (disk : Nat → Byte) : Nat := (imageHalf disk 44).toNat

def proghdrs (disk : Nat → Byte) : List Proghdr := proghdrsFrom disk (phoff disk) (phnum disk)

namespace Proghdr

/-- The first sector boundary of the segment, and the one behind it. -/
def first (ph : Proghdr) : Nat := ph.pa.toNat / sectsize * sectsize

def last (ph : Proghdr) : Nat := (ph.pa.toNat + ph.memsz.toNat + 511) / sectsize * sectsize

/-- The sectors of the segment contain the address `a`. -/
def Covers (ph : Proghdr) (a : Nat) : Prop := ph.first ≤ a ∧ a < ph.last

/-- The segment can be loaded: it does not wrap, and its sectors are not those of the headers. -/
structure Ok (ph : Proghdr) : Prop where
  fits : ph.filesz ≤ ph.memsz
  aligned : ph.pa.toNat % sectsize = ph.offset.toNat % sectsize
  nowrap : ph.last < 4294967296
  scratch : ∀ a, ph.Covers a → ¬ (elfhdr.toNat ≤ a ∧ a < elfhdr.toNat + 4096)

/-- The segment is in memory. -/
def Loaded (disk : Nat → Byte) (ph : Proghdr) (m : Mem) : Prop :=
  ∀ i < ph.memsz.toNat, m (ph.pa + BitVec.ofNat 32 i) =
    if i < ph.filesz.toNat then image disk (ph.offset.toNat + i) else 0

end Proghdr

/-- An image that `bootmain` can load. -/
structure WellFormed (disk : Nat → Byte) : Prop where
  magic : imageWord disk 0 = elfMagic
  table : phoff disk + 32 * phnum disk ≤ 4096
  ok : ∀ ph ∈ proghdrs disk, ph.Ok
  apart : (proghdrs disk).Pairwise fun a b => ∀ i, a.Covers i → ¬ b.Covers i

section Read

variable {disk : Nat → Byte} {pa endPa offset count a : Word} {m m' : Mem} {n k : Nat}

theorem sector_mask (pa : Word) : (pa &&& ~~~511#32).toNat = pa.toNat / sectsize * sectsize := by
  have hbits : ∀ i < 32, (~~~511#32).getLsbD i = decide (9 ≤ i) := by decide
  have hmask : pa &&& ~~~511#32 = pa >>> 9 <<< 9 := by
    apply BitVec.eq_of_getLsbD_eq
    intro i hi
    rw [BitVec.getLsbD_and, hbits i hi, BitVec.getLsbD_shiftLeft, BitVec.getLsbD_ushiftRight]
    by_cases h9 : 9 ≤ i
    · simp [h9, hi, Nat.not_lt.mpr h9]
    · simp [h9, Nat.not_le.mp h9]
  have hlt := pa.isLt
  rw [hmask, BitVec.toNat_shiftLeft, BitVec.toNat_ushiftRight, Nat.shiftRight_eq_div_pow,
    Nat.shiftLeft_eq, show (2 : Nat) ^ 9 = sectsize from rfl]
  exact Nat.mod_eq_of_lt (Nat.lt_of_le_of_lt (Nat.div_mul_le_self _ _) hlt)

theorem sub_toNat_lt (h : pa.toNat + 512 ≤ 4294967296) :
    (a - pa).toNat < 512 ↔ pa.toNat ≤ a.toNat ∧ a.toNat < pa.toNat + 512 := by
  have ha := a.isLt
  rw [BitVec.toNat_sub]
  omega

/-- From `m` to `m'` the bytes in `[lo, hi)` have come from the disk, from `from` on. -/
def Copied (disk : Nat → Byte) (src lo hi : Nat) (m m' : Mem) : Prop :=
  ∀ a : Word, m' a = if lo ≤ a.toNat ∧ a.toNat < hi then disk (src + (a.toNat - lo)) else m a

/-- `n` sectors are read. -/
theorem readsegLoop_spec (hn : n < k) (hnowrap : pa.toNat + sectsize * n < 4294967296)
    (hend : ∀ j ≤ n, j < n ↔ pa.toNat + sectsize * j < endPa.toNat)
    (hoff : offset.toNat + n < 4294967296) :
    ∃ m', readsegLoop disk endPa k pa offset m = some m' ∧
      Copied disk (offset.toNat * sectsize) pa.toNat (pa.toNat + sectsize * n) m m' := by
  induction n generalizing k pa offset m with
  | zero =>
      obtain ⟨k, rfl⟩ : ∃ l, k = l + 1 := ⟨k - 1, by omega⟩
      have hstop : ¬ pa < endPa := by
        have := hend 0 (Nat.le_refl 0)
        rw [BitVec.lt_def]
        omega
      refine ⟨m, by rw [readsegLoop, if_neg hstop], fun a => ?_⟩
      rw [if_neg (by omega)]
  | succ n ih =>
      obtain ⟨k, rfl⟩ : ∃ l, k = l + 1 := ⟨k - 1, by omega⟩
      simp only [show sectsize = 512 from rfl] at hnowrap hend ih ⊢
      have hmore : pa < endPa := by
        have := hend 0 (Nat.zero_le _)
        rw [BitVec.lt_def]
        omega
      have hpa : (pa + 512).toNat = pa.toNat + 512 := by
        rw [BitVec.toNat_add, show (512 : Word).toNat = 512 from rfl]
        omega
      have hoffset : (offset + 1).toNat = offset.toNat + 1 := by
        rw [BitVec.toNat_add, show (1 : Word).toNat = 1 from rfl]
        omega
      obtain ⟨m', hrun, hcopied⟩ := @ih (pa + 512) (offset + 1) (readsect disk pa offset m) k
        (by omega) (by omega)
        (fun j hj => by have := hend (j + 1) (by omega); rw [hpa]; omega) (by omega)
      refine ⟨m', by rw [readsegLoop, if_pos hmore, hrun], fun a => ?_⟩
      rw [hcopied a, hpa, hoffset, readsect]
      rw [show sectsize = 512 from rfl]
      have hsector : pa.toNat + 512 + 512 * n = pa.toNat + 512 * (n + 1) := by omega
      have hfirst : (a - pa).toNat < 512 ↔ pa.toNat ≤ a.toNat ∧ a.toNat < pa.toNat + 512 :=
        sub_toNat_lt (by omega)
      rw [hsector]
      by_cases hlater : pa.toNat + 512 ≤ a.toNat
      · have hle : pa.toNat ≤ a.toNat := Nat.le_of_add_right_le hlater
        have hidx : (offset.toNat + 1) * 512 + (a.toNat - (pa.toNat + 512)) =
            offset.toNat * 512 + (a.toNat - pa.toNat) := by omega
        have hnot : ¬ (a - pa).toNat < 512 := fun h =>
          absurd (hfirst.mp h).2 (Nat.not_lt.mpr hlater)
        simp only [hlater, hle, true_and, hidx, if_neg hnot]
      · have hnot : ¬ (pa.toNat + 512 ≤ a.toNat ∧ a.toNat < pa.toNat + 512 * (n + 1)) :=
          fun h => hlater h.1
        rw [if_neg hnot]
        by_cases hin : pa.toNat ≤ a.toNat
        · have hlt : a.toNat < pa.toNat + 512 := Nat.not_le.mp hlater
          have hwhole : a.toNat < pa.toNat + 512 * (n + 1) := hsector ▸ Nat.lt_add_right _ hlt
          rw [if_pos (hfirst.mpr ⟨hin, hlt⟩), if_pos ⟨hin, hwhole⟩,
            BitVec.toNat_sub_of_le (BitVec.le_def.mpr hin)]
        · rw [if_neg fun h => hin (hfirst.mp h).1, if_neg fun h => hin h.1]

/-- `readseg` reads whole sectors. -/
theorem readseg_spec {ph : Proghdr} (nowrap : ph.last < 4294967296) :
    ∃ m', readseg disk ph.pa ph.memsz ph.offset m = some m' ∧
      Copied disk ((ph.offset.toNat / 512 + 1) * sectsize) ph.first ph.last m m' := by
  have hsect : sectsize = 512 := rfl
  have hfirst : (ph.pa &&& ~~~511#32).toNat = ph.first := sector_mask ph.pa
  rw [Proghdr.last, hsect] at nowrap
  have hend : (ph.pa + ph.memsz).toNat = ph.pa.toNat + ph.memsz.toNat := by
    rw [BitVec.toNat_add]
    omega
  have hdiv : (ph.offset / 512).toNat = ph.offset.toNat / 512 := BitVec.toNat_udiv
  have hoffset : (ph.offset / 512 + 1).toNat = ph.offset.toNat / 512 + 1 := by
    have hlt := ph.offset.isLt
    rw [BitVec.toNat_add, hdiv, show (1 : Word).toNat = 1 from rfl]
    omega
  have hoff := ph.offset.isLt
  obtain ⟨n, hn⟩ : ∃ n, ph.last = ph.first + 512 * n := by
    refine ⟨(ph.pa.toNat + ph.memsz.toNat + 511) / 512 - ph.pa.toNat / 512, ?_⟩
    rw [Proghdr.last, Proghdr.first, hsect]
    omega
  have hlast : ph.last = (ph.pa.toNat + ph.memsz.toNat + 511) / 512 * 512 := rfl
  have hlow : ph.first = ph.pa.toNat / 512 * 512 := rfl
  obtain ⟨m', hrun, hcopied⟩ := @readsegLoop_spec disk (ph.pa &&& ~~~511#32) (ph.pa + ph.memsz)
    (ph.offset / 512 + 1) m n 8388609 (by omega) (by rw [hfirst, hsect]; omega)
    (fun j hj => by rw [hfirst, hend, hsect]; omega) (by rw [hoffset]; omega)
  refine ⟨m', hrun, ?_⟩
  rwa [hoffset, hfirst, hsect, ← hn] at hcopied

theorem clear_spec (hn : a.toNat + n ≤ 4294967296) (b : Word) :
    clear n a m b = if a.toNat ≤ b.toNat ∧ b.toNat < a.toNat + n then 0 else m b := by
  induction n generalizing a m with
  | zero =>
      rw [if_neg (by omega)]
      rfl
  | succ n ih =>
      have hb := b.isLt
      rw [clear]
      by_cases hlast : n = 0
      · subst hlast
        by_cases hab : b = a
        · rw [hab, if_pos ⟨Nat.le_refl _, by omega⟩, clear, Function.update_self]
        · have hne : b.toNat ≠ a.toNat := fun h => hab (BitVec.eq_of_toNat_eq h)
          rw [if_neg (by omega), clear, Function.update_of_ne hab]
      · have hnext : (a + 1).toNat = a.toNat + 1 := by
          rw [BitVec.toNat_add, show (1 : Word).toNat = 1 from rfl]
          omega
        rw [ih (by omega), hnext]
        by_cases hab : b = a
        · rw [hab, if_neg (by omega), if_pos ⟨Nat.le_refl _, by omega⟩, Function.update_self]
        · have hne : b.toNat ≠ a.toNat := fun h => hab (BitVec.eq_of_toNat_eq h)
          rw [Function.update_of_ne hab]
          exact if_congr (by omega) rfl rfl

/-- The first 4096 bytes of the image are at `ELFHDR`. -/
def Scratch (disk : Nat → Byte) (m : Mem) : Prop :=
  ∀ i < 4096, m (elfhdr + BitVec.ofNat 32 i) = image disk i

theorem elfhdr_add {i : Nat} (hi : i < 4096) :
    (elfhdr + BitVec.ofNat 32 i).toNat = elfhdr.toNat + i := by
  have helf : elfhdr.toNat = 65536 := rfl
  rw [BitVec.toNat_add, BitVec.toNat_ofNat, helf]
  omega

theorem Scratch.word {off : Nat} (h : Scratch disk m) (hoff : off + 4 ≤ 4096) :
    word m (elfhdr + BitVec.ofNat 32 off) = imageWord disk off := by
  have hbyte : ∀ j < 4, m (elfhdr + BitVec.ofNat 32 off + BitVec.ofNat 32 j) =
      image disk (off + j) := by
    intro j hj
    rw [BitVec.add_assoc, ← BitVec.ofNat_add]
    exact h (off + j) (by omega)
  rw [Bootmain.word, imageWord, ← h off (by omega), ← hbyte 1 (by decide), ← hbyte 2 (by decide),
    ← hbyte 3 (by decide)]
  rfl

end Read

section Load

variable {disk : Nat → Byte} {m m' : Mem} {off n k : Nat} {ph : Proghdr}

/-- The fields of a program header. -/
theorem Scratch.proghdr (h : Scratch disk m) (table : off + 32 ≤ 4096) :
    let p := elfhdr + BitVec.ofNat 32 off
    Bootmain.word m (p + 4) = (proghdrAt disk off).offset ∧
    Bootmain.word m (p + 12) = (proghdrAt disk off).pa ∧
      Bootmain.word m (p + 16) = (proghdrAt disk off).filesz ∧
      Bootmain.word m (p + 20) = (proghdrAt disk off).memsz := by
  have hfield : ∀ j, j + 4 ≤ 32 →
      Bootmain.word m (elfhdr + BitVec.ofNat 32 off + BitVec.ofNat 32 j) =
        imageWord disk (off + j) := by
    intro j hj
    rw [BitVec.add_assoc, ← BitVec.ofNat_add]
    exact h.word (by omega)
  exact ⟨hfield 4 (by decide), hfield 12 (by decide), hfield 16 (by decide), hfield 20 (by decide)⟩

/-- Memory outside the sectors of the segment is not changed. -/
def Frame (covers : Nat → Prop) (m m' : Mem) : Prop := ∀ a : Word, ¬ covers a.toNat → m' a = m a

theorem Scratch.frame {covers : Nat → Prop} (h : Scratch disk m) (hframe : Frame covers m m')
    (scratch : ∀ a, covers a → ¬ (elfhdr.toNat ≤ a ∧ a < elfhdr.toNat + 4096)) :
    Scratch disk m' := by
  intro i hi
  rw [hframe _ fun hin => scratch _ hin (by rw [elfhdr_add hi]; omega)]
  exact h i hi

/-- The bytes of a segment are in its sectors. -/
theorem Proghdr.Ok.covers (ok : ph.Ok) {i : Nat} (hi : i < ph.memsz.toNat) :
    (ph.pa + BitVec.ofNat 32 i).toNat = ph.pa.toNat + i ∧ ph.Covers (ph.pa.toNat + i) := by
  have nowrap := ok.nowrap
  have hlast : ph.last = (ph.pa.toNat + ph.memsz.toNat + 511) / 512 * 512 := rfl
  have hfirst : ph.first = ph.pa.toNat / 512 * 512 := rfl
  refine ⟨?_, by omega, by omega⟩
  rw [BitVec.toNat_add, BitVec.toNat_ofNat]
  omega

/-- A segment is loaded. -/
theorem loadSegment_spec (h : Scratch disk m) (table : off + 32 ≤ 4096)
    (ok : (proghdrAt disk off).Ok) :
    ∃ m', loadSegment disk (elfhdr + BitVec.ofNat 32 off) m = some m' ∧ Scratch disk m' ∧
      Frame (proghdrAt disk off).Covers m m' ∧ (proghdrAt disk off).Loaded disk m' := by
  obtain ⟨hoffset, hpa, -, hmemsz⟩ := h.proghdr table
  obtain ⟨m₁, hrun, hcopied⟩ := @readseg_spec disk m _ ok.nowrap
  have hframe₁ : Frame (proghdrAt disk off).Covers m m₁ := fun a ha =>
    (hcopied a).trans (if_neg ha)
  have h₁ := h.frame hframe₁ ok.scratch
  obtain ⟨-, hpa₁, hfilesz₁, hmemsz₁⟩ := h₁.proghdr table
  obtain ⟨fits, aligned, nowrap, scratch⟩ := id ok
  generalize proghdrAt disk off = ph at *
  have hsect : sectsize = 512 := rfl
  have hlast : ph.last = (ph.pa.toNat + ph.memsz.toNat + 511) / 512 * 512 := rfl
  have hfirst : ph.first = ph.pa.toNat / 512 * 512 := rfl
  have hfits := BitVec.le_def.mp fits
  have hsize : (ph.memsz - ph.filesz).toNat = ph.memsz.toNat - ph.filesz.toNat :=
    BitVec.toNat_sub_of_le fits
  have hstart : (ph.pa + ph.filesz).toNat = ph.pa.toNat + ph.filesz.toNat := by
    rw [BitVec.toNat_add]
    omega
  have hclear := @clear_spec (ph.pa + ph.filesz) m₁ (ph.memsz - ph.filesz).toNat (by omega)
  rw [hstart, hsize] at hclear
  have hframe : Frame ph.Covers m
      (clear (ph.memsz.toNat - ph.filesz.toNat) (ph.pa + ph.filesz) m₁) := by
    intro a ha
    rw [hclear, if_neg, hframe₁ a ha]
    rintro ⟨hle, hlt⟩
    exact ha ⟨by omega, by omega⟩
  refine ⟨_, ?_, h.frame hframe scratch, hframe, fun i hi => ?_⟩
  · rw [loadSegment, hpa, hmemsz, hoffset, hrun]
    dsimp only [Option.bind_eq_bind, Option.bind_some]
    rw [hpa₁, hfilesz₁, hmemsz₁, hsize]
    rfl
  · obtain ⟨hva, hcovers⟩ := ok.covers hi
    rw [hclear, hva]
    by_cases hfile : i < ph.filesz.toNat
    · have hbyte := (hcopied _).trans (if_pos (hva.symm ▸ hcovers))
      rw [if_neg (by omega), if_pos hfile, hbyte, hva, image]
      refine congrArg disk ?_
      rw [hsect] at aligned ⊢
      omega
    · rw [if_pos (by omega), if_neg hfile]

/-- The loop over the headers. -/
theorem loadSegments_spec (h : Scratch disk m) (hk : n ≤ k) (table : off + 32 * n ≤ 4096)
    (ok : ∀ ph ∈ proghdrsFrom disk off n, ph.Ok)
    (apart : (proghdrsFrom disk off n).Pairwise fun a b => ∀ i, a.Covers i → ¬ b.Covers i) :
    ∃ m', loadSegments disk (elfhdr + BitVec.ofNat 32 (off + 32 * n)) k
        (elfhdr + BitVec.ofNat 32 off) m = some m' ∧ Scratch disk m' ∧
      Frame (fun a => ∃ ph ∈ proghdrsFrom disk off n, ph.Covers a) m m' ∧
      ∀ ph ∈ proghdrsFrom disk off n, ph.Loaded disk m' := by
  induction n generalizing m off k with
  | zero =>
      have hend : ¬ elfhdr + BitVec.ofNat 32 off < elfhdr + BitVec.ofNat 32 (off + 32 * 0) := by
        rw [BitVec.lt_def]
        exact Nat.lt_irrefl _
      refine ⟨m, ?_, h, fun _ _ => rfl, fun ph hph => nomatch hph⟩
      cases k with
      | zero => rfl
      | succ k => rw [loadSegments, if_neg hend]
  | succ n ih =>
      obtain ⟨k, rfl⟩ : ∃ l, k = l + 1 := ⟨k - 1, by omega⟩
      have hmore : elfhdr + BitVec.ofNat 32 off <
          elfhdr + BitVec.ofNat 32 (off + 32 * (n + 1)) := by
        rw [BitVec.lt_def, BitVec.toNat_add, BitVec.toNat_add, BitVec.toNat_ofNat,
          BitVec.toNat_ofNat, show elfhdr.toNat = 65536 from rfl]
        omega
      rw [proghdrsFrom] at ok apart ⊢
      obtain ⟨hfirst, hlater⟩ := List.pairwise_cons.mp apart
      obtain ⟨m₁, hrun, h₁, hframe, hloaded⟩ :=
        loadSegment_spec h (by omega) (ok _ List.mem_cons_self)
      obtain ⟨m', hrest, h', hframe', hloaded'⟩ := @ih m₁ (off + 32) k h₁ (by omega) (by omega)
        (fun ph hph => ok ph (List.mem_cons_of_mem _ hph)) hlater
      refine ⟨m', ?_, h', fun a ha => ?_, fun ph hph => ?_⟩
      · rw [loadSegments, if_pos hmore, hrun]
        dsimp only [Option.bind_eq_bind, Option.bind_some]
        rw [← hrest, show off + 32 + 32 * n = off + 32 * (n + 1) by omega, BitVec.ofNat_add off 32,
          BitVec.add_assoc]
        rfl
      · rw [hframe' a fun hin => ha ?_, hframe a fun hin => ha ⟨_, List.mem_cons_self, hin⟩]
        obtain ⟨ph, hph, hin⟩ := hin
        exact ⟨ph, List.mem_cons_of_mem _ hph, hin⟩
      · rcases List.mem_cons.mp hph with rfl | hph
        · -- the later segments have other sectors
          intro i hi
          obtain ⟨hva, hcovers⟩ := (ok _ List.mem_cons_self).covers hi
          rw [hframe' _ fun hin => ?_]
          · exact hloaded i hi
          · obtain ⟨ph', hph', hin'⟩ := hin
            rw [hva] at hin'
            exact hfirst ph' hph' _ hcovers hin'
        · exact hloaded' ph hph

/-- `bootmain` loads the segments of the image and calls its entry point. The code of the loader
at 0x7C00 and its stack below that are not part of the memory `m`: a segment there would overwrite
what runs. -/
theorem bootmain_loads (wf : WellFormed disk) (m : Mem) :
    ∃ m', bootmain disk m = some (some (m', imageWord disk 24)) ∧
      ∀ ph ∈ proghdrs disk, ph.Loaded disk m' := by
  obtain ⟨magic, table, ok, apart⟩ := wf
  have hpage : (⟨0, elfhdr, 0, 4096⟩ : Proghdr).last = 69632 := by decide
  obtain ⟨m₁, hread, hcopied⟩ := @readseg_spec disk m ⟨0, elfhdr, 0, 4096⟩ (by rw [hpage]; decide)
  have h₁ : Scratch disk m₁ := by
    intro i hi
    have hva := elfhdr_add hi
    have helf : elfhdr.toNat = 65536 := rfl
    have hfirst : (⟨0, elfhdr, 0, 4096⟩ : Proghdr).first = 65536 := by decide
    rw [hcopied, hva, hpage, hfirst, if_pos (by omega), image]
    refine congrArg disk ?_
    rw [helf, Nat.add_sub_cancel_left]
    rfl
  have hzero : elfhdr + BitVec.ofNat 32 0 = elfhdr := BitVec.add_zero elfhdr
  have hmagic := h₁.word (show 0 + 4 ≤ 4096 by decide)
  rw [hzero, magic] at hmagic
  have hphoff : word m₁ (elfhdr + 28) = imageWord disk 28 := h₁.word (show 28 + 4 ≤ 4096 by decide)
  have hphnum : half m₁ (elfhdr + 44) = imageHalf disk 44 := by
    rw [half, imageHalf, ← h₁ 44 (by decide), ← h₁ 45 (by decide)]
    rfl
  have hph : elfhdr + imageWord disk 28 = elfhdr + BitVec.ofNat 32 (phoff disk) := by
    rw [phoff, BitVec.ofNat_toNat, BitVec.setWidth_eq]
  have heph : elfhdr + imageWord disk 28 + 32 * (imageHalf disk 44).setWidth 32 =
      elfhdr + BitVec.ofNat 32 (phoff disk + 32 * phnum disk) := by
    have hsize : (32 : Word) * (imageHalf disk 44).setWidth 32 =
        BitVec.ofNat 32 (32 * phnum disk) := by
      apply BitVec.eq_of_toNat_eq
      have hlt := (imageHalf disk 44).isLt
      rw [BitVec.toNat_mul, BitVec.toNat_setWidth, BitVec.toNat_ofNat, phnum,
        show (32 : Word).toNat = 32 from rfl]
      omega
    rw [hph, hsize, add_ofNat]
  obtain ⟨m', hload, h', -, hloaded⟩ := loadSegments_spec (k := 65536) h₁
    (Nat.le_of_lt (imageHalf disk 44).isLt) table ok apart
  have hentry : word m' (elfhdr + 24) = imageWord disk 24 := h'.word (show 24 + 4 ≤ 4096 by decide)
  have hread' : readseg disk elfhdr 4096 0 m = some m₁ := hread
  refine ⟨m', ?_, hloaded⟩
  rw [bootmain, hread']
  dsimp only [Option.bind_eq_bind, Option.bind_some]
  rw [if_neg (not_not.mpr hmagic), hphoff, hphnum, heph, hph]
  have hload' : loadSegments disk (elfhdr + BitVec.ofNat 32 (phoff disk + 32 * phnum disk)) 65536
      (elfhdr + BitVec.ofNat 32 (phoff disk)) m₁ = some m' := hload
  rw [hload']
  dsimp only [Option.bind_some]
  rw [hentry]
  rfl

end Load

/-! ### A disk -/

/-- The header of an image with two segments: 3 bytes of the file and 5 zeros at 0x100004, and 1
byte and 3 zeros at 0x101205. -/
def header : List Byte :=
  [0x7F, 0x45, 0x4C, 0x46] ++ List.replicate 20 0 ++ [0x0C, 0, 0x10, 0, 52, 0, 0, 0] ++
    List.replicate 12 0 ++ [2, 0, 0, 0, 0, 0, 0, 0] ++
    [1, 0, 0, 0, 0x04, 0x02, 0, 0, 0, 0, 0, 0, 0x04, 0, 0x10, 0, 3, 0, 0, 0, 8, 0, 0, 0] ++
    List.replicate 8 0 ++
    [1, 0, 0, 0, 0x05, 0x04, 0, 0, 0, 0, 0, 0, 0x05, 0x12, 0x10, 0, 1, 0, 0, 0, 4, 0, 0, 0]

/-- The disk: `AA` is the byte 0x204 of the image and `BB` its byte 0x405, and there is more behind
its segments. -/
def smallDisk (i : Nat) : Byte :=
  if i < 1024 then header.getD (i - 512) 0
  else if i = 1028 then 0xAA
  else if i = 1541 then 0xBB
  else 0xEE

theorem bootmain_loads_small : ∃ m',
    bootmain smallDisk (fun _ => 0xFF) = some (some (m', 0x10000C)) ∧
      m' 0x100004 = 0xAA ∧ m' 0x100007 = 0 ∧ m' 0x101205 = 0xBB ∧ m' 0x101206 = 0 := by
  have hph : proghdrs smallDisk = [⟨0x204, 0x100004, 3, 8⟩, ⟨0x405, 0x101205, 1, 4⟩] := by decide
  have hfirst₁ : (⟨0x204, 0x100004, 3, 8⟩ : Proghdr).first = 1048576 := by decide
  have hlast₁ : (⟨0x204, 0x100004, 3, 8⟩ : Proghdr).last = 1049088 := by decide
  have hfirst₂ : (⟨0x405, 0x101205, 1, 4⟩ : Proghdr).first = 1053184 := by decide
  have helf : elfhdr.toNat = 65536 := rfl
  have wf : WellFormed smallDisk := by
    refine ⟨by decide, by decide, ?_, ?_⟩
    · rw [hph]
      simp only [List.forall_mem_cons, List.not_mem_nil, false_imp_iff, implies_true, and_true]
      constructor
      · refine ⟨by decide, by decide, by decide, ?_⟩
        rintro a ⟨hlo, -⟩ ⟨-, hhi⟩
        omega
      · refine ⟨by decide, by decide, by decide, ?_⟩
        rintro a ⟨hlo, -⟩ ⟨-, hhi⟩
        omega
    · rw [hph, List.pairwise_pair]
      rintro i ⟨-, hhi⟩ ⟨hlo, -⟩
      omega
  obtain ⟨m', hrun, hloaded⟩ := bootmain_loads wf fun _ => 0xFF
  have hseg₁ := hloaded ⟨0x204, 0x100004, 3, 8⟩ (by rw [hph]; simp)
  have hseg₂ := hloaded ⟨0x405, 0x101205, 1, 4⟩ (by rw [hph]; simp)
  exact ⟨m', hrun, hseg₁ 0 (by decide), hseg₁ 3 (by decide), hseg₂ 0 (by decide),
    hseg₂ 1 (by decide)⟩

end Jos.Bootmain
