import Jos.Boot.Kva
import Jos.Boot.Load

/-!
# Program images (`inc/elf.h`, `load_icode`)

A program is linked into the kernel as an ELF image. `load_icode` reads its headers and its
segments there, through the page directory of the new environment, whose upper half is the
kernel's. What it does with the image is what `loadIcode` does with the segments that the
program headers describe; from this follows what is in memory afterwards.
-/

namespace Jos

open Prog

namespace Elf

def elfProgLoad : Word := 1

/-! ### The code -/

/-- A `uint32_t` in memory. -/
def loadWord (pgdir : Nat) (va : Word) : Pmap Word := do
  let b₀ ← kernelLoad pgdir va
  let b₁ ← kernelLoad pgdir (va + 1)
  let b₂ ← kernelLoad pgdir (va + 2)
  let b₃ ← kernelLoad pgdir (va + 3)
  pure (b₃ ++ b₂ ++ b₁ ++ b₀)

/-- A `uint16_t`. -/
def loadHalf (pgdir : Nat) (va : Word) : Pmap (BitVec 16) := do
  let b₀ ← kernelLoad pgdir va
  let b₁ ← kernelLoad pgdir (va + 1)
  pure (b₁ ++ b₀)

/-- The loop of `memmove` that goes upwards. -/
def moveUp (pgdir : Nat) : Word → Word → Nat → Pmap Unit
  | _, _, 0 => pure ()
  | dst, src, n + 1 => do
      let b ← kernelLoad pgdir src
      kernelStore pgdir dst b
      moveUp pgdir (dst + 1) (src + 1) n

/-- The loop that goes downwards. -/
def moveDown (pgdir : Nat) (dst src : Word) : Nat → Pmap Unit
  | 0 => pure ()
  | n + 1 => do
      let b ← kernelLoad pgdir (src + BitVec.ofNat 32 n)
      kernelStore pgdir (dst + BitVec.ofNat 32 n) b
      moveDown pgdir dst src n

def memmove (pgdir : Nat) (dst src n : Word) : Pmap Unit :=
  if src < dst ∧ src + n > dst then moveDown pgdir dst src n.toNat
  else moveUp pgdir dst src n.toNat

/-- The body of the loop of `load_icode`, for the program header at `ph`. -/
def loadProghdr (pgdir : Nat) (binary ph : Word) : Pmap Unit := do
  let type ← loadWord pgdir ph
  when (type = elfProgLoad) do
    let filesz ← loadWord pgdir (ph + 16)
    let memsz ← loadWord pgdir (ph + 20)
    if filesz > memsz then panic .envCreate
    else do
      let va ← loadWord pgdir (ph + 8)
      let offset ← loadWord pgdir (ph + 4)
      regionAlloc pgdir va memsz
      memmove pgdir va (binary + offset) filesz
      Kva.memset pgdir (va + filesz) (memsz - filesz).toNat

/-- The loop, for at most `n` headers. -/
def loadProghdrs (pgdir : Nat) (binary eph : Word) : Nat → Word → Pmap Unit
  | 0, _ => pure ()
  | n + 1, ph =>
      if ph < eph then do
        loadProghdr pgdir binary ph
        loadProghdrs pgdir binary eph n (ph + 32)
      else pure ()

/-- `load_icode`. Between the two `lcr3` the page directory of `e` is loaded. -/
def loadIcode (e : EnvIdx) (binary : Word) : KM Unit := do
  let k ← get
  let magic ← pmap (loadWord k.kernPgdir binary)
  if magic ≠ elfMagic then panic .envCreate
  else do
    let phoff ← pmap (loadWord k.kernPgdir (binary + 28))
    let phnum ← pmap (loadHalf k.kernPgdir (binary + 44))
    let ph := binary + phoff
    let eph := ph + 32 * phnum.setWidth 32
    let pgdir ← paddrPgdir e
    pmap (loadProghdrs pgdir binary eph 65536 ph)
    let entry ← pmap (loadWord pgdir (binary + 24))
    modify fun k => k.setTf e { (k.envs e).tf with eip := entry }
    pmap (regionAlloc pgdir (ustacktop - 4096) 4096)

/-! ### Images -/

/-- The `uint32_t` at an offset of the image. -/
def wordAt (image : List Byte) (off : Nat) : Word :=
  image.getD (off + 3) 0 ++ image.getD (off + 2) 0 ++ image.getD (off + 1) 0 ++ image.getD off 0

def halfAt (image : List Byte) (off : Nat) : BitVec 16 := image.getD (off + 1) 0 ++ image.getD off 0

/-- `struct Proghdr`, as far as it is used. -/
structure Proghdr where
  type : Word
  offset : Word
  va : Word
  filesz : Word
  memsz : Word
  deriving DecidableEq, Repr

def proghdrAt (image : List Byte) (off : Nat) : Proghdr where
  type := wordAt image off
  offset := wordAt image (off + 4)
  va := wordAt image (off + 8)
  filesz := wordAt image (off + 16)
  memsz := wordAt image (off + 20)

/-- The `n` headers from an offset on. -/
def proghdrsFrom (image : List Byte) : Nat → Nat → List Proghdr
  | _, 0 => []
  | off, n + 1 => proghdrAt image off :: proghdrsFrom image (off + 32) n

def phoff (image : List Byte) : Nat := (wordAt image 28).toNat

def phnum (image : List Byte) : Nat := (halfAt image 44).toNat

def proghdrs (image : List Byte) : List Proghdr := proghdrsFrom image (phoff image) (phnum image)

def entry (image : List Byte) : Word := wordAt image 24

/-- A byte of the segment is on the page with number `n`. -/
def Proghdr.Touches (ph : Proghdr) (n : Nat) : Prop :=
  ∃ i < ph.memsz.toNat, (ph.va.toNat + i) / 4096 = n

/-- The segment can be loaded: the image has what it says, it is not empty, and it ends below
the page of the stack. -/
structure Proghdr.Ok (image : List Byte) (ph : Proghdr) : Prop where
  file : ph.offset.toNat + ph.filesz.toNat ≤ image.length
  fits : ph.filesz ≤ ph.memsz
  nonempty : ph.memsz ≠ 0
  below : ph.va.toNat + ph.memsz.toNat ≤ ustacktop.toNat - pgsize

/-- An image that `load_icode` can load. -/
structure WellFormed (image : List Byte) : Prop where
  header : 52 ≤ image.length
  table : phoff image + 32 * phnum image ≤ image.length
  magic : wordAt image 0 = elfMagic
  ok : ∀ ph ∈ proghdrs image, ph.type = elfProgLoad → ph.Ok image
  apart : ((proghdrs image).filter (·.type = elfProgLoad)).Pairwise
    fun a b => ∀ n, a.Touches n → ¬ b.Touches n

/-- The image is part of the kernel, at the address `binary`. -/
structure Linked (L : Layout) (image : List Byte) (binary : Word) : Prop where
  above : kernbase ≤ binary
  fits : binary.toNat + image.length < 4294967296
  bytes : ∀ i < image.length, ∃ pde pte,
    L.boot.translate L.kern (binary + BitVec.ofNat 32 i) = some (pde, pte) ∧
      ¬ L.owned (pgnum pte) ∧
      L.boot.mem (pgnum pte) (pgoff (binary + BitVec.ofNat 32 i)) = image.getD i 0

/-- The segment of a loadable header. -/
def Proghdr.segment (image : List Byte) (ph : Proghdr) : Option Segment :=
  if ph.type = elfProgLoad then
    if below : ph.va.toNat + ph.memsz.toNat ≤ ustacktop.toNat - pgsize then
      some ⟨ph.va, ph.memsz, (image.drop ph.offset.toNat).take ph.filesz.toNat, below⟩
    else none
  else none

def segments (image : List Byte) : List Segment := (proghdrs image).filterMap (·.segment image)

/-- The program in an image. -/
def program (image : List Byte) : Binary := ⟨wordAt image 0, entry image, segments image⟩

section Read

variable {L : Layout} {dirs : EnvIdx → Option Nat} {p : Phys} {e : EnvIdx} {d off n : Nat}
  {image : List Byte} {binary va : Word}

/-- In the address space of `d` the image is at `binary`. -/
def Sees (image : List Byte) (binary : Word) (d : Nat) (p : Phys) : Prop :=
  ∀ i < image.length, p.byteAt d (binary + BitVec.ofNat 32 i) = some (image.getD i 0)

/-- In the kernel's half all page directories lead to the same pages. -/
theorem translate_kern (h : p.Inv L dirs none) (hi : userPdes ≤ (pdx va).val)
    (hdir : p.word d (pdx va) = L.boot.word L.kern (pdx va)) :
    p.translate d va = L.boot.translate L.kern va := by
  rw [Phys.translate, Phys.translate, hdir]
  dsimp only
  by_cases hp : L.boot.word L.kern (pdx va) &&& pteP = 0
  · rw [if_pos hp, if_pos hp]
  · have hword : p.word (pgnum (L.boot.word L.kern (pdx va))) (ptx va) =
        L.boot.word (pgnum (L.boot.word L.kern (pdx va))) (ptx va) :=
      L.boot.word_congr (h.tables.frozen _ (L.table_reserved _ hi hp).2)
    rw [hword]

theorem Linked.pdx (h : Linked L image binary) {i : Nat} (hi : i < image.length) :
    userPdes ≤ (pdx (binary + BitVec.ofNat 32 i)).val ∧
      Jos.pdx (binary + BitVec.ofNat 32 i) ≠ Jos.pdx uvpt := by
  have habove := BitVec.le_def.mp h.above
  have hfits := h.fits
  have hbase : kernbase.toNat = 4026531840 := by decide
  have huvpt : (Jos.pdx uvpt).val = 957 := by decide
  have hval : (Jos.pdx (binary + BitVec.ofNat 32 i)).val = (binary.toNat + i) / 4194304 := by
    rw [pdx_val, BitVec.toNat_add, BitVec.toNat_ofNat]
    congr 1
    omega
  refine ⟨?_, fun heq => ?_⟩
  · rw [hval, userPdes]
    omega
  · rw [heq, huvpt] at hval
    omega

theorem Linked.sees_of (h : Linked L image binary) (hp : p.Inv L dirs none)
    (hdir : ∀ i : Idx, userPdes ≤ i.val → i ≠ Jos.pdx uvpt → p.word d i = L.boot.word L.kern i) :
    Sees image binary d p := by
  intro i hi
  obtain ⟨hlow, hne⟩ := h.pdx hi
  obtain ⟨pde, pte, walk, hres, hbyte⟩ := h.bytes i hi
  rw [Phys.byteAt, translate_kern hp hlow (hdir _ hlow hne), walk, Option.map_some,
    hp.tables.frozen _ hres, hbyte]

/-- The image is in the address space of every environment. -/
theorem Linked.sees (h : Linked L image binary) (hp : p.Inv L dirs none) (hd : dirs e = some d) :
    Sees image binary d p :=
  h.sees_of hp fun i hlow hne => hp.tables.kernHalf e d i hd hlow hne

theorem Linked.sees_kern (h : Linked L image binary) (hp : p.Inv L dirs none) :
    Sees image binary L.kern p :=
  h.sees_of hp fun _ _ _ => L.boot.word_congr (hp.tables.frozen L.kern L.kern_reserved)

theorem Sees.load (h : Sees image binary d p) (hoff : off < image.length) :
    kernelLoad d (binary + BitVec.ofNat 32 off) p = .ret (image.getD off 0) p := by
  have hload := kernelLoad_run p d (binary + BitVec.ofNat 32 off)
  rwa [h off hoff] at hload

theorem Sees.loadWord (h : Sees image binary d p) (hoff : off + 4 ≤ image.length) :
    loadWord d (binary + BitVec.ofNat 32 off) p = .ret (wordAt image off) p := by
  have h₁ := h.load (show off + 1 < image.length by omega)
  have h₂ := h.load (show off + 2 < image.length by omega)
  have h₃ := h.load (show off + 3 < image.length by omega)
  rw [← add_ofNat] at h₁ h₂ h₃
  rw [Elf.loadWord, bind_ret _ (h.load (by omega))]
  refine (bind_ret _ h₁).trans ?_
  refine (bind_ret _ h₂).trans ?_
  exact (bind_ret _ h₃).trans rfl

theorem Sees.loadHalf (h : Sees image binary d p) (hoff : off + 2 ≤ image.length) :
    loadHalf d (binary + BitVec.ofNat 32 off) p = .ret (halfAt image off) p := by
  have h₁ := h.load (show off + 1 < image.length by omega)
  rw [← add_ofNat] at h₁
  rw [Elf.loadHalf, bind_ret _ (h.load (by omega))]
  exact (bind_ret _ h₁).trans rfl

end Read

section Copy

variable {L : Layout} {dirs : EnvIdx → Option Nat} {p : Phys} {e : EnvIdx} {d off n : Nat}
  {image : List Byte} {binary dst : Word}

theorem kernelStores_append (a b : List Byte) :
    kernelStores d dst (a ++ b) = (do
      kernelStores d dst a
      kernelStores d (dst + BitVec.ofNat 32 a.length) b) := by
  induction a generalizing dst with
  | nil =>
      rw [List.nil_append, List.length_nil, show dst + BitVec.ofNat 32 0 = dst from
        BitVec.add_zero dst]
      rfl
  | cons x a ih =>
      have hnext : dst + BitVec.ofNat 32 (x :: a).length = dst + 1 + BitVec.ofNat 32 a.length := by
        rw [List.length_cons, Nat.add_comm]
        exact (add_ofNat dst 1 a.length).symm
      funext p
      rw [List.cons_append, kernelStores, kernelStores, ih, hnext]
      exact (bind_bind _ _ _).symm

/-- Copying from the image is storing what the image has. -/
theorem moveUp_eq (h : p.Inv L dirs none) (hd : dirs e = some d) (linked : Linked L image binary)
    (file : off + n ≤ image.length) (below : dst.toNat + n ≤ utop.toNat) :
    moveUp d dst (binary + BitVec.ofNat 32 off) n p =
      kernelStores d dst ((image.drop off).take n) p := by
  induction n generalizing p dst off with
  | zero => rw [List.take_zero, moveUp, kernelStores]
  | succ n ih =>
      have hlt : off < image.length := by omega
      have hutop : utop.toNat = 4005560320 := by decide
      have hva : dst < utop := by
        rw [BitVec.lt_def]
        omega
      have hnext : (dst + 1).toNat = dst.toNat + 1 := by
        rw [BitVec.toNat_add, show (1 : Word).toNat = 1 from rfl]
        omega
      rw [moveUp, bind_ret _ ((linked.sees h hd).load hlt), List.drop_eq_getElem_cons hlt,
        List.take_succ_cons, kernelStores, List.getD_eq_getElem _ _ hlt]
      apply bind_congr_of_wp
      refine wp_imp (h.kernelStore_below hd hva _) fun _ q hq => ?_
      rw [show binary + BitVec.ofNat 32 off + 1 = binary + BitVec.ofNat 32 (off + 1) from
        add_ofNat binary off 1]
      exact ih hq (by omega) (by omega)

/-- The image is above the segments, so `memmove` goes upwards. -/
theorem memmove_eq (h : p.Inv L dirs none) (hd : dirs e = some d) (linked : Linked L image binary)
    {offset filesz : Word} (file : offset.toNat + filesz.toNat ≤ image.length)
    (below : dst.toNat + filesz.toNat ≤ utop.toNat) :
    memmove d dst (binary + offset) filesz p =
      kernelStores d dst ((image.drop offset.toNat).take filesz.toNat) p := by
  have habove := BitVec.le_def.mp linked.above
  have hfits := linked.fits
  have hbase : kernbase.toNat = 4026531840 := by decide
  have hutop : utop.toNat = 4005560320 := by decide
  have hsrc : ¬ (binary + offset < dst ∧ binary + offset + filesz > dst) := by
    rintro ⟨hlt, -⟩
    rw [BitVec.lt_def, BitVec.toNat_add] at hlt
    omega
  rw [memmove, if_neg hsrc]
  have hoffset : offset = BitVec.ofNat 32 offset.toNat := by
    rw [BitVec.ofNat_toNat, BitVec.setWidth_eq]
  have heq : moveUp d dst (binary + BitVec.ofNat 32 offset.toNat) filesz.toNat p = _ :=
    moveUp_eq h hd linked file below
  rwa [← hoffset] at heq

/-- The fields of a program header of the image. -/
theorem Sees.proghdr (h : Sees image binary d p) (table : off + 32 ≤ image.length) :
    let ph := binary + BitVec.ofNat 32 off
    Elf.loadWord d ph p = .ret (proghdrAt image off).type p ∧
      Elf.loadWord d (ph + 4) p = .ret (proghdrAt image off).offset p ∧
      Elf.loadWord d (ph + 8) p = .ret (proghdrAt image off).va p ∧
      Elf.loadWord d (ph + 16) p = .ret (proghdrAt image off).filesz p ∧
      Elf.loadWord d (ph + 20) p = .ret (proghdrAt image off).memsz p := by
  have hfield : ∀ j, j + 4 ≤ 32 →
      Elf.loadWord d (binary + BitVec.ofNat 32 off + BitVec.ofNat 32 j) p =
        .ret (wordAt image (off + j)) p := by
    intro j hj
    rw [add_ofNat]
    exact h.loadWord (by omega)
  exact ⟨h.loadWord (by omega), hfield 4 (by decide), hfield 8 (by decide), hfield 16 (by decide),
    hfield 20 (by decide)⟩

/-- A header that is not loadable is skipped. -/
theorem loadProghdr_skip (h : p.Inv L dirs none) (hd : dirs e = some d)
    (linked : Linked L image binary) (table : off + 32 ≤ image.length)
    (type : (proghdrAt image off).type ≠ elfProgLoad) :
    loadProghdr d binary (binary + BitVec.ofNat 32 off) p = .ret () p := by
  rw [loadProghdr, bind_ret _ ((linked.sees h hd).proghdr table).1, when_neg _ type]
  rfl

/-- A loadable header is loaded as the segment that it describes. -/
theorem loadProghdr_load (h : p.Inv L dirs none) (hd : dirs e = some d)
    (linked : Linked L image binary) (table : off + 32 ≤ image.length)
    (type : (proghdrAt image off).type = elfProgLoad) (ok : (proghdrAt image off).Ok image)
    {segment : Segment} (hseg : (proghdrAt image off).segment image = some segment) :
    loadProghdr d binary (binary + BitVec.ofNat 32 off) p = loadSegment d segment p := by
  obtain ⟨htype, hoffset, hva, hfilesz, hmemsz⟩ := (linked.sees h hd).proghdr table
  generalize proghdrAt image off = ph at type ok hseg htype hoffset hva hfilesz hmemsz
  obtain ⟨file, fits, -, below⟩ := ok
  have hutop : utop.toNat = 4005560320 := by decide
  have hstack : ustacktop.toNat = 4005552128 := by decide
  have hfits := BitVec.le_def.mp fits
  rw [Proghdr.segment, if_pos type, dif_pos below] at hseg
  obtain rfl := Option.some.inj hseg
  have hlen : ((image.drop ph.offset.toNat).take ph.filesz.toNat).length = ph.filesz.toNat := by
    rw [List.length_take, List.length_drop]
    omega
  have hsize : (ph.memsz - ph.filesz).toNat = ph.memsz.toNat - ph.filesz.toNat :=
    BitVec.toNat_sub_of_le fits
  have hend : ph.va + BitVec.ofNat 32 ph.filesz.toNat = ph.va + ph.filesz := by
    rw [BitVec.ofNat_toNat, BitVec.setWidth_eq]
  have hstop : roundup (ph.va + ph.memsz) ≤ utop := by
    rw [BitVec.le_def, roundup_add_toNat (by omega)]
    omega
  rw [loadProghdr, bind_ret _ htype, when_pos _ type, bind_ret _ hfilesz, bind_ret _ hmemsz,
    if_neg (BitVec.not_lt.mpr fits), bind_ret _ hva, bind_ret _ hoffset, loadSegment]
  dsimp only
  rw [hlen, if_neg (Nat.not_lt.mpr hfits), kernelStores_append, hlen, hend]
  refine bind_congr_of_wp (wp_imp (h.regionAllocFrom hd hstop) fun _ q hq => ?_)
  rw [Kva.memset, hsize]
  exact bind_congr_run _ (memmove_eq hq hd linked file (by omega))

end Copy

/-! ### The loop over the headers -/

section Headers

variable {L : Layout} {dirs : EnvIdx → Option Nat} {p : Phys} {e : EnvIdx} {d off n : Nat}
  {image : List Byte} {binary : Word} {ph : Proghdr} {segment : Segment}

theorem Proghdr.Ok.exists_segment (h : ph.Ok image) (type : ph.type = elfProgLoad) :
    ∃ segment, ph.segment image = some segment ∧ segment.va = ph.va ∧ segment.memsz = ph.memsz ∧
      segment.data = (image.drop ph.offset.toNat).take ph.filesz.toNat := by
  rw [Proghdr.segment, if_pos type, dif_pos h.below]
  exact ⟨_, rfl, rfl, rfl, rfl⟩

theorem Proghdr.segment_none (type : ph.type ≠ elfProgLoad) : ph.segment image = none := by
  rw [Proghdr.segment, if_neg type]

theorem Proghdr.segment_some (h : ph.segment image = some segment) :
    ph.type = elfProgLoad ∧ segment.va = ph.va ∧ segment.memsz = ph.memsz ∧
      segment.data = (image.drop ph.offset.toNat).take ph.filesz.toNat := by
  rw [Proghdr.segment] at h
  split at h
  · rename_i type
    split at h
    · obtain rfl := Option.some.inj h
      exact ⟨type, rfl, rfl, rfl⟩
    · simp at h
  · simp at h

theorem Proghdr.Ok.fits_data (h : ph.Ok image) (hseg : ph.segment image = some segment) :
    segment.Fits := by
  obtain ⟨-, -, hmemsz, hdata⟩ := Proghdr.segment_some hseg
  have hfits := BitVec.le_def.mp h.fits
  rw [Segment.Fits, hmemsz, hdata, List.length_take]
  omega

/-- A page of the segment is one that a byte of it is on. -/
theorem Proghdr.Ok.touches_iff (h : ph.Ok image) (hseg : ph.segment image = some segment)
    (m : Nat) : segment.Page m ↔ ph.Touches m := by
  obtain ⟨-, hva, hmemsz, -⟩ := Proghdr.segment_some hseg
  have hpos : 0 < ph.memsz.toNat := by
    rw [Nat.pos_iff_ne_zero]
    exact fun hz => h.nonempty (BitVec.eq_of_toNat_eq hz)
  rw [Segment.Page, Segment.firstPage, Segment.lastPage, hva, hmemsz, Proghdr.Touches]
  constructor
  · rintro ⟨hlo, hhi⟩
    by_cases hfirst : m = ph.va.toNat / 4096
    · exact ⟨0, hpos, by omega⟩
    · exact ⟨m * 4096 - ph.va.toNat, by omega, by omega⟩
  · rintro ⟨i, hi, rfl⟩
    omega

/-- The loop does with the headers what `loadSegments` does with the segments. -/
theorem loadProghdrs_eq (h : p.Inv L dirs none) (hd : dirs e = some d)
    (linked : Linked L image binary) {fuel : Nat} (hfuel : n ≤ fuel)
    (table : off + 32 * n ≤ image.length)
    (ok : ∀ ph ∈ proghdrsFrom image off n, ph.type = elfProgLoad → ph.Ok image) :
    loadProghdrs d binary (binary + BitVec.ofNat 32 (off + 32 * n)) fuel
        (binary + BitVec.ofNat 32 off) p =
      loadSegments d ((proghdrsFrom image off n).filterMap (·.segment image)) p := by
  have hfits := linked.fits
  have hnat : ∀ i, i ≤ image.length → (binary + BitVec.ofNat 32 i).toNat = binary.toNat + i := by
    intro i hi
    rw [BitVec.toNat_add, BitVec.toNat_ofNat]
    omega
  induction n generalizing p off fuel with
  | zero =>
      have hend : ¬ binary + BitVec.ofNat 32 off < binary + BitVec.ofNat 32 (off + 32 * 0) := by
        rw [BitVec.lt_def]
        exact Nat.lt_irrefl _
      cases fuel with
      | zero => rfl
      | succ fuel =>
          rw [loadProghdrs, if_neg hend]
          rfl
  | succ n ih =>
      obtain ⟨fuel, rfl⟩ : ∃ m, fuel = m + 1 := ⟨fuel - 1, by omega⟩
      have hlt : binary + BitVec.ofNat 32 off < binary + BitVec.ofNat 32 (off + 32 * (n + 1)) := by
        rw [BitVec.lt_def, hnat off (by omega), hnat _ table]
        omega
      have hnext : off + 32 * (n + 1) = off + 32 + 32 * n := by omega
      have hrest : ∀ {q : Phys}, q.Inv L dirs none →
          loadProghdrs d binary (binary + BitVec.ofNat 32 (off + 32 * (n + 1))) fuel
              (binary + BitVec.ofNat 32 off + 32) q =
            loadSegments d ((proghdrsFrom image (off + 32) n).filterMap (·.segment image)) q := by
        intro q hq
        rw [hnext, show binary + BitVec.ofNat 32 off + 32 = binary + BitVec.ofNat 32 (off + 32) from
          add_ofNat binary off 32]
        exact ih hq (by omega) (by omega) fun ph hph => ok ph (List.mem_cons_of_mem _ hph)
      rw [loadProghdrs, if_pos hlt, proghdrsFrom]
      by_cases type : (proghdrAt image off).type = elfProgLoad
      · have hok := ok _ List.mem_cons_self type
        obtain ⟨segment, hseg, -⟩ := hok.exists_segment type
        rw [List.filterMap_cons_some hseg, loadSegments,
          bind_congr_run _ (loadProghdr_load h hd linked (by omega) type hok hseg)]
        refine bind_congr_of_wp (wp_mono (loadSegment_spec h hd (hok.fits_data hseg)) ?_
          (fun _ _ _ => trivial) fun _ _ => trivial)
        rintro _ q ⟨hq, -⟩
        exact hrest hq
      · rw [List.filterMap_cons_none (Proghdr.segment_none type),
          bind_ret _ (loadProghdr_skip h hd linked (by omega) type)]
        exact hrest h

end Headers

section Load

variable {L : Layout} {k k' : Kernel} {e : EnvIdx} {d : Nat} {image : List Byte} {binary : Word}

theorem WellFormed.loadable (wf : WellFormed image) : (program image).Loadable := by
  refine ⟨wf.magic, fun segment hsegment => ?_⟩
  obtain ⟨ph, hph, hseg⟩ := List.mem_filterMap.mp hsegment
  exact (wf.ok ph hph (Proghdr.segment_some hseg).1).fits_data hseg

/-- `load_icode` loads the program of the image. -/
theorem loadIcode_eq (h : MemInv L k) (hd : k.dirs e = some d) (linked : Linked L image binary)
    (wf : WellFormed image) : loadIcode e binary k = Jos.loadIcode e (program image) k := by
  have hheader := wf.header
  have hkern : k.kernPgdir = L.kern := h.kern
  have hsees := linked.sees_kern h.phys
  rw [← hkern] at hsees
  have hzero : binary + BitVec.ofNat 32 0 = binary := BitVec.add_zero binary
  have hmagic := hsees.loadWord (show 0 + 4 ≤ image.length by omega)
  rw [hzero, wf.magic] at hmagic
  have hphoff := hsees.loadWord (show 28 + 4 ≤ image.length by omega)
  have hphnum := hsees.loadHalf (show 44 + 2 ≤ image.length by omega)
  have hpgdir : paddrPgdir e k = .ret d k := by
    have hpg : (k.envs e).pgdir = some d := hd
    rw [paddrPgdir, get_bind, hpg]
    rfl
  have hph : binary + wordAt image 28 = binary + BitVec.ofNat 32 (phoff image) := by
    rw [phoff, BitVec.ofNat_toNat, BitVec.setWidth_eq]
  have heph : binary + wordAt image 28 + 32 * (halfAt image 44).setWidth 32 =
      binary + BitVec.ofNat 32 (phoff image + 32 * phnum image) := by
    have hsize : (32 : Word) * (halfAt image 44).setWidth 32 =
        BitVec.ofNat 32 (32 * phnum image) := by
      apply BitVec.eq_of_toNat_eq
      rw [BitVec.toNat_mul, BitVec.toNat_setWidth, BitVec.toNat_ofNat, phnum,
        show (32 : Word).toNat = 32 from rfl]
      have := (halfAt image 44).isLt
      omega
    rw [hph, hsize, add_ofNat]
  have hnum : phnum image ≤ 65536 := Nat.le_of_lt (halfAt image 44).isLt
  have hsegments : loadProghdrs d binary
      (binary + wordAt image 28 + 32 * (halfAt image 44).setWidth 32) 65536
        (binary + wordAt image 28) k.phys = loadSegments d (program image).segments k.phys := by
    rw [heph, hph]
    exact loadProghdrs_eq h.phys hd linked hnum wf.table wf.ok
  have hread : ∀ {va w : Word}, loadWord k.kernPgdir va k.phys = .ret w k.phys →
      pmap (loadWord k.kernPgdir va) k = .ret w k := fun hw => pmap_ret hw
  have hread₂ : pmap (loadHalf k.kernPgdir (binary + 44)) k = .ret (halfAt image 44) k :=
    pmap_ret hphnum
  have hload : pmap (loadProghdrs d binary
      (binary + wordAt image 28 + 32 * (halfAt image 44).setWidth 32) 65536
        (binary + wordAt image 28)) k = pmap (loadSegments d (program image).segments) k := by
    rw [pmap, pmap, zoom, zoom, hsegments]
  rw [loadIcode, get_bind, bind_ret _ (hread hmagic), if_neg (not_not.mpr rfl)]
  refine (bind_ret _ (hread hphoff)).trans ?_
  refine (bind_ret _ hread₂).trans ?_
  dsimp only
  have hloadable : ¬ (program image).magic ≠ elfMagic := not_not.mpr wf.magic
  rw [bind_ret _ hpgdir, Jos.loadIcode, if_neg hloadable, bind_ret _ hpgdir,
    bind_congr_run _ hload]
  apply bind_congr_of_wp
  rw [pmap, wp_zoom]
  refine wp_mono (loadSegments_spec h.phys hd wf.loadable.fits) ?_ (fun r => r.elim)
    fun _ _ => trivial
  rintro _ q ⟨hq, -⟩
  -- the entry point is read after the segments have been loaded
  have hentry := (linked.sees hq hd).loadWord (show 24 + 4 ≤ image.length by omega)
  exact bind_ret _ (pmap_ret (k := { k with phys := q }) hentry)

end Load

end Elf

end Jos
