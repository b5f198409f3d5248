import Jos.Mmu
import Mathlib.Data.BitVec
import Mathlib.Data.List.Induction
import Mathlib.Data.List.TakeWhile
import Mathlib.Data.Vector.Basic
import Mathlib.Logic.Function.Basic

/-!
# The multiprocessor configuration table (`kern/mpconfig.c`)

The BIOS leaves a table of processors, busses and interrupts in memory. `mp_init` walks over
its entries, which have two sizes, and numbers the processors. Kernel memory is a function
from virtual addresses; `none` is the panic of `KADDR`.
-/

namespace Jos.Mp

def ncpuMax : Nat := 8

/-- `struct CpuInfo`, as far as `mp_init` uses it. -/
structure CpuInfo where
  cpuId : Byte
  started : Bool
  deriving DecidableEq

/-- The variables of `mpconfig.c`. `bootcpu` is an index into `cpus`, and `imcr` says that the
IMCR has been switched. `stray` says that something behind `cpus` has been overwritten; what it was
is not modelled. -/
structure State where
  cpus : Fin ncpuMax → CpuInfo
  bootcpu : Nat
  ismp : Bool
  ncpu : Nat
  lapicaddr : Word
  imcr : Bool
  stray : Bool

/-- Before `mp_init` everything is 0. -/
def State.zero : State := ⟨fun _ => ⟨0, false⟩, 0, false, 0, 0, false, false⟩

/-- `flags & MPPROC_BOOT`. -/
def boots (flags : Byte) : Bool := flags &&& 0x02 ≠ 0

/-- `case MPPROC`. -/
def mpproc (flags : Byte) (s : State) : State :=
  let s := if boots flags then { s with bootcpu := s.ncpu } else s
  if h : s.ncpu < ncpuMax then
    { s with
      cpus := Function.update s.cpus ⟨s.ncpu, h⟩
        { s.cpus ⟨s.ncpu, h⟩ with cpuId := BitVec.ofNat 8 s.ncpu }
      ncpu := s.ncpu + 1 }
  else s

/-- `bootcpu->cpu_status = CPU_STARTED`. -/
def startBoot (s : State) : State :=
  if h : s.bootcpu < ncpuMax then
    { s with
      cpus := Function.update s.cpus ⟨s.bootcpu, h⟩
        { s.cpus ⟨s.bootcpu, h⟩ with started := true } }
  else { s with stray := true }

section Code

variable (npages : Nat) (mem : Word → Byte)

def kaddr (pa : Word) : Option Word := if pgnum pa ≥ npages then none else some (pa + kernbase)

def half (va : Word) : BitVec 16 := mem (va + 1) ++ mem va

def word (va : Word) : Word := mem (va + 3) ++ mem (va + 2) ++ mem (va + 1) ++ mem va

/-- `sum`, of `len` bytes. -/
def sum (addr : Word) : Nat → Byte
  | 0 => 0
  | len + 1 => sum addr len + mem (addr + BitVec.ofNat 32 len)

/-- `memcmp(addr, signature, 4) == 0`. -/
def signed (addr : Word) (signature : List Byte) : Bool :=
  [mem addr, mem (addr + 1), mem (addr + 2), mem (addr + 3)] = signature

/-- The loop of `mpsearch1`, for at most `n` places. -/
def mpsearchLoop (stop : Word) : Nat → Word → Option Word
  | 0, _ => none
  | n + 1, mp =>
      if mp < stop then
        if signed mem mp [0x5F, 0x4D, 0x50, 0x5F] && sum mem mp 16 = 0 then some mp
        else mpsearchLoop stop n (mp + 16)
      else none

/-- `mpsearch1`, where `none` inside is NULL. -/
def mpsearch1 (a len : Word) : Option (Option Word) := do
  let mp ← kaddr npages a
  let stop ← kaddr npages (a + len)
  pure (mpsearchLoop mem stop (len.toNat / 16 + 1) mp)

def mpsearch : Option (Option Word) := do
  let bda ← kaddr npages 0x400
  let ebda := (half mem (bda + 0x0E)).setWidth 32
  let mp ←
    if ebda ≠ 0 then mpsearch1 npages mem (ebda <<< 4) 1024
    else mpsearch1 npages mem ((half mem (bda + 0x13)).setWidth 32 * 1024 - 1024) 1024
  match mp with
  | some mp => pure (some mp)
  | none => mpsearch1 npages mem 0xF0000 0x10000

/-- `mpconfig`: the floating pointer and the table. -/
def mpconfig : Option (Option (Word × Word)) := do
  match ← mpsearch npages mem with
  | none => pure none
  | some mp =>
      if word mem (mp + 4) = 0 ∨ mem (mp + 11) ≠ 0 then pure none
      else do
        let conf ← kaddr npages (word mem (mp + 4))
        let length := half mem (conf + 4)
        let version := mem (conf + 6)
        let xlength := half mem (conf + 40)
        if signed mem conf [0x50, 0x43, 0x4D, 0x50] = false then pure none
        else if sum mem conf length.toNat ≠ 0 then pure none
        else if version ≠ 1 ∧ version ≠ 4 then pure none
        else if sum mem (conf + length.setWidth 32) xlength.toNat + mem (conf + 42) ≠ 0 then
          pure none
        else pure (some (mp, conf))

/-- The loop over the entries, of which `n` are left. -/
def entriesLoop : Nat → Word → State → State
  | 0, _, s => s
  | n + 1, p, s =>
      if mem p = 0 then entriesLoop n (p + 20) (mpproc (mem (p + 3)) s)
      else if mem p = 1 ∨ mem p = 2 ∨ mem p = 3 ∨ mem p = 4 then entriesLoop n (p + 8) s
      else { s with ismp := false }

def mpInit (s : State) : Option State := do
  let s := { s with bootcpu := 0 }
  match ← mpconfig npages mem with
  | none => pure s
  | some (mp, conf) =>
      let s := { s with ismp := true, lapicaddr := word mem (conf + 36) }
      let s := startBoot (entriesLoop mem (half mem (conf + 34)).toNat (conf + 44) s)
      if s.ismp = false then pure { s with ncpu := 1, lapicaddr := 0 }
      else pure { s with imcr := mem (mp + 12) ≠ 0 }

end Code

/-! ### Tables -/

/-- An entry of the table. What follows an entry of another type cannot be read. -/
inductive Entry
  | proc (apicid version flags : Byte) (rest : List.Vector Byte 16)
  | other (type : Byte) (known : type = 1 ∨ type = 2 ∨ type = 3 ∨ type = 4)
      (rest : List.Vector Byte 7)
  | unknown (type : Byte) (h : 4 < type) (rest : List Byte)

namespace Entry

def bytes : Entry → List Byte
  | proc apicid version flags rest => 0 :: apicid :: version :: flags :: rest.toList
  | other type _ rest => type :: rest.toList
  | unknown type _ rest => type :: rest

/-- The flags of a processor. -/
def flags : Entry → Option Byte
  | proc _ _ flags _ => some flags
  | _ => none

/-- The entry is of one of the types that `mp_init` knows. -/
def known : Entry → Bool
  | unknown .. => false
  | _ => true

end Entry

/-- The flags of the processors, in order. -/
def procs (es : List Entry) : List Byte := es.filterMap Entry.flags

/-- The number of the processor with the boot flag. -/
def bootProc (es : List Entry) : Option Nat := (procs es).findIdx? boots

/-- At most one processor has the boot flag. -/
def OneBoots (es : List Entry) : Prop := ((procs es).filter boots).length ≤ 1

/-- The bytes are in memory. -/
def Stored (mem : Word → Byte) (p : Word) (bytes : List Byte) : Prop :=
  ∀ (i : Nat) (hi : i < bytes.length), mem (p + BitVec.ofNat 32 i) = bytes[i]

/-- The table is parsed: the processors are numbered up to `NCPU` and the boot processor is one
of them; with an entry of another type there is a single processor. -/
structure Parsed (es : List Entry) (s : State) : Prop where
  inside : s.bootcpu < ncpuMax
  known : (∀ e ∈ es, e.known) → s.ncpu = min (procs es).length ncpuMax ∧
    (∀ i, i.val < s.ncpu → (s.cpus i).cpuId = BitVec.ofNat 8 i) ∧
    ∀ j, bootProc es = some j → j < ncpuMax → s.bootcpu = j
  unknown : (∃ e ∈ es, e.known = false) → s.ncpu = 1 ∧ s.lapicaddr = 0

section Parse

variable {mem : Word → Byte} {p : Word} {a b : List Byte} {es : List Entry} {s : State} {n : Nat}

theorem Stored.left (h : Stored mem p (a ++ b)) : Stored mem p a := fun i hi => by
  rw [h i (by rw [List.length_append]; omega), List.getElem_append_left hi]

theorem Stored.right (h : Stored mem p (a ++ b)) :
    Stored mem (p + BitVec.ofNat 32 a.length) b := fun i hi => by
  have hbyte := h (a.length + i) (by rw [List.length_append]; omega)
  rw [BitVec.add_assoc, ← BitVec.ofNat_add, hbyte, List.getElem_append_right (Nat.le_add_right _ _)]
  simp only [Nat.add_sub_cancel_left]

theorem Stored.head {b : Byte} {bs : List Byte} (h : Stored mem p (b :: bs)) : mem p = b := by
  have hbyte := h 0 (Nat.succ_pos _)
  rwa [show p + BitVec.ofNat 32 0 = p from BitVec.add_zero p] at hbyte

/-- One round of the loop. -/
theorem entriesLoop_cons {e : Entry} (h : Stored mem p ((e :: es).flatMap Entry.bytes))
    (known : e.known = true) : ∃ p', Stored mem p' (es.flatMap Entry.bytes) ∧
      entriesLoop mem (n + 1) p s =
        entriesLoop mem n p' (match e.flags with | some flags => mpproc flags s | none => s) := by
  rw [List.flatMap_cons] at h
  have hbytes := h.left
  have hrest := h.right
  cases e with
  | proc apicid version flags rest =>
      have hlen : (Entry.proc apicid version flags rest).bytes.length = 20 := by
        rw [Entry.bytes]
        simp
      rw [hlen] at hrest
      have htype := hbytes.head
      have hflags := hbytes 3 (by rw [hlen]; decide)
      refine ⟨_, hrest, ?_⟩
      rw [entriesLoop, if_pos htype]
      have hflags' : mem (p + 3) = flags := hflags
      rw [hflags']
      rfl
  | other type hknown rest =>
      have hlen : (Entry.other type hknown rest).bytes.length = 8 := by
        rw [Entry.bytes]
        simp
      rw [hlen] at hrest
      have htype := hbytes.head
      have hne : type ≠ 0 := by
        rintro rfl
        exact absurd hknown (by decide)
      refine ⟨_, hrest, ?_⟩
      rw [entriesLoop, if_neg (by rwa [htype]), if_pos (by rwa [htype])]
      rfl
  | unknown type hun rest => exact Bool.noConfusion known

/-- The loop ends at an entry of another type. -/
theorem entriesLoop_stop {e : Entry} (h : Stored mem p ((e :: es).flatMap Entry.bytes))
    (unknown : e.known = false) : entriesLoop mem (n + 1) p s = { s with ismp := false } := by
  cases e with
  | unknown type hlt rest =>
      rw [List.flatMap_cons] at h
      have htype := h.left.head
      have hne : ∀ b : Byte, b ≤ 4 → mem p ≠ b := by
        rintro b hb heq
        rw [heq] at htype
        rw [htype] at hb
        exact absurd hlt (BitVec.not_lt.mpr hb)
      rw [entriesLoop, if_neg (hne 0 (by decide)), if_neg]
      rintro (h1 | h2 | h3 | h4)
      exacts [hne 1 (by decide) h1, hne 2 (by decide) h2, hne 3 (by decide) h3,
        hne 4 (by decide) h4]
  | _ => exact Bool.noConfusion unknown

/-- The loop counts the processors up to the first entry of another type, if there is one. -/
theorem entriesLoop_eq (h : Stored mem p (es.flatMap Entry.bytes)) :
    ∃ s', s' = (procs (es.takeWhile Entry.known)).foldl (fun s flags => mpproc flags s) s ∧
      entriesLoop mem es.length p s =
        if ∀ e ∈ es, e.known then s' else { s' with ismp := false } := by
  refine ⟨_, rfl, ?_⟩
  induction es generalizing p s with
  | nil => rfl
  | cons e es ih =>
      cases hknown : e.known with
      | true =>
          obtain ⟨p', hrest, hround⟩ := entriesLoop_cons (n := es.length) (s := s) h hknown
          rw [List.length_cons, hround, ih hrest, List.takeWhile_cons_of_pos hknown]
          simp only [List.forall_mem_cons, hknown, true_and]
          cases hflags : e.flags with
          | none =>
              have hprocs : ∀ es, procs (e :: es) = procs es :=
                fun es => List.filterMap_cons_none hflags
              rw [hprocs]
          | some flags =>
              have hprocs : ∀ es, procs (e :: es) = flags :: procs es :=
                fun es => List.filterMap_cons_some hflags
              rw [hprocs, List.foldl_cons]
      | false =>
          have hnot : ¬e.known = true := by rw [hknown]; exact Bool.false_ne_true
          rw [List.length_cons, entriesLoop_stop h hknown, List.takeWhile_cons_of_neg hnot,
            if_neg fun hall => hnot (hall e List.mem_cons_self)]
          rfl

/-- After some processors, of which at most one has the boot flag. -/
structure Counted (fs : List Byte) (s s' : State) : Prop where
  ncpu : s'.ncpu = min fs.length ncpuMax
  cpuId : ∀ i, i.val < s'.ncpu → (s'.cpus i).cpuId = BitVec.ofNat 8 i
  bootcpu : s'.bootcpu =
    ((fs.findIdx? boots).map (min · ncpuMax)).getD s.bootcpu
  ismp : s'.ismp = s.ismp
  lapicaddr : s'.lapicaddr = s.lapicaddr

theorem mpproc_counted {fs : List Byte} {s' : State} {f : Byte} (h : Counted fs s s')
    (one : ((fs ++ [f]).filter boots).length ≤ 1) :
    Counted (fs ++ [f]) s (mpproc f s') := by
  obtain ⟨hncpu, hid, hboot, hismp, hlapic⟩ := h
  have hmax : ncpuMax = 8 := rfl
  -- the boot flag first
  obtain ⟨s₁, hs₁, hboot₁⟩ : ∃ s₁, s₁ = (if boots f then { s' with bootcpu := s'.ncpu } else s') ∧
      s₁.bootcpu = (((fs ++ [f]).findIdx? boots).map (min · ncpuMax)).getD
        s.bootcpu := by
    refine ⟨_, rfl, ?_⟩
    rw [List.findIdx?_append, List.findIdx?_singleton]
    by_cases hf : boots f = true
    · have hnone : fs.findIdx? boots = none := by
        rw [List.findIdx?_eq_none_iff]
        intro g hg
        by_contra hgf
        have hpos : 0 < (fs.filter boots).length :=
          List.length_pos_of_mem (List.mem_filter.mpr ⟨hg, by simpa using hgf⟩)
        rw [List.filter_append, List.length_append, List.filter_cons_of_pos hf, List.filter_nil,
          List.length_singleton] at one
        omega
      rw [if_pos hf, if_pos hf, hnone]
      simpa using hncpu
    · rw [if_neg hf, if_neg hf]
      simpa using hboot
  have hsame : s₁.ncpu = s'.ncpu ∧ s₁.cpus = s'.cpus ∧ s₁.ismp = s'.ismp ∧
      s₁.lapicaddr = s'.lapicaddr := by
    rw [hs₁]
    split <;> exact ⟨rfl, rfl, rfl, rfl⟩
  obtain ⟨hncpu₁, hcpus₁, hismp₁, hlapic₁⟩ := hsame
  rw [mpproc, ← hs₁]
  dsimp only
  split
  · rename_i hroom
    refine ⟨?_, fun i hi => ?_, hboot₁, hismp₁.trans hismp, hlapic₁.trans hlapic⟩
    · rw [List.length_append, List.length_singleton]
      dsimp only
      omega
    · dsimp only at hi ⊢
      by_cases hlast : i = ⟨s₁.ncpu, hroom⟩
      · rw [hlast, Function.update_self]
      · have hne : i.val ≠ s₁.ncpu := fun heq => hlast (Fin.ext heq)
        rw [Function.update_of_ne hlast, hcpus₁]
        exact hid i (by omega)
  · rename_i hfull
    refine ⟨?_, fun i hi => ?_, hboot₁, hismp₁.trans hismp, hlapic₁.trans hlapic⟩
    · rw [List.length_append, List.length_singleton]
      omega
    · rw [hcpus₁]
      exact hid i (by omega)

theorem mpprocs_counted {fs : List Byte} (hs : s.ncpu = 0)
    (one : (fs.filter boots).length ≤ 1) :
    Counted fs s (fs.foldl (fun s flags => mpproc flags s) s) := by
  induction fs using List.reverseRecOn with
  | nil =>
      refine ⟨hs, fun i hi => ?_, rfl, rfl, rfl⟩
      rw [List.foldl_nil, hs] at hi
      exact absurd hi (Nat.not_lt_zero i)
  | append_singleton fs f ih =>
      rw [List.foldl_append]
      refine mpproc_counted (ih ?_) one
      rw [List.filter_append, List.length_append] at one
      omega

/-- Nothing but the boot processor's status changes in the array. -/
theorem startBoot_cpuId (s : State) (i : Fin ncpuMax) :
    ((startBoot s).cpus i).cpuId = (s.cpus i).cpuId := by
  rw [startBoot]
  split
  · rename_i hin
    by_cases hi : i = ⟨s.bootcpu, hin⟩
    · rw [hi]
      dsimp only
      rw [Function.update_self]
    · dsimp only
      rw [Function.update_of_ne hi]
  · rfl

theorem startBoot_frame (s : State) : (startBoot s).bootcpu = s.bootcpu ∧
    (startBoot s).ncpu = s.ncpu ∧ (startBoot s).ismp = s.ismp := by
  rw [startBoot]
  split
  all_goals exact ⟨rfl, rfl, rfl⟩

/-- The entries before the first one of another type have at most one boot flag too. -/
theorem OneBoots.takeWhile (h : OneBoots es) : OneBoots (es.takeWhile Entry.known) :=
  Nat.le_trans
    (((List.takeWhile_sublist _).filterMap Entry.flags).filter boots).length_le h

/-- `mp_init` parses the table exactly if the processor with the boot flag is one of the first
`NCPU`, or comes behind an entry of another type. -/
theorem mp_init_iff {npages : Nat} {mp conf : Word}
    (found : mpconfig npages mem = some (some (mp, conf)))
    (entries : Stored mem (conf + 44) (es.flatMap Entry.bytes))
    (count : (half mem (conf + 34)).toNat = es.length) (one : OneBoots es) :
    ∃ s, mpInit npages mem .zero = some s ∧
      (Parsed es s ↔ ∀ j, bootProc (es.takeWhile Entry.known) = some j → j < ncpuMax) := by
  let s₀ : State := { State.zero with ismp := true, lapicaddr := word mem (conf + 36) }
  obtain ⟨s', hs', hloop⟩ := @entriesLoop_eq mem (conf + 44) es s₀ entries
  have counted : Counted (procs (es.takeWhile Entry.known)) s₀ s' := by
    rw [hs']
    exact mpprocs_counted rfl one.takeWhile
  have hbootcpu : s'.bootcpu = ((bootProc (es.takeWhile Entry.known)).map (min · ncpuMax)).getD 0 :=
    counted.bootcpu
  have hinside : s'.bootcpu < ncpuMax ↔
      ∀ j, bootProc (es.takeWhile Entry.known) = some j → j < ncpuMax := by
    rw [hbootcpu]
    cases bootProc (es.takeWhile Entry.known) with
    | none => simp [ncpuMax]
    | some j => simp
  have hrun : mpInit npages mem .zero =
      let s := startBoot (entriesLoop mem es.length (conf + 44) s₀)
      if s.ismp = false then some { s with ncpu := 1, lapicaddr := 0 }
      else some { s with imcr := mem (mp + 12) ≠ 0 } := by
    rw [mpInit, found, ← count]
    rfl
  rw [hrun, hloop]
  dsimp only
  by_cases known : ∀ e ∈ es, e.known = true
  · have hseen : es.takeWhile Entry.known = es := List.takeWhile_eq_self_iff.mpr known
    obtain ⟨hboot, hncpu, hismp⟩ := startBoot_frame s'
    rw [if_pos known, if_neg (by rw [hismp, counted.ismp]; exact Bool.false_ne_true.symm)]
    refine ⟨_, rfl, fun h => hinside.mp ?_, fun h => ⟨?_, fun _ => ⟨?_, fun i hi => ?_, ?_⟩, ?_⟩⟩
    · have hlt := h.inside
      dsimp only at hlt
      rwa [hboot] at hlt
    · dsimp only
      rw [hboot]
      exact hinside.mpr h
    · dsimp only
      rw [hncpu, counted.ncpu, hseen]
    · dsimp only at hi ⊢
      rw [startBoot_cpuId]
      exact counted.cpuId i (by rwa [← hncpu])
    · intro j hj hlt
      dsimp only
      rw [hboot, hbootcpu, hseen, hj]
      exact Nat.min_eq_left (Nat.le_of_lt hlt)
    · rintro ⟨e, he, hun⟩
      rw [known e he] at hun
      exact Bool.noConfusion hun
  · obtain ⟨hboot, -, hismp⟩ := startBoot_frame { s' with ismp := false }
    rw [if_neg known, if_pos hismp]
    refine ⟨_, rfl, fun h => hinside.mp ?_, fun h => ⟨?_, fun h => absurd h known,
      fun _ => ⟨rfl, rfl⟩⟩⟩
    · have hlt := h.inside
      dsimp only at hlt
      rwa [hboot] at hlt
    · dsimp only
      rw [hboot]
      exact hinside.mpr h

end Parse

/-! ### A machine -/

/-- A table with these entries, at 0xF1000. -/
def table (es : List Entry) : List Byte :=
  let entries := es.flatMap Entry.bytes
  let length := BitVec.ofNat 16 (44 + entries.length)
  let count := BitVec.ofNat 16 es.length
  let front : List Byte :=
    [0x50, 0x43, 0x4D, 0x50, length.setWidth 8, (length >>> 8).setWidth 8, 4]
  let back := List.replicate 26 (0 : Byte) ++ [count.setWidth 8, (count >>> 8).setWidth 8] ++
    [0, 0, 0xE0, 0xFE, 0, 0, 0, 0] ++ entries
  front ++ [-(front ++ back).sum] ++ back

/-- The floating pointer, at 0x9FC00. -/
def floating : List Byte := [0x5F, 0x4D, 0x50, 0x5F, 0, 0x10, 0x0F, 0, 1, 4, 0x81, 0, 0, 0, 0, 0]

/-- Kernel memory with the segment of the EBDA, the floating pointer and the table. -/
def biosMem (es : List Entry) (va : Word) : Byte :=
  if va = 0xF000040E then 0xC0
  else if va = 0xF000040F then 0x9F
  else if 0xF009FC00 ≤ va ∧ va < 0xF009FC10 then floating.getD (va - 0xF009FC00).toNat 0
  else (table es).getD (va - 0xF00F1000).toNat 0

/-- A processor. -/
def processor (apicid flags : Byte) : Entry :=
  .proc apicid 0x14 flags ⟨List.replicate 16 0, rfl⟩

/-- Two processors with a bus between them, and the second one boots. -/
def twoProcessors : List Entry :=
  [processor 0 1, .other 1 (.inl rfl) ⟨List.replicate 7 0, rfl⟩, processor 1 3]

/-- Nine processors, and the last one boots. -/
def nineProcessors : List Entry :=
  (List.range 8).map (fun i => processor (BitVec.ofNat 8 i) 1) ++ [processor 8 3]

theorem mp_init_iff_two : ∃ s, mpInit 32768 (biosMem twoProcessors) .zero = some s ∧
    s.ncpu = 2 ∧ s.bootcpu = 1 := by
  obtain ⟨s, hs, hiff⟩ := @mp_init_iff (biosMem twoProcessors) twoProcessors 32768 0xF009FC00
    0xF00F1000 (by decide +kernel) (by rw [Stored]; decide +kernel) (by decide +kernel)
    (by rw [OneBoots]; decide)
  have hboot : bootProc twoProcessors = some 1 := by decide
  have hparsed := hiff.mpr (by decide)
  obtain ⟨hncpu, -, hbootcpu⟩ := hparsed.known (by decide)
  exact ⟨s, hs, hncpu, hbootcpu 1 hboot (by decide)⟩

/-- The ninth processor has no place in `cpus`, but `bootcpu` points there, and its status is
stored there. -/
theorem mp_init_boots_ninth : ∃ s, mpInit 32768 (biosMem nineProcessors) .zero = some s ∧
    s.bootcpu = 8 ∧ s.stray = true ∧ ¬ Parsed nineProcessors s := by
  have hrun : ∃ s, mpInit 32768 (biosMem nineProcessors) .zero = some s ∧
      (s.bootcpu, s.stray) = (8, true) := by
    have h : (mpInit 32768 (biosMem nineProcessors) .zero).map (fun s => (s.bootcpu, s.stray)) =
        some (8, true) := by
      decide +kernel
    exact Option.map_eq_some_iff.mp h
  obtain ⟨s, hs, hvalues⟩ := hrun
  obtain ⟨hbootcpu, hstray⟩ := Prod.mk.inj hvalues
  refine ⟨s, hs, hbootcpu, hstray, fun hparsed => ?_⟩
  have hlt := hparsed.inside
  rw [hbootcpu] at hlt
  exact absurd hlt (by decide)

end Jos.Mp
