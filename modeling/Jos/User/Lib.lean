import Jos.Kernel.Trap
import Jos.Pmap.Virtual

/-!
# User programs on the kernel (`lib/`)

C code of an environment that runs on CPU `c`: loads and stores through the page
directory in `%cr3`, with the permissions that user mode has, and system calls. Nothing
else runs meanwhile. An access that is not allowed stops the program with a page fault.
-/

namespace Jos

open Prog

/-- Why a user program stops. -/
inductive Stop where
  | fault (va : Word)
  /-- `panic` of `lib/panic.c`. -/
  | panic
  /-- The kernel does not go back to the program. -/
  | left
  deriving DecidableEq, Repr

/-- Code in user mode. -/
abbrev User (α : Type) := Prog Kernel Stop Panic α

/-- A system call. -/
def call {α : Type} (m : KM α) : User α := fun k =>
  match m k with
  | .ret a k' => .ret a k'
  | .exit _ k' => .exit .left k'
  | .panic e => .panic e

/-- `if (r < 0) panic(..)`. -/
def check (r : Word) : User Unit := if r.slt 0 then exit .panic else pure ()

/-- Load the byte at `va`. -/
def load (c : Nat) (va : Word) : User Byte := do
  let k ← get
  match k.phys.translate (k.cpus c).cr3 va with
  | none => exit (.fault va)
  | some (pde, pte) =>
      if pde &&& pteU = 0 ∨ pte &&& pteU = 0 then exit (.fault va)
      else pure (k.phys.mem (pgnum pte) (pgoff va))

/-- Store a byte at `va`. -/
def store (c : Nat) (va : Word) (b : Byte) : User Unit := do
  let k ← get
  match k.phys.translate (k.cpus c).cr3 va with
  | none => exit (.fault va)
  | some (pde, pte) =>
      if pde &&& pteU = 0 ∨ pte &&& pteU = 0 ∨ pde &&& pteW = 0 ∨ pte &&& pteW = 0 then
        exit (.fault va)
      else modify fun k => { k with phys := k.phys.setByte (pgnum pte) (pgoff va) b }

def loadWord (c : Nat) (va : Word) : User Word := do
  let b₀ ← load c va
  let b₁ ← load c (va + 1)
  let b₂ ← load c (va + 2)
  let b₃ ← load c (va + 3)
  pure (b₃ ++ b₂ ++ b₁ ++ b₀)

/-- `memmove` of `n` bytes that do not overlap. -/
def memmove (c : Nat) (dst src : Word) (n : Nat) : User Unit :=
  forRange n fun i => do
    let b ← load c (src + BitVec.ofNat 32 i)
    store c (dst + BitVec.ofNat 32 i) b

/-- `uvpt[pn]`, through the self-map of the page directory. -/
def uvptEntry (c pn : Nat) : User Word := loadWord c (uvpt + 4 * BitVec.ofNat 32 pn)

/-- `uvpd[i]`. -/
def uvpdEntry (c i : Nat) : User Word := loadWord c (uvpd + 4 * BitVec.ofNat 32 i)

section Run

variable {k k' : Kernel} {c d : Nat} {va pde pte : Word}

theorem call_ret {α : Type} {m : KM α} {a : α} (h : m k = .ret a k') : call m k = .ret a k' := by
  rw [call, h]

/-- User mode may read `va` in the directory `d`. -/
def Phys.Readable (p : Phys) (d : Nat) (va : Word) : Prop :=
  ∃ pde pte, p.translate d va = some (pde, pte) ∧ pde &&& pteU ≠ 0 ∧ pte &&& pteU ≠ 0

theorem load_run (hcr3 : (k.cpus c).cr3 = d) (h : k.phys.Readable d va) :
    ∃ b, load c va k = .ret b k ∧ k.phys.byteAt d va = some b := by
  obtain ⟨pde, pte, walk, hpde, hpte⟩ := h
  refine ⟨k.phys.mem (pgnum pte) (pgoff va), ?_, ?_⟩
  · rw [load, get_bind, hcr3, walk]
    dsimp only
    rw [if_neg (by rintro (hz | hz); exacts [hpde hz, hpte hz])]
    rfl
  · rw [Phys.byteAt, walk]
    rfl

theorem load_fault (hcr3 : (k.cpus c).cr3 = d) (h : ¬ k.phys.Readable d va) :
    load c va k = .exit (.fault va) k := by
  rw [load, get_bind, hcr3]
  cases walk : k.phys.translate d va with
  | none => rfl
  | some entries =>
      obtain ⟨pde, pte⟩ := entries
      have hdenied : pde &&& pteU = 0 ∨ pte &&& pteU = 0 := by
        by_contra hno
        rw [not_or] at hno
        exact h ⟨pde, pte, walk, hno.1, hno.2⟩
      dsimp only
      rw [if_pos hdenied]
      rfl

theorem loadWord_run (hcr3 : (k.cpus c).cr3 = d)
    (h : ∀ i < 4, k.phys.Readable d (va + BitVec.ofNat 32 i)) :
    ∃ w, loadWord c va k = .ret w k ∧ k.phys.wordAt d va = some w := by
  have h₀ := h 0 (by decide)
  rw [show va + BitVec.ofNat 32 0 = va from BitVec.add_zero va] at h₀
  obtain ⟨b₀, hrun₀, hb₀⟩ := load_run hcr3 h₀
  obtain ⟨b₁, hrun₁, hb₁⟩ := load_run hcr3 (h 1 (by decide))
  obtain ⟨b₂, hrun₂, hb₂⟩ := load_run hcr3 (h 2 (by decide))
  obtain ⟨b₃, hrun₃, hb₃⟩ := load_run hcr3 (h 3 (by decide))
  refine ⟨b₃ ++ b₂ ++ b₁ ++ b₀, ?_, Phys.wordAt_eq hb₀ hb₁ hb₂ hb₃⟩
  rw [loadWord, bind_ret _ hrun₀]
  refine (bind_ret _ hrun₁).trans ?_
  refine (bind_ret _ hrun₂).trans ?_
  exact (bind_ret _ hrun₃).trans rfl

theorem loadWord_fault (hcr3 : (k.cpus c).cr3 = d) (h : ¬ k.phys.Readable d va) :
    loadWord c va k = .exit (.fault va) k := by
  rw [loadWord]
  exact bind_exit _ (load_fault hcr3 h)

/-- The directory `d` is its own page table for the addresses from `UVPT` on. -/
def Phys.SelfMap (p : Phys) (d : Nat) : Prop :=
  p.word d (pdx uvpt) &&& pteP ≠ 0 ∧ p.word d (pdx uvpt) &&& pteU ≠ 0 ∧
    pgnum (p.word d (pdx uvpt)) = d

/-- The page table for `va` is there, and user mode may read it. -/
def Phys.HasTable (p : Phys) (d : Nat) (va : Word) : Prop :=
  p.word d (pdx va) &&& pteP ≠ 0 ∧ p.word d (pdx va) &&& pteU ≠ 0

/-- The page table entry for `va`. -/
def Phys.entryAt (p : Phys) (d : Nat) (va : Word) : Word :=
  p.word (pgnum (p.word d (pdx va))) (ptx va)

theorem Phys.SelfMap.readable {p : Phys} {pn : Nat} (h : p.SelfMap d) (hpn : pn < 1048576) :
    p.Readable d (uvpt + 4 * BitVec.ofNat 32 pn) ↔
      p.HasTable d (BitVec.ofNat 32 pn * 4096) := by
  have walk := Phys.translate_uvpt h.1 h.2.2 hpn
  constructor
  · rintro ⟨pde, pte, hwalk, -, hpte⟩
    rw [walk] at hwalk
    split at hwalk
    · simp at hwalk
    · rename_i htable
      rw [← (Prod.mk.inj (Option.some.inj hwalk)).2] at hpte
      exact ⟨htable, hpte⟩
  · rintro ⟨htable, huser⟩
    rw [if_neg htable] at walk
    exact ⟨_, _, walk, h.2.1, huser⟩

/-- `uvpt[pn]` is the page table entry for the page `pn`. -/
theorem uvptEntry_run {pn : Nat} (hcr3 : (k.cpus c).cr3 = d) (hself : k.phys.SelfMap d)
    (hpn : pn < 1048576) (htable : k.phys.HasTable d (BitVec.ofNat 32 pn * 4096)) :
    uvptEntry c pn k = .ret (k.phys.entryAt d (BitVec.ofNat 32 pn * 4096)) k := by
  have haligned : (uvpt + 4 * BitVec.ofNat 32 pn).toNat % 4 = 0 := by
    rw [uvpt_toNat hpn]
    omega
  have hread : ∀ i < 4,
      k.phys.Readable d (uvpt + 4 * BitVec.ofNat 32 pn + BitVec.ofNat 32 i) := by
    intro i hi
    obtain ⟨pde, pte, walk, hpde, hpte⟩ := (hself.readable hpn).mpr htable
    exact ⟨pde, pte, (Phys.translate_aligned haligned hi).1.trans walk, hpde, hpte⟩
  obtain ⟨w, hrun, hw⟩ := loadWord_run hcr3 hread
  rw [Phys.wordAt_uvpt hself.1 hself.2.2 hpn htable.1] at hw
  rw [uvptEntry, hrun, ← Option.some.inj hw]
  rfl

theorem uvptEntry_fault {pn : Nat} (hcr3 : (k.cpus c).cr3 = d) (hself : k.phys.SelfMap d)
    (hpn : pn < 1048576) (htable : ¬ k.phys.HasTable d (BitVec.ofNat 32 pn * 4096)) :
    uvptEntry c pn k = .exit (.fault (uvpt + 4 * BitVec.ofNat 32 pn)) k :=
  loadWord_fault hcr3 fun h => htable ((hself.readable hpn).mp h)

end Run

end Jos
