import Jos.Base.Parts
import Jos.User.ForkPages

/-!
# `fork` among other steps

The calls of `fork` one by one. Before each of them the environment may store to its pages, with a
page fault if need be, and others may run. Only between the two mappings of `duppage` nothing
else happens, and while the exception stack of the child is at `PFTEMP` there is no page fault,
as `pgfault` needs that address itself. What has happened to the memories is kept in a list.
-/

namespace Jos

open Prog

/-! ### Eager copies -/

/-- What happens to the memories during a `fork`. -/
inductive ForkAct where
  | access (x : Access)
  /-- The parent duplicates the page `(i, j)`, which holds the bytes `held`. -/
  | page (parent child : EnvIdx) (i j : Idx) (held : Word → Option Byte)

namespace ForkAct

/-- What it means if each page is copied at once. -/
def run (v : EnvIdx → Word → Option Byte) : ForkAct → EnvIdx → Word → Option Byte
  | access x => x.run v
  | page parent child i j _ => Function.update v child fun va =>
      if pdx va = i ∧ ptx va = j then v parent va else v child va

def runs (v : EnvIdx → Word → Option Byte) (as : List ForkAct) : EnvIdx → Word → Option Byte :=
  as.foldl run v

/-- The byte that the environment writes at `va`. -/
def byte (e : EnvIdx) (va : Word) : ForkAct → Option Byte
  | access (.store e' a b) => if e' = e ∧ a = va then some b else none
  | access (.upcall e' a w) =>
      if e' = e ∧ Bytes.InWord a va then some (w.extractLsb' (8 * (va - a).toNat) 8) else none
  | access (.fork _ _) => none
  | page _ _ _ _ _ => none

/-- The last byte that the environment writes at `va`. -/
def lastWrite (e : EnvIdx) (va : Word) (as : List ForkAct) : Option Byte :=
  as.foldl (fun b a => (a.byte e va).or b) none

/-- The memory of `e` is a copy from now on. -/
def CopiesTo (e : EnvIdx) (va : Word) : ForkAct → Prop
  | access (.fork _ child) => child = e
  | access _ => False
  | page _ child i j _ => child = e ∧ pdx va = i ∧ ptx va = j

variable {v : EnvIdx → Word → Option Byte} {e : EnvIdx} {va : Word} {as bs : List ForkAct} {a : ForkAct}

theorem runs_append : runs v (as ++ bs) = runs (runs v as) bs := List.foldl_append

theorem runs_access (xs : List Access) : runs v (xs.map .access) = Access.runs v xs := by
  rw [runs, Access.runs, List.foldl_map]
  rfl

theorem lastWrite_concat : lastWrite e va (as ++ [a]) = (a.byte e va).or (lastWrite e va as) := by
  rw [lastWrite, List.foldl_append]
  rfl

/-- A byte is what its environment writes, until it is copied over. -/
theorem run_byte (h : ¬ a.CopiesTo e va) : a.run v e va = (a.byte e va).or (v e va) := by
  cases a with
  | access x =>
      cases x with
      | store e' a b =>
          by_cases hself : e = e' ∧ va = a
          · obtain ⟨rfl, rfl⟩ := hself
            rw [run, Access.run_store_self, byte, if_pos ⟨rfl, rfl⟩, Option.some_or]
          · rw [run, Access.run_store_of_ne hself, byte, if_neg, Option.none_or]
            exact fun heq => hself ⟨heq.1.symm, heq.2.symm⟩
      | upcall e' a w =>
          by_cases hself : e = e' ∧ Bytes.InWord a va
          · obtain ⟨rfl, hin⟩ := hself
            obtain ⟨i, hi, rfl⟩ := inWord_offset hin
            rw [run, Access.run_upcall_self hi, byte, if_pos ⟨rfl, hin⟩, Option.some_or,
              Bytes.add_sub_self_nat hi]
          · rw [run, Access.run_upcall_of_not hself, byte, if_neg, Option.none_or]
            exact fun heq => hself ⟨heq.1.symm, heq.2⟩
      | fork parent child =>
          rw [run, Access.run, Function.update_of_ne fun heq => h heq.symm, byte, Option.none_or]
  | page parent child i j held =>
      rw [run, byte, Option.none_or]
      by_cases hchild : e = child
      · subst hchild
        rw [Function.update_self, if_neg fun heq => h ⟨rfl, heq⟩]
      · rw [Function.update_of_ne hchild]

theorem runs_byte (h : ∀ a ∈ as, ¬ a.CopiesTo e va) :
    runs v as e va = (lastWrite e va as).or (v e va) := by
  induction as using List.reverseRecOn with
  | nil => rfl
  | append_singleton as a ih =>
      rw [runs_append, lastWrite_concat, Option.or_assoc,
        ← ih fun x hx => h x (List.mem_append_left _ hx)]
      exact run_byte (h a (List.mem_append_right _ (List.mem_singleton_self a)))

theorem lastWrite_append :
    lastWrite e va (as ++ bs) = (lastWrite e va bs).or (lastWrite e va as) := by
  induction bs using List.reverseRecOn with
  | nil => rw [List.append_nil]; rfl
  | append_singleton bs b ih =>
      rw [← List.append_assoc, lastWrite_concat, lastWrite_concat, ih, Option.or_assoc]

end ForkAct

/-! ### The parts of `fork` -/

/-- Which stores there may be before a part. -/
inductive Stores where
  | any
  /-- Those that are no page fault. -/
  | inPlace
  deriving DecidableEq, Repr

/-- A program of one environment in parts, each on the CPU where the environment runs then. -/
abbrev UserParts := Parts Stores Nat ForkAct Kernel Stop Panic

section

variable (cur : EnvIdx)

/-- A part before which all stores are allowed. -/
def part {α : Type} (m : Nat → User α) : UserParts α := .step .any m fun _ => []

/-- `r = ..; if (r < 0) panic(..)`. -/
def checked (m : KM Word) : User Unit := do
  let r ← call m
  check r

/-- `duppage`. Its two mappings are one part, with which the page is duplicated. -/
def duppageParts (envid : Word) (pn : Nat) : UserParts Unit := do
  let addr := BitVec.ofNat 32 (pn * pgsize)
  let pte ← part fun c => uvptEntry c pn
  let id ← part fun _ => call (sysGetenvid cur)
  .step .any (fun _ => remap cur id addr envid (duppagePerm pte)) fun k =>
    [.page cur (envx envid) (pdx addr) (ptx addr) (k.viewAt cur)]

def dupPresentParts (envid : Word) (pn : Nat) : UserParts Unit := do
  let pde ← part fun c => uvpdEntry c (pn / 1024)
  if pde &&& pteP ≠ 0 then do
    let pte ← part fun c => uvptEntry c pn
    if pte &&& pteP ≠ 0 then duppageParts cur envid pn else pure ()
  else pure ()

def dupPagesParts (envid : Word) : UserParts Unit :=
  .forRange (pgnum uxstack - pgnum utext) fun i => dupPresentParts cur envid (pgnum utext + i)

/-- The child's exception stack is at `PFTEMP` for three parts. -/
def copyStackParts (envid : Word) : UserParts Unit := do
  part fun _ => checked (sysPageAlloc cur envid uxstack (pteP ||| pteW ||| pteU))
  let id ← part fun _ => call (sysGetenvid cur)
  part fun _ => checked (sysPageMap cur envid uxstack id pftemp (pteP ||| pteW ||| pteU))
  .step .inPlace (fun c => memmove c uxstack pftemp pgsize) fun _ => []
  let id ← .step .inPlace (fun _ => call (sysGetenvid cur)) fun _ => []
  .step .inPlace (fun _ => checked (sysPageUnmap cur id pftemp)) fun _ => []

/-- `fork` after `set_pgfault_handler`. -/
def forkParts (upcall : Word) : UserParts Word := do
  let childId ← part fun _ => do
    let r ← call (sysExofork cur)
    check r
    pure r
  if childId = 0 then pure 0
  else do
    dupPagesParts cur childId
    copyStackParts cur childId
    part fun _ => checked (sysEnvSetPgfaultUpcall cur childId upcall)
    part fun _ => checked (sysEnvSetStatus cur childId 2)
    pure childId

section Run

variable (c : Nat) {cur}

end Run

end

/-! ### What else happens -/

/-- Before a part the environment may store to the pages that `fork` duplicates, and others may run. -/
inductive Meanwhile (code : ForkCode) (cur : EnvIdx) :
    Stores → Nat → Kernel → List ForkAct → Nat → Kernel → Prop
  /-- Afterwards the environment runs on `c'`. -/
  | switch {mode : Stores} {c c' d : Nat} {k k' : Kernel} (same : k.SameMaps k')
      (upcall : ∀ e, (k'.envs e).pgfaultUpcall = (k.envs e).pgfaultUpcall)
      (executes : k'.Executes c' cur d) : Meanwhile code cur mode c k [] c' k'
  | store {mode : Stores} {c d n : Nat} {k k' : Kernel} {f : PageFault} {r : Registers} {va : Word}
      {b : Byte} (executes : k.Executes c cur d) (page : ForkPage va) (stack : ProgramStack r)
      (noFault : mode = .inPlace → k.WritesInPlace cur va)
      (run : cowStore c cur code f n r va b k = .ret () k') :
      Meanwhile code cur mode c k ((k.accesses cur r va b).map .access) c k'

/-- In `k` the environment calls `fork`, has called `set_pgfault_handler`, and then `sys_exofork` and the
rest. -/
abbrev ForkRuns (code : ForkCode) (cur : EnvIdx) (c : Nat) (k : Kernel) (as : List ForkAct)
    (childId : Word) (c' : Nat) (k' : Kernel) : Prop :=
  Parts.Runs (Meanwhile code cur) c (forkParts cur code.entry) k as childId c' k'

end Jos
