import Jos.User.Fork
import Jos.User.RoundTrip
import Mathlib.Data.Fintype.Pi

/-!
# The upcall on the kernel

`_pgfault_upcall` in an environment: its instructions go through the page tables, and where
they may not read or write they are page faults themselves. `handled` is a page fault from the
trap to the `ret` of `_pgfault_upcall`, with `pgfault` as the handler, and `cowStore` a store
of the program with the page fault that it may be. Nothing else runs meanwhile.
-/

namespace Jos

open Prog

instance : Fintype Reg where
  elems := {.eax, .ecx, .edx, .ebx, .esp, .ebp, .esi, .edi}
  complete r := by cases r <;> decide

/-- The registers of an environment in user mode. -/
@[ext] structure Registers where
  regs : Reg → Word
  eip : Word
  eflags : Word
  deriving DecidableEq

/-- The registers with which `env_pop_tf` goes to user mode. -/
def Trapframe.registers (tf : Trapframe) : Registers where
  regs
    | .eax => tf.regs.eax
    | .ecx => tf.regs.ecx
    | .edx => tf.regs.edx
    | .ebx => tf.regs.ebx
    | .esp => tf.esp
    | .ebp => tf.regs.ebp
    | .esi => tf.regs.esi
    | .edi => tf.regs.edi
  eip := tf.eip
  eflags := tf.eflags

/-- Execute `op`, and again after each of up to `n` page faults in it. -/
def retry {α : Type} (handle : Word → User Unit) : Nat → User α → User α
  | 0, op => op
  | n + 1, op => fun k =>
      match op k with
      | .exit (.fault va) k' => (do
          handle va
          retry handle n op) k'
      | o => o

section Retry

variable {α : Type} {handle : Word → User Unit} {n : Nat} {op : User α} {k k' : Kernel}

theorem retry_ret {a : α} (h : op k = .ret a k') : retry handle n op k = .ret a k' := by
  cases n with
  | zero => exact h
  | succ n => simp only [retry, h]

theorem retry_fault {va : Word} (h : op k = .exit (.fault va) k') :
    retry handle (n + 1) op k = (do
      handle va
      retry handle n op) k' := by
  simp only [retry, h]

/-- What is left to do after `op` is not executed again. -/
theorem retry_bind_pure {β : Type} (b : β) :
    retry handle n (op >>= fun _ => pure b) k = (retry handle n op >>= fun _ => pure b) k := by
  induction n generalizing k with
  | zero => rfl
  | succ n ih =>
      cases hop : op k with
      | ret a k' =>
          have hpure : (op >>= fun _ => pure b) k = .ret b k' := bind_ret _ hop
          rw [retry_ret hpure, bind_ret _ (retry_ret hop)]
          rfl
      | exit why k' =>
          have hexit : (op >>= fun _ => (pure b : User β)) k = .exit why k' := bind_exit _ hop
          cases why with
          | fault va =>
              have hagain : (retry handle (n + 1) op >>= fun _ => (pure b : User β)) k =
                  ((do
                    handle va
                    retry handle n op) >>= fun _ => pure b) k' := by
                simp only [bind, retry_fault hop]
              rw [retry_fault hexit, hagain, bind_bind]
              cases hhandle : handle va k' with
              | ret a k'' => rw [bind_ret _ hhandle, bind_ret _ hhandle, ih]
              | exit why k'' => rw [bind_exit _ hhandle, bind_exit _ hhandle]
              | panic why => rw [bind_panic _ hhandle, bind_panic _ hhandle]
          | panic => simp only [retry, bind, hop]
          | left => simp only [retry, bind, hop]
      | panic why => simp only [retry, bind, hop]

end Retry

/-- The processor may write the byte at `va`. -/
def probe (c : Nat) (va : Word) : User Unit := do
  let k ← get
  match k.phys.translate (k.cpus c).cr3 va with
  | none => exit (.fault va)
  | some (pde, pte) =>
      if pde &&& pteU = 0 ∨ pte &&& pteU = 0 ∨ pde &&& pteW = 0 ∨ pte &&& pteW = 0 then
        exit (.fault va)
      else pure ()

/-- Store a word at `va`, all of it or nothing. -/
def storeWord (c : Nat) (va w : Word) : User Unit := do
  forRange 4 fun i => probe c (va + BitVec.ofNat 32 i)
  forRange 4 fun i => store c (va + BitVec.ofNat 32 i) (w.extractLsb' (8 * i) 8)

namespace Registers

variable (r : Registers)

/-- The registers in an address space. -/
def inMemory (m : Bytes) (readable writable : Word → Bool) : UserState :=
  ⟨r.regs, r.eip, r.eflags, m, readable, writable⟩

/-- What a page fault saves. -/
def trapframe (f : PageFault) : Trapframe :=
  (r.inMemory (fun _ => 0) (fun _ => false) fun _ => false).trapframe f

def setReg (x : Reg) (w : Word) : Registers := { r with regs := Function.update r.regs x w }

def setStatusFlags (flags : Word) : Registers :=
  { r with eflags := r.eflags &&& ~~~statusFlags ||| flags &&& statusFlags }

section Exec

variable (c : Nat)

def pop : User (Word × Registers) := do
  let w ← loadWord c (r.regs .esp)
  pure (w, r.setReg .esp (r.regs .esp + 4))

def push (w : Word) : User Registers := do
  storeWord c (r.regs .esp - 4) w
  pure (r.setReg .esp (r.regs .esp - 4))

/-- Execute one instruction. A fault leaves the registers as they were. -/
def exec : Instr → User Registers
  | .pushl src => r.push c (r.regs src)
  | .movlAbs addr dst => do
      let w ← loadWord c addr
      pure (r.setReg dst w)
  | .movlLoad off base dst => do
      let w ← loadWord c (r.regs base + off)
      pure (r.setReg dst w)
  | .movlStore src off base => do
      storeWord c (r.regs base + off) (r.regs src)
      pure r
  | .addl imm dst =>
      let a := r.regs dst
      let s := a + imm
      let flags := arithFlags (decide (s < a)) (((a ^^^ imm ^^^ s).getLsbD 4))
        ((a ^^^ s) &&& (imm ^^^ s)).msb s
      pure ((r.setReg dst s).setStatusFlags flags)
  | .subl imm dst =>
      let a := r.regs dst
      let s := a - imm
      let flags := arithFlags (decide (a < imm)) (((a ^^^ imm ^^^ s).getLsbD 4))
        ((a ^^^ imm) &&& (a ^^^ s)).msb s
      pure ((r.setReg dst s).setStatusFlags flags)
  | .call src next => do
      let s ← r.push c next
      pure { s with eip := r.regs src }
  | .popal => do
      let (edi, s) ← r.pop c
      let (esi, s) ← s.pop c
      let (ebp, s) ← s.pop c
      let (_, s) ← s.pop c
      let (ebx, s) ← s.pop c
      let (edx, s) ← s.pop c
      let (ecx, s) ← s.pop c
      let (eax, s) ← s.pop c
      pure (((((((s.setReg .edi edi).setReg .esi esi).setReg .ebp ebp).setReg .ebx ebx).setReg
        .edx edx).setReg .ecx ecx).setReg .eax eax)
  | .popfl => do
      let (w, s) ← r.pop c
      pure { s with eflags := s.eflags &&& ~~~userFlags ||| w &&& userFlags }
  | .popl dst => do
      let (w, s) ← r.pop c
      pure (s.setReg dst w)
  | .ret => do
      let (w, s) ← r.pop c
      pure { s with eip := w }

end Exec

/-- Execute the instructions. None of them is on more than two pages. -/
def execs (c : Nat) (handle : Registers → Word → User Unit) : Registers → List Instr → User Registers
  | r, [] => pure r
  | r, i :: is => do
      let s ← retry (handle r) 2 (r.exec c i)
      execs c handle s is

theorem execs_append {c : Nat} {handle : Registers → Word → User Unit} {r r' : Registers}
    {is : List Instr} {k k' : Kernel} (js : List Instr) (h : r.execs c handle is k = .ret r' k') :
    r.execs c handle (is ++ js) k = r'.execs c handle js k' := by
  induction is generalizing r k with
  | nil =>
      obtain ⟨rfl, rfl⟩ := Outcome.ret.inj h
      rfl
  | cons i is ih =>
      rw [execs] at h
      rw [List.cons_append, execs]
      cases hi : retry (handle r) 2 (r.exec c i) k with
      | ret s k₁ =>
          rw [bind_ret _ hi] at h ⊢
          exact ih h
      | exit why k₁ =>
          rw [bind_exit _ hi] at h
          cases h
      | panic why =>
          rw [bind_panic _ hi] at h
          cases h

end Registers

/-- What the linker makes of a program that forks. -/
structure ForkCode extends Upcall where
  /-- The address of `pgfault`. -/
  pgfault : Word

section

variable (c : Nat) (cur : EnvIdx) (code : ForkCode) (f : PageFault)

/-- A page fault at `va` of code with the registers `r`. At most `n` faults are pending at once;
`f` is what the processor says about them, apart from the address, and no one reads it. What
`pgfault` leaves in its registers is overwritten when they are popped. -/
def handled : Nat → Registers → Word → User Unit
  | 0, _, _ => exit .left
  | n + 1, r, va => fun k =>
      match trap c (r.trapframe { f with va }) va 0 k with
      | .exit _ k' =>
          if k'.curenv c = some cur ∧ (k'.envs cur).tf.eip = code.entry then
            (do
              let s ← (k'.envs cur).tf.registers.execs c (handled n) code.enter
              -- the value of `_pgfault_handler`
              if s.eip = code.pgfault then do
                let utf ← loadWord c (s.regs .esp + 4)
                pgfault c cur utf
                let s ← s.execs c (handled n) (.ret :: Upcall.leave)
                if s = r then pure () else exit .left
              else exit .left) k'
          else .exit .left k'
      | .ret _ k' => .exit .left k'
      | .panic why => .panic why

/-- A store of a byte by code with the registers `r`. -/
def cowStore (n : Nat) (r : Registers) (va : Word) (b : Byte) : User Unit :=
  retry (handled c cur code f n r) 1 (store c va b)

end

end Jos
