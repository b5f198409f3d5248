import Jos.Base.Bytes
import Jos.Kernel.Trap
import Mathlib.Tactic.Simps.Basic

/-!
# The page fault upcall (`lib/pfentry.S`)

An environment in user mode: its registers and its address space, with what it may read
and write. `fault` is what `page_fault_handler` makes of it, and `_pgfault_upcall` is the
code that runs next: it calls the handler in C and goes back to where the fault
happened. An access that is not allowed, which would be another fault, is `none`.
-/

namespace Jos

/-- The general registers. -/
inductive Reg where
  | eax
  | ecx
  | edx
  | ebx
  | esp
  | ebp
  | esi
  | edi
  deriving DecidableEq, Repr

structure UserState where
  regs : Reg → Word
  eip : Word
  eflags : Word
  mem : Bytes
  readable : Word → Bool
  writable : Word → Bool

/-- The instructions of `_pgfault_upcall`. -/
inductive Instr where
  | pushl (src : Reg)
  /-- `movl addr, dst`. -/
  | movlAbs (addr : Word) (dst : Reg)
  /-- `movl off(base), dst`. -/
  | movlLoad (off : Word) (base dst : Reg)
  /-- `movl src, off(base)`. -/
  | movlStore (src : Reg) (off : Word) (base : Reg)
  | addl (imm : Word) (dst : Reg)
  | subl (imm : Word) (dst : Reg)
  /-- `call *src`, with the address of the next instruction. -/
  | call (src : Reg) (next : Word)
  | popal
  | popfl
  | popl (dst : Reg)
  | ret
  deriving DecidableEq, Repr

/-- `CF`, `PF`, `AF`, `ZF`, `SF` and `OF`. -/
def statusFlags : Word := 0x8D5

/-- The flags that `popfl` changes in user mode: these, and `TF`, `DF`, `NT`, `AC`, `ID`. -/
def userFlags : Word := 0x244DD5

/-- The status flags of the result `r` of an addition or subtraction. -/
def arithFlags (carry adjust overflow : Bool) (r : Word) : Word :=
  let parity := ((List.range 8).countP fun i => r.getLsbD i) % 2 = 0
  (if carry then 0x1 else 0) ||| (if parity then 0x4 else 0) ||| (if adjust then 0x10 else 0) |||
    (if r = 0 then 0x40 else 0) ||| (if r.msb then 0x80 else 0) ||| (if overflow then 0x800 else 0)

namespace UserState

variable (u : UserState)

@[simps -fullyApplied]
def setReg (r : Reg) (w : Word) : UserState := { u with regs := Function.update u.regs r w }

@[simps -fullyApplied]
def setEip (w : Word) : UserState := { u with eip := w }

@[simps -fullyApplied]
def setEflags (w : Word) : UserState := { u with eflags := w }

@[simps -fullyApplied]
def setMem (m : Bytes) : UserState := { u with mem := m }

/-- The status flags change, the others do not. -/
def setStatusFlags (flags : Word) : UserState :=
  u.setEflags (u.eflags &&& ~~~statusFlags ||| flags &&& statusFlags)

/-- The word at `a` may be read. -/
def CanRead (a : Word) : Prop := ∀ i < 4, u.readable (a + BitVec.ofNat 32 i)

/-- The word at `a` may be written. -/
def CanWrite (a : Word) : Prop := ∀ i < 4, u.writable (a + BitVec.ofNat 32 i)

instance (a : Word) : Decidable (u.CanRead a) := Nat.decidableBallLT 4 _

instance (a : Word) : Decidable (u.CanWrite a) := Nat.decidableBallLT 4 _

def load (a : Word) : Option Word := if u.CanRead a then some (u.mem.load a) else none

def store (a w : Word) : Option UserState :=
  if u.CanWrite a then some (u.setMem (u.mem.store a w)) else none

/-- Read the word on top of the stack. -/
def pop : Option (Word × UserState) := do
  let w ← u.load (u.regs .esp)
  pure (w, u.setReg .esp (u.regs .esp + 4))

def push (w : Word) : Option UserState := do
  let v ← u.store (u.regs .esp - 4) w
  pure (v.setReg .esp (u.regs .esp - 4))

/-- Execute one instruction. Only `call` and `ret` show `%eip`. -/
def exec (u : UserState) : Instr → Option UserState
  | .pushl src => u.push (u.regs src)
  | .movlAbs addr dst => do
      let w ← u.load addr
      pure (u.setReg dst w)
  | .movlLoad off base dst => do
      let w ← u.load (u.regs base + off)
      pure (u.setReg dst w)
  | .movlStore src off base => u.store (u.regs base + off) (u.regs src)
  | .addl imm dst =>
      let a := u.regs dst
      let r := a + imm
      let flags := arithFlags (decide (r < a)) (((a ^^^ imm ^^^ r).getLsbD 4))
        ((a ^^^ r) &&& (imm ^^^ r)).msb r
      some ((u.setReg dst r).setStatusFlags flags)
  | .subl imm dst =>
      let a := u.regs dst
      let r := a - imm
      let flags := arithFlags (decide (a < imm)) (((a ^^^ imm ^^^ r).getLsbD 4))
        ((a ^^^ imm) &&& (a ^^^ r)).msb r
      some ((u.setReg dst r).setStatusFlags flags)
  | .call src next => do
      let v ← u.push next
      pure (v.setEip (u.regs src))
  | .popal => do
      let (edi, u) ← u.pop
      let (esi, u) ← u.pop
      let (ebp, u) ← u.pop
      -- the value of `%esp` is skipped
      let (_, u) ← u.pop
      let (ebx, u) ← u.pop
      let (edx, u) ← u.pop
      let (ecx, u) ← u.pop
      let (eax, u) ← u.pop
      pure (((((((u.setReg .edi edi).setReg .esi esi).setReg .ebp ebp).setReg .ebx ebx).setReg
        .edx edx).setReg .ecx ecx).setReg .eax eax)
  | .popfl => do
      let (w, u) ← u.pop
      pure (u.setEflags (u.eflags &&& ~~~userFlags ||| w &&& userFlags))
  | .popl dst => do
      let (w, u) ← u.pop
      pure (u.setReg dst w)
  | .ret => do
      let (w, u) ← u.pop
      pure (u.setEip w)

def execs (u : UserState) : List Instr → Option UserState
  | [] => some u
  | i :: is => do
      let v ← u.exec i
      v.execs is

end UserState

/-- What the linker makes of `_pgfault_upcall`. -/
structure Upcall where
  /-- The address of `_pgfault_upcall`, which is in `env_pgfault_upcall`. -/
  entry : Word
  /-- The address of the instruction after `call *%eax`. -/
  next : Word
  /-- The address of the variable `_pgfault_handler`. -/
  handler : Word

namespace Upcall

variable (code : Upcall)

/-- `_pgfault_upcall` up to the call of the handler. -/
def enter : List Instr :=
  [.pushl .esp, .movlAbs code.handler .eax, .call .eax code.next]

/-- `_pgfault_upcall` from there on. -/
def leave : List Instr :=
  [.addl 4 .esp, .movlLoad 48 .esp .ebp, .subl 4 .ebp, .movlStore .ebp 48 .esp,
    .movlLoad 40 .esp .eax, .movlStore .eax 0 .ebp, .addl 8 .esp, .popal, .addl 4 .esp, .popfl,
    .popl .esp, .ret]

end Upcall

/-- What the processor says about a page fault. -/
structure PageFault where
  va : Word
  err : Word
  /-- What `pushal` in the kernel pushes for `%esp`. -/
  oesp : Word

namespace UserState

variable (u : UserState)

/-- The registers that a page fault saves. -/
def trapframe (f : PageFault) : Trapframe where
  regs := ⟨u.regs .edi, u.regs .esi, u.regs .ebp, f.oesp, u.regs .ebx, u.regs .edx, u.regs .ecx,
    u.regs .eax⟩
  es := gdUd ||| 3
  ds := gdUd ||| 3
  trapno := tPgflt
  err := f.err
  eip := u.eip
  cs := gdUt ||| 3
  eflags := u.eflags
  esp := u.regs .esp
  ss := gdUd ||| 3

/-- The fields of the `struct UTrapframe` that is pushed. -/
def utf (f : PageFault) : List Word :=
  [f.va, tPgflt, u.regs .edi, u.regs .esi, u.regs .ebp, f.oesp, u.regs .ebx, u.regs .edx,
    u.regs .ecx, u.regs .eax, u.eip, u.eflags, u.regs .esp]

/-- `page_fault_handler` pushes the frame and goes to the upcall. Without permission to write
there the environment is destroyed. -/
def fault (code : Upcall) (f : PageFault) : Option UserState :=
  let utf := utrapframeAddr (u.regs .esp)
  if ∀ i < 52, u.writable (utf + BitVec.ofNat 32 i) then
    some (((u.setReg .esp utf).setEip code.entry).setMem (u.mem.stores utf (u.utf f)))
  else none

end UserState

end Jos
