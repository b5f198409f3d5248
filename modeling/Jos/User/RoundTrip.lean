import Jos.User.Upcall

/-!
# The round trip of a page fault

A handler is ordinary code that may do anything but write to what is pending, and that may
take page faults itself. `Runs` describes its execution, with all the nested faults and
their upcalls. Each of them ends with the registers of its own beginning, because the
frames lie below each other on the exception stack.
-/

namespace Jos

/-- `%esp` when the handler is called: below the frame, the argument and the return address. -/
def handlerEsp (esp : Word) : Word := utrapframeAddr esp - 8

/-- Trap-time stack pointers of pending faults, the innermost first. -/
inductive Nest : List Word → Prop
  /-- A fault on the normal stack, with a word below it. -/
  | outer {esp : Word} (word : 4 ≤ esp) (stack : esp ≤ ustacktop) : Nest [esp]
  /-- A fault in a handler: on the exception stack, which does not overflow. -/
  | inner {esp esp' : Word} {rest : List Word} (nest : Nest (esp' :: rest))
      (page : uxstacktop - 4096 ≤ esp) (fits : uxstacktop - 4096 ≤ handlerEsp esp)
      (below : esp ≤ handlerEsp esp') : Nest (esp :: esp' :: rest)

/-- The bytes of the `UTrapframe`. -/
def InFrame (esp a : Word) : Prop :=
  (utrapframeAddr esp).toNat ≤ a.toNat ∧ a.toNat < (utrapframeAddr esp).toNat + 52

/-- The word below the trap-time `%esp`. -/
def InScratch (esp a : Word) : Prop := esp.toNat - 4 ≤ a.toNat ∧ a.toNat < esp.toNat

/-- The argument of the handler. -/
def InArgument (esp a : Word) : Prop :=
  (utrapframeAddr esp).toNat - 4 ≤ a.toNat ∧ a.toNat < (utrapframeAddr esp).toNat

/-- What a pending fault needs. -/
def Owned (esp a : Word) : Prop := InFrame esp a ∨ InScratch esp a ∨ InArgument esp a

/-- The part of the exception stack below `top`. -/
def Below (top a : Word) : Prop := (uxstacktop - 4096).toNat ≤ a.toNat ∧ a.toNat < top.toNat

namespace Nest

variable {esp esp' : Word} {rest : List Word} {a : Word}

/-- Where the frame of the innermost fault is. -/
theorem frame (h : Nest (esp :: rest)) :
    4005556232 ≤ (utrapframeAddr esp).toNat ∧ (utrapframeAddr esp).toNat + 52 ≤ 4005560320 ∧
      (rest = [] ∧ 4 ≤ esp.toNat ∧ esp.toNat ≤ 4005552128 ∨
        rest ≠ [] ∧ esp.toNat = (utrapframeAddr esp).toNat + 56) := by
  have htop : uxstacktop.toNat = 4005560320 := by decide
  have hpage : (uxstacktop - 4096).toNat = 4005556224 := by decide
  generalize hl : esp :: rest = l at h
  induction h generalizing esp rest with
  | outer word stack =>
      obtain ⟨rfl, rfl⟩ := List.cons.inj hl
      have haddr : utrapframeAddr esp = uxstacktop - 52 := by
        rw [utrapframeAddr, if_neg]
        · rfl
        · rintro ⟨hin, -⟩
          have hlt : ustacktop < uxstacktop - 4096 := by decide
          exact absurd (Std.le_trans hin stack) (BitVec.not_le.mpr hlt)
      have hnat : (uxstacktop - 52).toNat = 4005560268 := by decide
      rw [haddr, hnat]
      rw [BitVec.le_def] at word stack
      exact ⟨by omega, by omega, .inl ⟨rfl, word, stack⟩⟩
  | inner nest page fits below ih =>
      obtain ⟨rfl, rfl⟩ := List.cons.inj hl
      obtain ⟨hlow, hhigh, -⟩ := ih rfl
      rw [handlerEsp, BitVec.le_def] at fits below
      rw [BitVec.le_def] at page
      rw [hpage] at fits page
      have hbelow : esp.toNat < 4005560320 := by
        rw [BitVec.toNat_sub] at below
        have h8 : (8 : Word).toNat = 8 := rfl
        omega
      have haddr : utrapframeAddr esp = esp - 56 := by
        rw [utrapframeAddr, if_pos]
        · rfl
        · constructor
          · rw [ge_iff_le, BitVec.le_def, hpage]
            exact page
          · rw [BitVec.lt_def, htop]
            exact hbelow
      rw [haddr] at fits ⊢
      have h8 : (8 : Word).toNat = 8 := rfl
      have h56 : (56 : Word).toNat = 56 := rfl
      rw [BitVec.toNat_sub, BitVec.toNat_sub] at fits
      rw [BitVec.toNat_sub]
      refine ⟨by omega, by omega, .inr ⟨by simp, by omega⟩⟩

theorem toNat_handlerEsp (h : Nest (esp :: rest)) :
    (handlerEsp esp).toNat = (utrapframeAddr esp).toNat - 8 := by
  obtain ⟨hlow, -, -⟩ := h.frame
  have h8 : (8 : Word).toNat = 8 := rfl
  rw [handlerEsp, BitVec.toNat_sub]
  omega

theorem tail (h : Nest (esp :: esp' :: rest)) : Nest (esp' :: rest) := by
  cases h with
  | inner nest _ _ _ => exact nest

theorem esp_le (h : Nest (esp :: esp' :: rest)) : esp.toNat + 8 ≤ (utrapframeAddr esp').toNat := by
  cases h with
  | inner nest _ _ below =>
      obtain ⟨hlow, -, -⟩ := nest.frame
      rw [BitVec.le_def, nest.toNat_handlerEsp] at below
      omega

/-- A fault leaves everything that outer ones need where it is. -/
theorem below_of_mem (h : Nest (esp :: rest)) (mem : esp' ∈ rest) :
    esp.toNat + 8 ≤ (utrapframeAddr esp').toNat ∧
      (esp'.toNat ≤ 4005552128 ∨ esp'.toNat = (utrapframeAddr esp').toNat + 56) := by
  induction rest generalizing esp with
  | nil => simp at mem
  | cons e rest ih =>
      have hbelow := h.esp_le
      obtain ⟨-, -, hcase⟩ := h.tail.frame
      rcases List.mem_cons.mp mem with rfl | hmem
      · refine ⟨hbelow, ?_⟩
        rcases hcase with ⟨-, -, hle⟩ | ⟨-, heq⟩
        · exact .inl hle
        · exact .inr heq
      · obtain ⟨hle, hcase'⟩ := ih h.tail hmem
        refine ⟨?_, hcase'⟩
        rcases hcase with ⟨rfl, -, -⟩ | ⟨-, heq⟩
        · simp at hmem
        · omega

/-- Nothing that a pending fault needs is below the innermost handler's stack pointer. -/
theorem not_below_of_owned (h : Nest (esp :: rest)) (mem : esp' ∈ esp :: rest)
    (owned : Owned esp' a) : ¬ Below (handlerEsp esp) a := by
  have hpage : (uxstacktop - 4096).toNat = 4005556224 := by decide
  obtain ⟨hlow, hhigh, hcase⟩ := h.frame
  rintro ⟨hbase, hlt⟩
  rw [hpage] at hbase
  rw [h.toNat_handlerEsp] at hlt
  rcases List.mem_cons.mp mem with rfl | hmem
  · rcases owned with hin | hin | hin <;> simp only [InFrame, InScratch, InArgument] at hin <;> omega
  · obtain ⟨hle, hcase'⟩ := h.below_of_mem hmem
    have heq := (hcase.resolve_left fun hnil => List.ne_nil_of_mem hmem hnil.1).2
    rcases owned with hin | hin | hin <;> simp only [InFrame, InScratch, InArgument] at hin <;> omega

/-- Inner frames do not overlap outer ones, nor their scratch words. -/
theorem disjoint (h : Nest (esp :: rest)) (mem : esp' ∈ rest) (inner : Owned esp a) :
    ¬ Owned esp' a := by
  obtain ⟨hlow, hhigh, hcase⟩ := h.frame
  obtain ⟨hle, hcase'⟩ := h.below_of_mem mem
  have hne : rest ≠ [] := List.ne_nil_of_mem mem
  intro outer
  have heq := (hcase.resolve_left fun hnil => hne hnil.1).2
  rcases inner with hin | hin | hin <;> rcases outer with hout | hout | hout <;>
    simp only [InFrame, InScratch, InArgument] at hin hout <;> omega

end Nest

namespace UserState

variable {u w : UserState} {a b e : Word}

theorem load_eq (h : u.CanRead a) : u.load a = some (u.mem.load a) := if_pos h

theorem store_eq (h : u.CanWrite a) (v : Word) : u.store a v = some (u.setMem (u.mem.store a v)) :=
  if_pos h

theorem pop_eq (h : u.CanRead (u.regs .esp)) :
    u.pop = some (u.mem.load (u.regs .esp), u.setReg .esp (u.regs .esp + 4)) := by
  rw [pop, load_eq h]
  rfl

theorem push_eq {esp : Word} (hesp : u.regs .esp - 4 = esp) (h : u.CanWrite esp) (v : Word) :
    u.push v = some ((u.setMem (u.mem.store esp v)).setReg .esp esp) := by
  rw [push, hesp, store_eq h]
  rfl

theorem execs_cons {i : Instr} (is : List Instr) (h : u.exec i = some w) :
    u.execs (i :: is) = w.execs is := by
  rw [execs, h]
  rfl

/-- Arithmetic changes no flag that `popfl` could not. -/
theorem setStatusFlags_system (u : UserState) (f : Word) :
    (u.setStatusFlags f).eflags &&& ~~~userFlags = u.eflags &&& ~~~userFlags := by
  have hkeep : ~~~statusFlags &&& ~~~userFlags = ~~~userFlags := by decide
  have hdrop : statusFlags &&& ~~~userFlags = 0 := by decide
  change (u.eflags &&& ~~~statusFlags ||| f &&& statusFlags) &&& ~~~userFlags = _
  rw [BitVec.and_comm, BitVec.and_or_distrib_left, BitVec.and_comm _ (u.eflags &&& _),
    BitVec.and_comm _ (f &&& _), BitVec.and_assoc, BitVec.and_assoc, hkeep, hdrop]
  simp

/-- The state `x` is `w` with other registers and memory, and with other status flags. -/
structure Became (w : UserState) (regs : Reg → Word) (mem : Bytes) (x : UserState) : Prop where
  regs : x.regs = regs
  mem : x.mem = mem
  readable : x.readable = w.readable
  writable : x.writable = w.writable
  eflags : x.eflags &&& ~~~userFlags = w.eflags &&& ~~~userFlags

namespace Became

variable {regs : Reg → Word} {mem : Bytes} {x : UserState}

theorem canRead (h : Became w regs mem x) (can : w.CanRead a) : x.CanRead a := by
  rw [CanRead, h.readable]
  exact can

theorem canWrite (h : Became w regs mem x) (can : w.CanWrite a) : x.CanWrite a := by
  rw [CanWrite, h.writable]
  exact can

theorem addl (h : Became w regs mem x) (imm : Word) (dst : Reg) : ∃ y,
    x.exec (.addl imm dst) = some y ∧
      Became w (Function.update regs dst (regs dst + imm)) mem y := by
  refine ⟨_, rfl, ⟨?_, h.mem, h.readable, h.writable, ?_⟩⟩
  · rw [← h.regs]
    rfl
  · exact (setStatusFlags_system _ _).trans h.eflags

theorem subl (h : Became w regs mem x) (imm : Word) (dst : Reg) : ∃ y,
    x.exec (.subl imm dst) = some y ∧
      Became w (Function.update regs dst (regs dst - imm)) mem y := by
  refine ⟨_, rfl, ⟨?_, h.mem, h.readable, h.writable, ?_⟩⟩
  · rw [← h.regs]
    rfl
  · exact (setStatusFlags_system _ _).trans h.eflags

theorem movlLoad (h : Became w regs mem x) (off : Word) (base dst : Reg)
    (haddr : regs base + off = a) (can : w.CanRead a) : ∃ y,
    x.exec (.movlLoad off base dst) = some y ∧
      Became w (Function.update regs dst (mem.load a)) mem y := by
  subst haddr
  rw [← h.regs] at can
  refine ⟨x.setReg dst (x.mem.load (x.regs base + off)), ?_,
    ⟨?_, h.mem, h.readable, h.writable, h.eflags⟩⟩
  · rw [exec, load_eq (h.canRead can)]
    rfl
  · rw [← h.regs, ← h.mem]
    rfl

theorem movlStore (h : Became w regs mem x) (src : Reg) (off : Word) (base : Reg) {v : Word}
    (haddr : regs base + off = a) (hsrc : regs src = v) (can : w.CanWrite a) : ∃ y,
    x.exec (.movlStore src off base) = some y ∧ Became w regs (mem.store a v) y := by
  subst haddr hsrc
  rw [← h.regs] at can
  refine ⟨x.setMem (x.mem.store (x.regs base + off) (x.regs src)), store_eq (h.canWrite can) _,
    ⟨h.regs, ?_, h.readable, h.writable, h.eflags⟩⟩
  rw [← h.regs, ← h.mem]
  rfl

/-- The registers that `popal` loads from `esp` on. -/
def popped (mem : Bytes) (esp : Word) : Reg → Word
  | .edi => mem.load esp
  | .esi => mem.load (esp + 4)
  | .ebp => mem.load (esp + 8)
  | .ebx => mem.load (esp + 16)
  | .edx => mem.load (esp + 20)
  | .ecx => mem.load (esp + 24)
  | .eax => mem.load (esp + 28)
  | .esp => esp + 32

theorem pop (h : Became w regs mem x) (esp : Word) (hesp : regs .esp = esp)
    (can : w.CanRead esp) : ∃ y, x.pop = some (mem.load esp, y) ∧
      Became w (Function.update regs .esp (esp + 4)) mem y := by
  subst hesp
  rw [← h.regs] at can
  refine ⟨x.setReg .esp (x.regs .esp + 4), ?_, ⟨?_, h.mem, h.readable, h.writable, h.eflags⟩⟩
  · rw [pop_eq (h.canRead can), h.regs, h.mem]
  · rw [← h.regs]
    rfl

theorem popal (h : Became w regs mem x) (esp : Word) (hesp : regs .esp = esp)
    (can : ∀ i < 8, w.CanRead (esp + BitVec.ofNat 32 (4 * i))) : ∃ y,
    x.exec .popal = some y ∧ Became w (popped mem esp) mem y := by
  have hadd : ∀ c d : Word, esp + c + d = esp + (c + d) := fun c d => BitVec.add_assoc esp c d
  obtain ⟨x₁, e₁, h₁⟩ := h.pop esp hesp (by simpa using can 0 (by decide))
  obtain ⟨x₂, e₂, h₂⟩ := h₁.pop _ (Function.update_self ..) (can 1 (by decide))
  obtain ⟨x₃, e₃, h₃⟩ := h₂.pop _ (Function.update_self ..) (by rw [hadd]; exact can 2 (by decide))
  obtain ⟨x₄, e₄, h₄⟩ := h₃.pop _ (Function.update_self ..)
    (by rw [hadd, hadd]; exact can 3 (by decide))
  obtain ⟨x₅, e₅, h₅⟩ := h₄.pop _ (Function.update_self ..)
    (by rw [hadd, hadd, hadd]; exact can 4 (by decide))
  obtain ⟨x₆, e₆, h₆⟩ := h₅.pop _ (Function.update_self ..)
    (by rw [hadd, hadd, hadd, hadd]; exact can 5 (by decide))
  obtain ⟨x₇, e₇, h₇⟩ := h₆.pop _ (Function.update_self ..)
    (by rw [hadd, hadd, hadd, hadd, hadd]; exact can 6 (by decide))
  obtain ⟨x₈, e₈, h₈⟩ := h₇.pop _ (Function.update_self ..)
    (by rw [hadd, hadd, hadd, hadd, hadd, hadd]; exact can 7 (by decide))
  have hrun : ∃ y, x.exec .popal = some y ∧ y.regs = popped mem esp ∧ y.mem = x₈.mem ∧
      y.readable = x₈.readable ∧ y.writable = x₈.writable ∧ y.eflags = x₈.eflags := by
    simp only [exec, e₁, e₂, e₃, e₄, e₅, e₆, e₇, e₈, Option.bind_eq_bind, Option.bind_some,
      Option.pure_def, Option.some.injEq, exists_eq_left', setReg_mem, setReg_readable,
      setReg_writable, setReg_eflags, and_self, and_true]
    funext r
    cases r <;> simp [popped, h₈.regs, hadd]
  obtain ⟨y, hexec, hregs, hmem, hreadable, hwritable, heflags⟩ := hrun
  exact ⟨y, hexec, ⟨hregs, hmem.trans h₈.mem, hreadable.trans h₈.readable,
    hwritable.trans h₈.writable, heflags ▸ h₈.eflags⟩⟩

end Became

/-- The memory after the two stores of the second half of `_pgfault_upcall`. -/
def left (mem : Bytes) (b e : Word) : Bytes :=
  (mem.store (b + 48) (e - 4)).store (e - 4) (mem.load (b + 40))

section Left

variable {mem : Bytes} {i : Nat}

theorem add_shift (b : Word) (i : Nat) :
    b + 8 + BitVec.ofNat 32 (4 * i) = b + BitVec.ofNat 32 (4 * (i + 2)) := by
  rw [BitVec.add_assoc, Nat.mul_add, Nat.add_comm, BitVec.ofNat_add]
  rfl

theorem load_below (v : Word) (hi : i < 12) :
    (mem.store (b + 48) v).load (b + BitVec.ofNat 32 (4 * i)) =
      mem.load (b + BitVec.ofNat 32 (4 * i)) := by
  refine Bytes.load_store_of_apart ?_
  have h48 : (48 : Word).toNat = 48 := rfl
  constructor <;> rw [BitVec.toNat_sub, BitVec.toNat_add, BitVec.toNat_add, BitVec.toNat_ofNat] <;>
    omega

variable (apart : ∀ i < 13, Bytes.Apart (e - 4) (b + BitVec.ofNat 32 (4 * i)))

include apart

/-- The frame is as before, but for the stack pointer. -/
theorem left_frame (hi : i < 12) :
    (left mem b e).load (b + BitVec.ofNat 32 (4 * i)) = mem.load (b + BitVec.ofNat 32 (4 * i)) := by
  rw [left, Bytes.load_store_of_apart (apart i (by omega)), load_below _ hi]

theorem left_esp : (left mem b e).load (b + 48) = e - 4 :=
  (Bytes.load_store_of_apart (apart 12 (by decide))).trans Bytes.load_store_self

theorem popped_left : Became.popped (left mem b e) (b + 8) = Became.popped mem (b + 8) := by
  have hword : ∀ i < 8, (left mem b e).load (b + 8 + BitVec.ofNat 32 (4 * i)) =
      mem.load (b + 8 + BitVec.ofNat 32 (4 * i)) := by
    intro i hi
    rw [add_shift]
    exact left_frame apart (by omega)
  funext r
  cases r with
  | edi => simpa [Became.popped] using hword 0 (by decide)
  | esi => exact hword 1 (by decide)
  | ebp => exact hword 2 (by decide)
  | ebx => exact hword 4 (by decide)
  | edx => exact hword 5 (by decide)
  | ecx => exact hword 6 (by decide)
  | eax => exact hword 7 (by decide)
  | esp => rfl

end Left

/-- `_pgfault_upcall` up to its store below the trap-time stack pointer. -/
def leaveFirst : List Instr :=
  [.addl 4 .esp, .movlLoad 48 .esp .ebp, .subl 4 .ebp, .movlStore .ebp 48 .esp,
    .movlLoad 40 .esp .eax]

/-- `_pgfault_upcall` from there on. -/
def leaveRest : List Instr :=
  [.addl 8 .esp, .popal, .addl 4 .esp, .popfl, .popl .esp, .ret]

theorem leave_eq : Upcall.leave = leaveFirst ++ .movlStore .eax 0 .ebp :: leaveRest := rfl

theorem execs_append {is : List Instr} (js : List Instr) (h : u.execs is = some w) :
    u.execs (is ++ js) = w.execs js := by
  induction is generalizing u with
  | nil => rw [Option.some.inj h, List.nil_append]
  | cons i is ih =>
      rw [execs] at h
      obtain ⟨v, hv, hrest⟩ := Option.bind_eq_some_iff.mp h
      rw [List.cons_append, execs_cons _ hv]
      exact ih hrest

/-- The saved stack pointer is moved down by a word. -/
theorem leaveFirst_run (hesp : w.regs .esp = b - 4) (hread : w.CanRead (b + 40) ∧ w.CanRead (b + 48))
    (hwrite : w.CanWrite (b + 48)) (htrap : w.mem.load (b + 48) = e) :
    ∃ x, w.execs leaveFirst = some x ∧
      Became w x.regs (w.mem.store (b + 48) (e - 4)) x ∧ x.regs .esp = b ∧ x.regs .ebp = e - 4 ∧
      x.regs .eax = w.mem.load (b + 40) := by
  have hcancel : b - 4 + 4 = b := by bv_omega
  have h₀ : Became w w.regs w.mem w := ⟨rfl, rfl, rfl, rfl, rfl⟩
  obtain ⟨x₁, e₁, h₁⟩ := h₀.addl 4 .esp
  rw [hesp, hcancel] at h₁
  obtain ⟨x₂, e₂, h₂⟩ := h₁.movlLoad 48 .esp .ebp (by simp) hread.2
  obtain ⟨x₃, e₃, h₃⟩ := h₂.subl 4 .ebp
  obtain ⟨x₄, e₄, h₄⟩ := h₃.movlStore .ebp 48 .esp (v := e - 4) (by simp) (by simpa using htrap)
    hwrite
  obtain ⟨x₅, e₅, h₅⟩ := h₄.movlLoad 40 .esp .eax (by simp) hread.1
  refine ⟨x₅, ?_, ⟨rfl, h₅.mem, h₅.readable, h₅.writable, h₅.eflags⟩, ?_, ?_, ?_⟩
  · rw [leaveFirst, execs_cons _ e₁, execs_cons _ e₂, execs_cons _ e₃, execs_cons _ e₄,
      execs_cons _ e₅]
    rfl
  · simp [h₅.regs]
  · simpa [h₅.regs] using htrap
  · simpa [h₅.regs] using load_below (i := 10) _ (by decide)

/-- The registers are popped, and `ret` takes the word below the trap-time stack pointer. -/
theorem leaveRest_run (hesp : w.regs .esp = b)
    (hread : ∀ i < 13, w.CanRead (b + BitVec.ofNat 32 (4 * i))) (hscratch : w.CanRead (e - 4))
    (hstack : w.mem.load (b + 48) = e - 4) :
    ∃ u, w.execs leaveRest = some u ∧
      u.regs = Function.update (Became.popped w.mem (b + 8)) .esp e ∧
      u.eip = w.mem.load (e - 4) ∧
      u.eflags = w.eflags &&& ~~~userFlags ||| w.mem.load (b + 44) &&& userFlags ∧
      u.mem = w.mem ∧ u.readable = w.readable ∧ u.writable = w.writable := by
  have hadd : ∀ c d : Word, b + c + d = b + (c + d) := fun c d => BitVec.add_assoc b c d
  have h₀ : Became w w.regs w.mem w := ⟨rfl, rfl, rfl, rfl, rfl⟩
  obtain ⟨x₇, e₇, h₇⟩ := h₀.addl 8 .esp
  rw [hesp] at h₇
  have hregs : ∀ i < 8, w.CanRead (b + 8 + BitVec.ofNat 32 (4 * i)) := by
    intro i hi
    rw [add_shift]
    exact hread (i + 2) (by omega)
  obtain ⟨x₈, e₈, h₈⟩ := h₇.popal (b + 8) (by simp) hregs
  obtain ⟨x₉, e₉, h₉⟩ := h₈.addl 4 .esp
  obtain ⟨x₁₀, e₁₀, h₁₀⟩ := h₉.pop (b + 44) (by simp [Became.popped, hadd]) (hread 11 (by decide))
  -- from here on the flags are those of the frame
  set flags := w.eflags &&& ~~~userFlags ||| w.mem.load (b + 44) &&& userFlags with hflags
  have hpopfl : x₉.exec .popfl = some (x₁₀.setEflags flags) := by
    simp only [exec, e₁₀, Option.bind_eq_bind, Option.bind_some, Option.pure_def, h₁₀.eflags, hflags]
  have hpopl : (x₁₀.setEflags flags).exec (.popl .esp) =
      some (((x₁₀.setEflags flags).setReg .esp (b + 52)).setReg .esp (e - 4)) := by
    have hsp : (x₁₀.setEflags flags).regs .esp = b + 48 := by simp [h₁₀.regs, hadd]
    have hcan : (x₁₀.setEflags flags).CanRead (b + 48) := h₁₀.canRead (hread 12 (by decide))
    rw [exec, pop_eq (by rwa [hsp]), hsp, setEflags_mem, h₁₀.mem, hstack, hadd]
    rfl
  have hret : (((x₁₀.setEflags flags).setReg .esp (b + 52)).setReg .esp (e - 4)).exec .ret =
      some (((((x₁₀.setEflags flags).setReg .esp (b + 52)).setReg .esp (e - 4)).setReg .esp e).setEip
        (w.mem.load (e - 4))) := by
    have hcan : (((x₁₀.setEflags flags).setReg .esp (b + 52)).setReg .esp (e - 4)).CanRead
        (e - 4) := h₁₀.canRead hscratch
    have hsp : (((x₁₀.setEflags flags).setReg .esp (b + 52)).setReg .esp (e - 4)).regs .esp =
        e - 4 := by simp
    have htop : e - 4 + 4 = e := by bv_omega
    rw [exec, pop_eq (by rwa [hsp]), hsp, setReg_mem, setReg_mem, setEflags_mem, h₁₀.mem, htop]
    rfl
  refine ⟨((((x₁₀.setEflags flags).setReg .esp (b + 52)).setReg .esp (e - 4)).setReg .esp e).setEip
    (w.mem.load (e - 4)), ?_, ?_, rfl, rfl, h₁₀.mem, h₁₀.readable, h₁₀.writable⟩
  · rw [leaveRest, execs_cons _ e₇, execs_cons _ e₈, execs_cons _ e₉, execs_cons _ hpopfl,
      execs_cons _ hpopl, execs_cons _ hret]
    rfl
  · funext r
    by_cases hr : r = .esp
    · subst hr
      simp
    · simp [h₁₀.regs, Function.update_of_ne hr]

/-- The second half of `_pgfault_upcall` returns from the frame at `b`. -/
theorem leave_run (hesp : w.regs .esp = b - 4)
    (hread : ∀ i < 13, w.CanRead (b + BitVec.ofNat 32 (4 * i))) (hwrite : w.CanWrite (b + 48))
    (hscratch : w.CanRead (e - 4) ∧ w.CanWrite (e - 4)) (htrap : w.mem.load (b + 48) = e)
    (apart : ∀ i < 13, Bytes.Apart (e - 4) (b + BitVec.ofNat 32 (4 * i))) :
    ∃ u, w.execs Upcall.leave = some u ∧
      u.regs = Function.update (Became.popped w.mem (b + 8)) .esp e ∧
      u.eip = w.mem.load (b + 40) ∧
      u.eflags = w.eflags &&& ~~~userFlags ||| w.mem.load (b + 44) &&& userFlags ∧
      u.mem = left w.mem b e ∧ u.readable = w.readable ∧ u.writable = w.writable := by
  obtain ⟨x, hfirst, hx, hsp, hbp, hax⟩ := leaveFirst_run hesp
    ⟨hread 10 (by decide), hread 12 (by decide)⟩ hwrite htrap
  obtain ⟨y, hstore, hy⟩ := hx.movlStore .eax 0 .ebp (a := e - 4) (by simp [hbp]) hax
    hscratch.2
  change Became w _ (left w.mem b e) y at hy
  have hword : y.mem.load (b + 44) = w.mem.load (b + 44) := by
    rw [hy.mem]
    exact left_frame apart (i := 11) (by decide)
  have hself : y.mem.load (e - 4) = w.mem.load (b + 40) := by
    rw [hy.mem, left, Bytes.load_store_self]
  obtain ⟨u, hrest, hregs, heip, hflags, hmem, hreadable, hwritable⟩ := leaveRest_run
    (by rw [hy.regs, hsp]) (fun i hi => hy.canRead (hread i hi)) (hy.canRead hscratch.1)
    (by rw [hy.mem]; exact left_esp apart)
  refine ⟨u, ?_, ?_, heip.trans hself, ?_, hmem.trans hy.mem, hreadable.trans hy.readable,
    hwritable.trans hy.writable⟩
  · rw [leave_eq, execs_append _ hfirst, execs_cons _ hstore]
    exact hrest
  · rw [hregs, hy.mem, popped_left apart]
  · rw [hflags, hy.eflags, hword]

/-- The first half of `_pgfault_upcall` calls the handler for the frame at `b`. -/
theorem enter_run (code : Upcall) (hesp : w.regs .esp = b)
    (hpush : w.CanWrite (b - 4) ∧ w.CanWrite (b - 8)) (handler : w.CanRead code.handler) :
    ∃ v, w.execs code.enter = some v ∧ v.regs .esp = b - 8 ∧
      v.eip = (w.mem.store (b - 4) b).load code.handler ∧ v.eflags = w.eflags ∧
      v.mem = (w.mem.store (b - 4) b).store (b - 8) code.next ∧ v.readable = w.readable ∧
      v.writable = w.writable := by
  have hsub : b - 4 - 4 = b - 8 := by bv_omega
  have hargument : w.exec (.pushl .esp) =
      some ((w.setMem (w.mem.store (b - 4) b)).setReg .esp (b - 4)) := by
    rw [exec, hesp]
    exact push_eq (by rw [hesp]) hpush.1 b
  set v₁ := (w.setMem (w.mem.store (b - 4) b)).setReg .esp (b - 4) with hv₁
  have hload : v₁.exec (.movlAbs code.handler .eax) =
      some (v₁.setReg .eax (v₁.mem.load code.handler)) := by
    have hcan : v₁.CanRead code.handler := handler
    rw [exec, load_eq hcan]
    rfl
  set v₂ := v₁.setReg .eax (v₁.mem.load code.handler) with hv₂
  have hcall : v₂.exec (.call .eax code.next) = some (((v₂.setMem
      ((w.mem.store (b - 4) b).store (b - 8) code.next)).setReg .esp (b - 8)).setEip
        (v₂.regs .eax)) := by
    have hesp' : v₂.regs .esp = b - 4 := by simp [hv₂, hv₁]
    have hcan : v₂.CanWrite (b - 8) := hpush.2
    rw [exec, push_eq (by rw [hesp', hsub]) hcan]
    rfl
  refine ⟨((v₂.setMem ((w.mem.store (b - 4) b).store (b - 8) code.next)).setReg .esp (b - 8)).setEip
    (v₂.regs .eax), ?_, ?_, ?_, rfl, rfl, rfl, rfl⟩
  · rw [Upcall.enter, execs_cons _ hargument, execs_cons _ hload, execs_cons _ hcall]
    rfl
  · simp
  · simp [hv₂, hv₁]

/-- The fault, and the upcall up to the handler. -/
def upcall (u : UserState) (code : Upcall) (f : PageFault) : Option UserState := do
  let v ← u.fault code f
  v.execs code.enter

/-- The handler has returned: its return address and nothing else is popped. -/
def Returned (w : UserState) (code : Upcall) (esp : Word) : Prop :=
  w.eip = code.next ∧ w.regs .esp = handlerEsp esp + 4

/-- The exception stack and the scratch words are there, and so is `_pgfault_handler`. -/
structure Usable (code : Upcall) (pending : List Word) (u : UserState) : Prop where
  page : ∀ a, Below uxstacktop a → u.readable a ∧ u.writable a
  scratch : ∀ esp ∈ pending, ∀ a, InScratch esp a → u.readable a ∧ u.writable a
  handler : u.CanRead code.handler

end UserState

/-- A piece of a handler's own code. It keeps what is in `S`. -/
structure OwnCode (code : Upcall) (S : Set Word) (pending : List Word) (u v : UserState) :
    Prop where
  kept : ∀ a ∈ S, v.mem a = u.mem a
  owned : ∀ esp ∈ pending, ∀ a, Owned esp a → v.mem a = u.mem a
  eflags : v.eflags &&& ~~~userFlags = u.eflags &&& ~~~userFlags
  usable : u.Usable code pending → v.Usable code pending

/-- The execution of a handler, with the faults in it. -/
inductive Runs (code : Upcall) (S : Set Word) : List Word → UserState → UserState → Prop
  | refl {pending : List Word} {u : UserState} : Runs code S pending u u
  | own {pending : List Word} {u v w : UserState} (own : OwnCode code S pending u v)
      (rest : Runs code S pending v w) : Runs code S pending u w
  /-- A fault: the upcall, the handler, and the way back. -/
  | fault {pending : List Word} {u v w u' x : UserState} (f : PageFault)
      (nest : Nest (u.regs .esp :: pending)) (enter : u.upcall code f = some v)
      (handler : Runs code S (u.regs .esp :: pending) v w) (returned : w.Returned code (u.regs .esp))
      (leave : w.execs Upcall.leave = some u') (rest : Runs code S pending u' x) :
      Runs code S pending u x

namespace UserState

variable {u v w : UserState} {code : Upcall} {pending : List Word} {f : PageFault}

/-- What the handler finds. -/
theorem upcall_run (nest : Nest (u.regs .esp :: pending)) (usable : u.Usable code pending)
    (f : PageFault) : ∃ v, u.upcall code f = some v ∧ v.regs .esp = handlerEsp (u.regs .esp) ∧
      v.mem.load (utrapframeAddr (u.regs .esp) - 4) = utrapframeAddr (u.regs .esp) ∧
      (∀ (i : Nat) (hi : i < (u.utf f).length),
        v.mem.load (utrapframeAddr (u.regs .esp) + BitVec.ofNat 32 (4 * i)) = (u.utf f)[i]) ∧
      v.eflags = u.eflags ∧ v.readable = u.readable ∧ v.writable = u.writable ∧
      ∀ a, ¬ Below (utrapframeAddr (u.regs .esp) + 52) a → v.mem a = u.mem a := by
  obtain ⟨hlow, hhigh, -⟩ := nest.frame
  generalize hb : utrapframeAddr (u.regs .esp) = b at *
  have hpage : (uxstacktop - 4096).toNat = 4005556224 := by decide
  have htop : uxstacktop.toNat = 4005560320 := by decide
  have hin : ∀ a : Word, 4005556224 ≤ a.toNat → a.toNat < 4005560320 →
      u.readable a ∧ u.writable a := fun a h₁ h₂ =>
    usable.page a ⟨by rw [hpage]; exact h₁, by rw [htop]; exact h₂⟩
  have hwrite : ∀ c : Word, c.toNat = b.toNat - 4 ∨ c.toNat = b.toNat - 8 → u.CanWrite c := by
    intro c hc i hi
    refine (hin _ ?_ ?_).2 <;> rw [BitVec.toNat_add, BitVec.toNat_ofNat] <;> omega
  have h4 : (b - 4).toNat = b.toNat - 4 := by
    rw [BitVec.toNat_sub, show (4 : Word).toNat = 4 from rfl]
    omega
  have h8 : (b - 8).toNat = b.toNat - 8 := by
    rw [BitVec.toNat_sub, show (8 : Word).toNat = 8 from rfl]
    omega
  have hframe : ∀ i < 52, u.writable (b + BitVec.ofNat 32 i) := by
    intro i hi
    refine (hin _ ?_ ?_).2 <;> rw [BitVec.toNat_add, BitVec.toNat_ofNat] <;> omega
  -- the memory after the frame, the argument and the return address
  set m := u.mem.stores b (u.utf f) with hm
  have hrun : ∃ v, u.upcall code f = some v ∧ v.regs .esp = b - 8 ∧ v.eflags = u.eflags ∧
      v.readable = u.readable ∧ v.writable = u.writable ∧
      v.mem = (m.store (b - 4) b).store (b - 8) code.next := by
    have hfault : u.fault code f = some (((u.setReg .esp b).setEip code.entry).setMem m) := by
      rw [fault, hb, hm]
      exact if_pos hframe
    set v₀ := ((u.setReg .esp b).setEip code.entry).setMem m with hv₀
    have hcan : v₀.CanWrite (b - 4) ∧ v₀.CanWrite (b - 8) :=
      ⟨hwrite _ (.inl h4), hwrite _ (.inr h8)⟩
    have hhandler : v₀.CanRead code.handler := usable.handler
    obtain ⟨v, hv, hesp, -, hflags, hmem, hreadable, hwritable⟩ :=
      enter_run code (by simp [hv₀]) hcan hhandler
    refine ⟨v, ?_, hesp, hflags, hreadable, hwritable, hmem⟩
    rw [upcall, hfault]
    exact hv
  obtain ⟨v, hv, hesp, hflags, hreadable, hwritable, hmem⟩ := hrun
  refine ⟨v, hv, by rw [hesp, handlerEsp, hb], ?_, fun i hi => ?_, hflags, hreadable, hwritable,
    fun a ha => ?_⟩
  · rw [hmem, Bytes.load_store_of_apart, Bytes.load_store_self]
    constructor <;> rw [BitVec.toNat_sub, h4, h8] <;> omega
  · have hlen : (u.utf f).length = 13 := rfl
    have hapart : ∀ c : Word, c.toNat = b.toNat - 4 ∨ c.toNat = b.toNat - 8 →
        Bytes.Apart c (b + BitVec.ofNat 32 (4 * i)) := by
      intro c hc
      constructor <;> rw [BitVec.toNat_sub, BitVec.toNat_add, BitVec.toNat_ofNat] <;> omega
    rw [hmem, Bytes.load_store_of_apart (hapart _ (.inr h8)),
      Bytes.load_store_of_apart (hapart _ (.inl h4)), hm]
    exact Bytes.load_stores (by rw [hlen]; decide) hi
  · have hout : ¬ (4005556224 ≤ a.toNat ∧ a.toNat < b.toNat + 52) := by
      rw [Below, hpage, BitVec.toNat_add, show (52 : Word).toNat = 52 from rfl] at ha
      omega
    rw [hmem, Bytes.store_of_not_inWord, Bytes.store_of_not_inWord, hm, Bytes.stores_of_le]
    · exact (by decide : 4 * 13 ≤ 2 ^ 32)
    · change 52 ≤ _
      rw [BitVec.toNat_sub]
      omega
    · rw [Bytes.InWord, BitVec.toNat_sub, h4]
      omega
    · rw [Bytes.InWord, BitVec.toNat_sub, h8]
      omega

/-- The flags of user mode from one word, the others from another one with the same. -/
theorem flags_restored {x y : Word} (h : x &&& ~~~userFlags = y &&& ~~~userFlags) :
    x &&& ~~~userFlags ||| y &&& userFlags = y := by
  rw [h, BitVec.or_comm, ← BitVec.and_or_distrib_left, BitVec.or_not_self, BitVec.and_allOnes]

/-- From the return of the handler to the trap-time state. -/
theorem leave_total (nest : Nest (u.regs .esp :: pending)) (usable : u.Usable code pending)
    (enter : u.upcall code f = some v) (usable' : w.Usable code (u.regs .esp :: pending))
    (owned : ∀ a, Owned (u.regs .esp) a → w.mem a = v.mem a)
    (flags : w.eflags &&& ~~~userFlags = v.eflags &&& ~~~userFlags)
    (returned : w.Returned code (u.regs .esp)) :
    ∃ u', w.execs Upcall.leave = some u' ∧ u'.regs = u.regs ∧ u'.eip = u.eip ∧
      u'.eflags = u.eflags ∧ u'.readable = w.readable ∧ u'.writable = w.writable ∧
      ∀ a, ¬ Below (utrapframeAddr (u.regs .esp) + 52) a → ¬ InScratch (u.regs .esp) a →
        w.mem a = v.mem a → u'.mem a = u.mem a := by
  obtain ⟨v', hv', -, -, hframe, hflags, -, -, hmem⟩ := upcall_run nest usable f
  obtain rfl : v' = v := Option.some.inj (hv'.symm.trans enter)
  obtain ⟨hlow, hhigh, hcase⟩ := nest.frame
  have hpage : (uxstacktop - 4096).toNat = 4005556224 := by decide
  have htop : uxstacktop.toNat = 4005560320 := by decide
  have hesp : w.regs .esp = utrapframeAddr (u.regs .esp) - 4 := by
    rw [returned.2, handlerEsp]
    bv_omega
  generalize he : u.regs .esp = e at *
  have hb : ∀ a, Owned e a ↔ InFrame e a ∨ InScratch e a ∨ InArgument e a := fun _ => Iff.rfl
  simp only [InFrame, InScratch, InArgument] at hb
  generalize utrapframeAddr e = b at *
  have h4 : (e - 4).toNat = e.toNat - 4 := by
    rw [BitVec.toNat_sub, show (4 : Word).toNat = 4 from rfl]
    omega
  have h48 : (b + 48).toNat = b.toNat + 48 := by
    rw [BitVec.toNat_add, show (48 : Word).toNat = 48 from rfl]
    omega
  -- the bytes of the frame and of the scratch word
  have hin : ∀ a : Word, b.toNat ≤ a.toNat → a.toNat < b.toNat + 52 →
      w.readable a ∧ w.writable a := fun a h₁ h₂ =>
    usable'.page a ⟨by rw [hpage]; omega, by rw [htop]; omega⟩
  have hword : ∀ i < 13, ∀ j < 4, (b + BitVec.ofNat 32 (4 * i) + BitVec.ofNat 32 j).toNat =
      b.toNat + 4 * i + j := by
    intro i hi j hj
    rw [BitVec.toNat_add, BitVec.toNat_add, BitVec.toNat_ofNat, BitVec.toNat_ofNat]
    omega
  have hscratch : ∀ j < 4, w.readable (e - 4 + BitVec.ofNat 32 j) ∧
      w.writable (e - 4 + BitVec.ofNat 32 j) := by
    intro j hj
    refine usable'.scratch e (by simp) _ ⟨?_, ?_⟩ <;>
      rw [BitVec.toNat_add, h4, BitVec.toNat_ofNat] <;> omega
  have hread : ∀ i < 13, w.CanRead (b + BitVec.ofNat 32 (4 * i)) := by
    intro i hi j hj
    refine (hin _ ?_ ?_).1 <;> rw [hword i hi j hj] <;> omega
  have hwrite : w.CanWrite (b + 48) := by
    intro j hj
    refine (hin _ ?_ ?_).2 <;> rw [BitVec.toNat_add, h48, BitVec.toNat_ofNat] <;> omega
  have hkept : ∀ (i : Nat) (hi : i < 13),
      w.mem.load (b + BitVec.ofNat 32 (4 * i)) = (u.utf f).get ⟨i, hi⟩ := by
    intro i hi
    refine Eq.trans (Bytes.load_congr fun a ha => owned a ((hb a).mpr (.inl ?_))) (hframe i hi)
    have hnat := hword i hi 0 (by decide)
    rw [Bytes.InWord, BitVec.toNat_sub] at ha
    rw [BitVec.add_zero] at hnat
    omega
  have hapart : ∀ i < 13, Bytes.Apart (e - 4) (b + BitVec.ofNat 32 (4 * i)) := by
    intro i hi
    have hnat := hword i hi 0 (by decide)
    rw [BitVec.add_zero] at hnat
    constructor <;> rw [BitVec.toNat_sub, h4, hnat] <;> omega
  have htrap : w.mem.load (b + 48) = e := (hkept 12 (by decide)).trans he
  obtain ⟨u', hrun, hregs, heip, heflags, hmem', hr, hw⟩ := leave_run hesp hread hwrite
    ⟨fun j hj => (hscratch j hj).1, fun j hj => (hscratch j hj).2⟩ htrap hapart
  refine ⟨u', hrun, ?_, ?_, ?_, hr, hw, fun a hout hno hsame => ?_⟩
  · have hreg : ∀ i < 8, w.mem.load (b + 8 + BitVec.ofNat 32 (4 * i)) =
        w.mem.load (b + BitVec.ofNat 32 (4 * (i + 2))) := fun i _ => by rw [add_shift]
    rw [hregs]
    funext r
    cases r with
    | edi => exact hkept 2 (by decide)
    | esi => exact (hreg 1 (by decide)).trans (hkept 3 (by decide))
    | ebp => exact (hreg 2 (by decide)).trans (hkept 4 (by decide))
    | ebx => exact (hreg 4 (by decide)).trans (hkept 6 (by decide))
    | edx => exact (hreg 5 (by decide)).trans (hkept 7 (by decide))
    | ecx => exact (hreg 6 (by decide)).trans (hkept 8 (by decide))
    | eax => exact (hreg 7 (by decide)).trans (hkept 9 (by decide))
    | esp => rw [Function.update_self, he]
  · exact heip.trans (hkept 10 (by decide))
  · have hsaved : w.mem.load (b + 44) = u.eflags := hkept 11 (by decide)
    rw [heflags, hsaved]
    exact flags_restored (flags.trans (by rw [hflags]))
  · have hnot : ¬ (4005556224 ≤ a.toNat ∧ a.toNat < b.toNat + 52) := by
      rw [Below, hpage, BitVec.toNat_add, show (52 : Word).toNat = 52 from rfl] at hout
      omega
    rw [InScratch] at hno
    rw [hmem', left, Bytes.store_of_not_inWord, Bytes.store_of_not_inWord, hsame, hmem a hout]
    · rw [Bytes.InWord, BitVec.toNat_sub, h48]
      omega
    · rw [Bytes.InWord, BitVec.toNat_sub, h4]
      omega

end UserState

/-- A nested fault writes below the outer handler's stack pointer only. -/
theorem Nest.below_outer {esp esp' a : Word} {rest : List Word} (h : Nest (esp :: esp' :: rest))
    (ha : Below (utrapframeAddr esp + 52) a ∨ InScratch esp a) : Below (handlerEsp esp') a := by
  obtain ⟨hlow, hhigh, hcase⟩ := h.frame
  have heq := (hcase.resolve_left fun hnil => by simp at hnil).2
  have hle := h.esp_le
  have hpage : (uxstacktop - 4096).toNat = 4005556224 := by decide
  have hnat : (utrapframeAddr esp + 52).toNat = (utrapframeAddr esp).toNat + 52 := by
    rw [BitVec.toNat_add, show (52 : Word).toNat = 52 from rfl]
    omega
  rw [Below, hpage, h.tail.toNat_handlerEsp]
  rcases ha with ⟨hbase, hlt⟩ | ⟨hbase, hlt⟩
  · rw [hpage] at hbase
    rw [hnat] at hlt
    omega
  · omega

namespace UserState.Usable

variable {code : Upcall} {u v : UserState} {pending : List Word}

theorem congr (h : u.Usable code pending) (readable : v.readable = u.readable)
    (writable : v.writable = u.writable) : v.Usable code pending := by
  refine ⟨?_, ?_, ?_⟩
  · rw [readable, writable]
    exact h.page
  · rw [readable, writable]
    exact h.scratch
  · rw [CanRead, readable]
    exact h.handler

/-- The scratch word of a nested fault is on the exception stack. -/
theorem nested {esp esp' : Word} {rest : List Word} (h : u.Usable code (esp' :: rest))
    (nest : Nest (esp :: esp' :: rest)) : u.Usable code (esp :: esp' :: rest) := by
  refine ⟨h.page, fun e he a ha => ?_, h.handler⟩
  rcases List.mem_cons.mp he with rfl | he
  · have htop : uxstacktop.toNat = 4005560320 := by decide
    obtain ⟨hbase, hlt⟩ := nest.below_outer (.inr ha)
    obtain ⟨-, hhigh, -⟩ := nest.tail.frame
    rw [nest.tail.toNat_handlerEsp] at hlt
    exact h.page a ⟨hbase, by omega⟩
  · exact h.scratch e he a ha

end UserState.Usable

namespace Runs

variable {code : Upcall} {S : Set Word} {u v w : UserState} {esp : Word} {rest : List Word}

/-- A handler, with all that happens in it, keeps what is pending, and what it does not write
itself above its stack pointer. -/
theorem keeps {pending : List Word} (h : Runs code S pending u w) (hpending : pending = esp :: rest)
    (nest : Nest pending) (usable : u.Usable code pending) :
    w.Usable code pending ∧ w.eflags &&& ~~~userFlags = u.eflags &&& ~~~userFlags ∧
      (∀ a ∈ S, ¬ Below (handlerEsp esp) a → w.mem a = u.mem a) ∧
      ∀ e ∈ pending, ∀ a, Owned e a → w.mem a = u.mem a := by
  induction h generalizing esp rest with
  | refl => exact ⟨usable, rfl, fun _ _ _ => rfl, fun _ _ _ _ => rfl⟩
  | own own _ ih =>
      obtain ⟨husable, hflags, hkept, howned⟩ := ih hpending nest (own.usable usable)
      refine ⟨husable, hflags.trans own.eflags, fun a ha hout => ?_, fun e he a hin => ?_⟩
      · rw [hkept a ha hout, own.kept a ha]
      · rw [howned e he a hin, own.owned e he a hin]
  | @fault pending u v w u' x f nest' enter handler returned leave _ ihHandler ihRest =>
      subst hpending
      obtain ⟨v', hv', -, -, -, hflags, hr, hw, -⟩ := UserState.upcall_run nest' usable f
      obtain rfl : v' = v := Option.some.inj (hv'.symm.trans enter)
      have husable : v'.Usable code (u.regs .esp :: esp :: rest) :=
        (usable.nested nest').congr hr hw
      obtain ⟨husable', hflags', hkept, howned⟩ := ihHandler rfl nest' husable
      obtain ⟨u'', hleave, -, -, heflags, hr', hw', hmem⟩ := UserState.leave_total nest' usable enter
        husable' (howned _ (by simp)) hflags' returned
      obtain rfl : u'' = u' := Option.some.inj (hleave.symm.trans leave)
      -- above the outer handler's stack pointer the nested fault leaves everything as it was
      have hsame : ∀ a, ¬ Below (handlerEsp esp) a → w.mem a = v'.mem a → u''.mem a = u.mem a :=
        fun a hout hw => hmem a (fun h => hout (nest'.below_outer (.inl h)))
          (fun h => hout (nest'.below_outer (.inr h))) hw
      have husable'' : u''.Usable code (esp :: rest) :=
        (UserState.Usable.congr ⟨husable'.page, fun e he => husable'.scratch e (by simp [he]),
          husable'.handler⟩ hr' hw')
      obtain ⟨husable₃, hflags₃, hkept₃, howned₃⟩ := ihRest rfl nest husable''
      refine ⟨husable₃, hflags₃.trans (by rw [heflags]), fun a ha hout => ?_, fun e he a hin => ?_⟩
      · rw [hkept₃ a ha hout]
        refine hsame a hout (hkept a ha fun h => hout (nest'.below_outer (.inl ?_)))
        obtain ⟨hbase, hlt⟩ := h
        obtain ⟨hlow, hhigh, -⟩ := nest'.frame
        rw [nest'.toNat_handlerEsp] at hlt
        refine ⟨hbase, ?_⟩
        rw [BitVec.toNat_add, show (52 : Word).toNat = 52 from rfl]
        omega
      · rw [howned₃ e he a hin]
        exact hsame a (nest.not_below_of_owned he hin) (howned e (by simp [he]) a hin)

end Runs

/-- Every page fault, at any depth, comes back to where it happened. `S` are bytes that no
handler writes. -/
theorem page_fault_round_trip {code : Upcall} {u : UserState} {pending : List Word}
    (nest : Nest (u.regs .esp :: pending)) (usable : u.Usable code (u.regs .esp :: pending))
    (f : PageFault) :
    (∀ esp ∈ pending, ∀ a, Owned (u.regs .esp) a → ¬ Owned esp a) ∧
      ∃ v, u.upcall code f = some v ∧ v.regs .esp = handlerEsp (u.regs .esp) ∧
        v.mem.load (utrapframeAddr (u.regs .esp) - 4) = utrapframeAddr (u.regs .esp) ∧
        ∀ S w, Runs code S (u.regs .esp :: pending) v w → w.Returned code (u.regs .esp) →
          ∃ u', w.execs Upcall.leave = some u' ∧ u'.regs = u.regs ∧ u'.eip = u.eip ∧
            u'.eflags = u.eflags ∧
            ∀ a ∈ S, ¬ Below (utrapframeAddr (u.regs .esp) + 52) a →
              ¬ InScratch (u.regs .esp) a → u'.mem a = u.mem a := by
  have husable : u.Usable code pending :=
    ⟨usable.page, fun e he => usable.scratch e (by simp [he]), usable.handler⟩
  obtain ⟨v, hv, hesp, harg, -, -, hr, hw, -⟩ := UserState.upcall_run nest husable f
  refine ⟨fun esp mem a => nest.disjoint mem, v, hv, hesp, harg, fun S w runs returned => ?_⟩
  obtain ⟨husable', hflags, hkept, howned⟩ := runs.keeps rfl nest (usable.congr hr hw)
  obtain ⟨u', hrun, hregs, heip, heflags, -, -, hmem⟩ := UserState.leave_total nest husable hv
    husable' (howned _ (by simp)) hflags returned
  refine ⟨u', hrun, hregs, heip, heflags, fun a ha hout hno => ?_⟩
  refine hmem a hout hno (hkept a ha fun h => hout ?_)
  obtain ⟨hbase, hlt⟩ := h
  obtain ⟨hlow, hhigh, -⟩ := nest.frame
  rw [nest.toNat_handlerEsp] at hlt
  refine ⟨hbase, ?_⟩
  rw [BitVec.toNat_add, show (52 : Word).toNat = 52 from rfl]
  omega

/-- An environment that has just started, with all of its memory mapped. -/
def UserState.first : UserState where
  regs r := if r = .esp then ustacktop else 0
  eip := 0x800020
  eflags := 0x202
  mem _ := 0
  readable _ := true
  writable _ := true

/-- The handler has popped its return address. -/
def UserState.popped (u : UserState) (code : Upcall) (esp : Word) : UserState :=
  (u.setReg .esp (handlerEsp esp + 4)).setEip code.next

theorem UserState.popped_returned (u : UserState) (code : Upcall) (esp : Word) :
    (u.popped code esp).Returned code esp :=
  ⟨rfl, Function.update_self Reg.esp _ u.regs⟩

theorem UserState.popped_own (u : UserState) (code : Upcall) (S : Set Word) (esp : Word)
    (pending : List Word) : OwnCode code S pending u (u.popped code esp) where
  kept _ _ := rfl
  owned _ _ _ _ := rfl
  eflags := rfl
  usable h := h.congr rfl rfl

theorem UserState.first_usable {u : UserState} (readable : u.readable = first.readable)
    (writable : u.writable = first.writable) (code : Upcall) (pending : List Word) :
    u.Usable code pending := by
  have husable : first.Usable code pending :=
    ⟨fun _ _ => ⟨rfl, rfl⟩, fun _ _ _ _ => ⟨rfl, rfl⟩, fun _ _ => rfl⟩
  exact husable.congr readable writable

/-- The handler takes a page fault as soon as it is called. Both handlers return at once. -/
theorem page_fault_round_trip_first : ∃ v v₂ w u',
    UserState.first.upcall ⟨0x801000, 0x801008, 0x802000⟩ ⟨0xDEADBEEF, 4, 0⟩ = some v ∧
      v.upcall ⟨0x801000, 0x801008, 0x802000⟩ ⟨0x900000, 6, 0⟩ = some v₂ ∧
      Runs ⟨0x801000, 0x801008, 0x802000⟩ Set.univ [ustacktop] v w ∧
      w.execs Upcall.leave = some u' ∧ u'.regs = UserState.first.regs ∧ u'.eip = 0x800020 ∧
      u'.eflags = 0x202 ∧ u'.mem 0x800000 = 0 := by
  let code : Upcall := ⟨0x801000, 0x801008, 0x802000⟩
  have hnest : Nest [UserState.first.regs .esp] := .outer (by decide) (by decide)
  have husable := UserState.first_usable rfl rfl code
  obtain ⟨v, hv, hesp, -, -, -, hr, hw, -⟩ :=
    UserState.upcall_run hnest (husable []) ⟨0xDEADBEEF, 4, 0⟩
  obtain ⟨-, v', hv', -, -, hback⟩ := page_fault_round_trip hnest (husable _) ⟨0xDEADBEEF, 4, 0⟩
  obtain rfl : v = v' := Option.some.inj (hv.symm.trans hv')
  -- the fault of the handler
  have hesp' : v.regs .esp = handlerEsp ustacktop := hesp
  have hinner : Nest (v.regs .esp :: [UserState.first.regs .esp]) := by
    rw [hesp']
    exact .inner hnest (by decide) (by decide) (BitVec.le_refl _)
  obtain ⟨-, v₂, hv₂, -, -, hback₂⟩ := page_fault_round_trip hinner
    (UserState.first_usable hr hw code _) ⟨0x900000, 6, 0⟩
  obtain ⟨v₁, hleave₁, -⟩ := hback₂ Set.univ _ (.own (v₂.popped_own code _ _ _) .refl)
    (v₂.popped_returned code _)
  have hruns : Runs code Set.univ [ustacktop] v (v₁.popped code ustacktop) :=
    .fault _ hinner hv₂ (.own (v₂.popped_own code _ _ _) .refl) (v₂.popped_returned code _) hleave₁
      (.own (v₁.popped_own code _ _ _) .refl)
  obtain ⟨u', hleave, hregs, heip, heflags, hmem⟩ := hback _ _ hruns (v₁.popped_returned code _)
  refine ⟨v, v₂, _, u', hv, hv₂, hruns, hleave, hregs, heip, heflags, hmem 0x800000 trivial ?_ ?_⟩
  · exact fun h => absurd h.1 (by decide)
  · exact fun h => absurd h.1 (by decide)

end Jos
