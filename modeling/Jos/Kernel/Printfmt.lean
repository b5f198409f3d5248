import Jos.Kernel.Isolation
import Jos.Pmap.Virtual

/-!
# The `%.*s` of `vprintfmt` (`lib/printfmt.c`)

`sys_cputs` prints the string of its caller with this conversion. The loop reads a
character, compares it with NUL, and only then looks at the precision, so it reads one
character more than it prints. Besides the characters that it puts, the loop is modelled
with the addresses that it reads.
-/

namespace Jos

open Prog

/-- The fields of a conversion that `%.*s` uses, both of type `int`. -/
structure Conversion where
  width : Word
  precision : Word

namespace Conversion

def init : Conversion := ⟨-1, -1⟩

/-- The label `process_precision`. -/
def processPrecision (c : Conversion) : Conversion :=
  if c.width.slt 0 then ⟨c.precision, -1⟩ else c

/-- `case '.'`. -/
def dot (c : Conversion) : Conversion := if c.width.slt 0 then { c with width := 0 } else c

/-- `case '*'`. -/
def star (c : Conversion) (arg : Word) : Conversion := processPrecision { c with precision := arg }

/-- There is no width, so `%.*s` pads nothing, and the precision is the argument. -/
theorem dot_star (arg : Word) : (init.dot.star arg) = ⟨0, arg⟩ := rfl

end Conversion

/-- What the loop has read, what it has put, and whether its last read faulted. -/
structure Printed where
  reads : List Word
  chars : List Byte
  fault : Bool

/-- The same after a character `ch` at `p`. -/
def Printed.put (r : Printed) (p : Word) (ch : Byte) : Printed :=
  ⟨p :: r.reads, ch :: r.chars, r.fault⟩

/-- `for (; (ch = *p++) != '\0' && (precision < 0 || --precision >= 0); ) putch(ch)`, for at
most `n` rounds. -/
def stringLoop (mem : Word → Option Byte) : Nat → Word → Word → Printed
  | 0, _, _ => ⟨[], [], false⟩
  | n + 1, precision, p =>
      match mem p with
      | none => ⟨[p], [], true⟩
      | some ch =>
          if ch = 0 then ⟨[p], [], false⟩
          else if precision.slt 0 then (stringLoop mem n precision (p + 1)).put p ch
          else if (precision - 1).slt 0 then ⟨[p], [], false⟩
          else (stringLoop mem n (precision - 1) (p + 1)).put p ch

/-- The kernel's string `(null)`. -/
def nullText : List Byte := [0x28, 0x6E, 0x75, 0x6C, 0x6C, 0x29, 0]

/-- The string `s` printed by `cprintf("%.*s", len, s)`. The loop has seen the whole address
space after 2^32 rounds. Nothing is read through a null pointer, which prints as `(null)`. -/
def printString (mem : Word → Option Byte) (s len : Word) : Printed :=
  let precision := (Conversion.init.dot.star len).precision
  if s = 0 then ⟨[], (stringLoop (fun p => nullText[p.toNat]?) 7 precision 0).chars, false⟩
  else stringLoop mem 4294967297 precision s

theorem printString_nonnull {mem : Word → Option Byte} {s len : Word} (hs : s ≠ 0) :
    printString mem s len = stringLoop mem 4294967297 len s := by
  rw [printString, Conversion.dot_star]
  exact if_neg hs

section Loop

variable {mem : Word → Option Byte} {n m i : Nat} {precision s : Word}

theorem word_slt_zero {w : Word} : w.slt 0 = w.msb := BitVec.slt_zero_eq_msb

/-- What is left of the precision after `i` characters. -/
def precisionAfter (precision : Word) (i : Nat) : Word :=
  if precision.msb then precision else precision - BitVec.ofNat 32 i

/-- The first `i` bytes are mapped and none of them is NUL. -/
def NoNul (mem : Word → Option Byte) (s : Word) (i : Nat) : Prop :=
  ∀ j < i, ∃ ch, ch ≠ 0 ∧ mem (s + BitVec.ofNat 32 j) = some ch

/-- The loop comes to the character `i` if there is no NUL before it and the precision
reaches that far. -/
theorem stringLoop_prefix (nonul : NoNul mem s i)
    (room : precision.msb = false → i ≤ precision.toNat) :
    ∃ chars, stringLoop mem (i + n) precision s =
      let rest := stringLoop mem n (precisionAfter precision i) (s + BitVec.ofNat 32 i)
      ⟨(List.range i).map (fun j => s + BitVec.ofNat 32 j) ++ rest.reads, chars ++ rest.chars,
        rest.fault⟩ := by
  induction i generalizing n with
  | zero =>
      refine ⟨[], ?_⟩
      have hzero : s + BitVec.ofNat 32 0 = s := BitVec.add_zero s
      have hafter : precisionAfter precision 0 = precision := by
        rw [precisionAfter]
        split
        · rfl
        · exact BitVec.sub_zero precision
      rw [hzero, hafter, Nat.zero_add]
      rfl
  | succ i ih =>
      obtain ⟨chars, hchars⟩ := ih (n := n + 1) (fun j hj => nonul j (by omega))
        fun hmsb => by have := room hmsb; omega
      obtain ⟨ch, hne, hch⟩ := nonul i (Nat.lt_succ_self i)
      have hnext : s + BitVec.ofNat 32 i + 1 = s + BitVec.ofNat 32 (i + 1) := add_ofNat s i 1
      -- the round that puts the character `i`
      have hround : stringLoop mem (n + 1) (precisionAfter precision i) (s + BitVec.ofNat 32 i) =
          (stringLoop mem n (precisionAfter precision (i + 1)) (s + BitVec.ofNat 32 (i + 1))).put
            (s + BitVec.ofNat 32 i) ch := by
        rw [stringLoop, hch]
        dsimp only
        rw [if_neg hne, word_slt_zero, word_slt_zero, hnext]
        by_cases hmsb : precision.msb = true
        · simp [precisionAfter, hmsb]
        · have hlt := room (by simpa using hmsb)
          have hsmall : precision.toNat < 2147483648 := by
            rw [Bool.not_eq_true, BitVec.msb_eq_false_iff_two_mul_lt] at hmsb
            omega
          have hsub : precision - BitVec.ofNat 32 i - 1 = precision - BitVec.ofNat 32 (i + 1) := by
            rw [BitVec.sub_sub, BitVec.ofNat_add]
            rfl
          have hval : ∀ j ≤ precision.toNat, (precision - BitVec.ofNat 32 j).msb = false := by
            intro j hj
            rw [BitVec.msb_eq_false_iff_two_mul_lt, BitVec.toNat_sub, BitVec.toNat_ofNat]
            omega
          have hafter : ∀ j, precisionAfter precision j = precision - BitVec.ofNat 32 j :=
            fun j => if_neg hmsb
          have hsub' : precision - BitVec.ofNat 32 i - (1 : Word) =
              precision - BitVec.ofNat 32 (i + 1) := hsub
          rw [hafter, hafter, hsub', hval i (by omega), hval (i + 1) hlt]
          rfl
      refine ⟨chars ++ [ch], ?_⟩
      rw [show i + 1 + n = i + (n + 1) by omega, hchars, hround]
      simp [Printed.put, List.range_succ]

/-- What is printed is the string up to its first NUL. -/
theorem stringLoop_chars {bytes : List Byte} {n : Nat} (hn : bytes.length < n)
    (hlen : bytes.length < 2147483648)
    (stored : ∀ (j : Nat) (hj : j < bytes.length), mem (s + BitVec.ofNat 32 j) = some bytes[j])
    (behind : mem (s + BitVec.ofNat 32 bytes.length) ≠ none) :
    (stringLoop mem n (BitVec.ofNat 32 bytes.length) s).chars = bytes.takeWhile (· ≠ 0) ∧
      (stringLoop mem n (BitVec.ofNat 32 bytes.length) s).fault = false := by
  obtain ⟨n, rfl⟩ : ∃ l, n = l + 1 := ⟨n - 1, by omega⟩
  have hzero : ∀ s : Word, s + BitVec.ofNat 32 0 = s := BitVec.add_zero
  induction bytes generalizing n s with
  | nil =>
      rw [List.length_nil, hzero] at behind
      obtain ⟨b, hb⟩ := Option.ne_none_iff_exists'.mp behind
      rw [stringLoop, hb]
      dsimp only [List.length_nil]
      by_cases hnul : b = 0
      · simp [hnul]
      · simp only [hnul, if_false]
        exact ⟨rfl, rfl⟩
  | cons b bytes ih =>
      rw [List.length_cons] at hn hlen behind
      have hnext : ∀ j, s + BitVec.ofNat 32 (j + 1) = s + 1 + BitVec.ofNat 32 j :=
        fun j => (add_one_add_ofNat s j).symm
      have hb := stored 0 (Nat.succ_pos _)
      rw [hzero] at hb
      rw [stringLoop, hb]
      dsimp only [List.length_cons, List.getElem_cons_zero]
      by_cases hnul : b = 0
      · simp [hnul]
      · obtain ⟨n, rfl⟩ : ∃ l, n = l + 1 := ⟨n - 1, by omega⟩
        obtain ⟨hchars, hfault⟩ := @ih (s + 1) (by omega)
          (fun j hj => by rw [← hnext]; exact stored (j + 1) (Nat.succ_lt_succ hj))
          (by rw [← hnext]; exact behind) n (by omega)
        have hpos : (BitVec.ofNat 32 (bytes.length + 1)).msb = false := by
          rw [BitVec.msb_eq_false_iff_two_mul_lt, BitVec.toNat_ofNat]
          omega
        have hpred : BitVec.ofNat 32 (bytes.length + 1) - 1 = BitVec.ofNat 32 bytes.length := by
          rw [BitVec.ofNat_add]
          exact BitVec.add_sub_cancel _ _
        have hpos' : (BitVec.ofNat 32 bytes.length).msb = false := by
          rw [BitVec.msb_eq_false_iff_two_mul_lt, BitVec.toNat_ofNat]
          omega
        simp only [hnul, if_false, word_slt_zero, hpos, hpred, hpos', Bool.false_eq_true]
        rw [Printed.put, hchars, List.takeWhile_cons_of_pos (by simpa using hnul)]
        exact ⟨rfl, hfault⟩

end Loop

section ReadString

variable {p : Phys} {pgdir n m : Nat} {precision s len : Word}

/-- The panic of the loop that only reads is the fault of the loop that prints. -/
theorem readString_stringLoop
    (bound : precision.msb = true ∧ m = n + 1 ∨
      precision.msb = false ∧ precision.toNat = n ∧ n < m) :
    readString pgdir n s p =
      if (stringLoop (p.byteAt pgdir) m precision s).fault then .panic .kernelFault
      else .ret () p := by
  have hload := kernelLoad_run p pgdir
  induction n generalizing m precision s with
  | zero =>
      obtain ⟨m, rfl⟩ : ∃ l, m = l + 1 := ⟨m - 1, by omega⟩
      specialize hload s
      rw [readString, stringLoop]
      cases hbyte : p.byteAt pgdir s with
      | none =>
          rw [hbyte] at hload
          exact bind_panic _ hload
      | some ch =>
          rw [hbyte] at hload
          rw [bind_ret _ hload]
          dsimp only
          rw [word_slt_zero, word_slt_zero]
          -- the precision is 0, or this was the last address
          rcases bound with ⟨hmsb, hm⟩ | ⟨hmsb, hzero, -⟩
          · obtain rfl : m = 0 := by omega
            rw [hmsb]
            split <;> rfl
          · obtain rfl : precision = 0#32 := BitVec.eq_of_toNat_eq hzero
            split <;> rfl
  | succ n ih =>
      obtain ⟨m, rfl⟩ : ∃ l, m = l + 1 := ⟨m - 1, by omega⟩
      specialize hload s
      rw [readString, stringLoop]
      cases hbyte : p.byteAt pgdir s with
      | none =>
          rw [hbyte] at hload
          exact bind_panic _ hload
      | some ch =>
          rw [hbyte] at hload
          rw [bind_ret _ hload]
          dsimp only
          rw [word_slt_zero, word_slt_zero]
          by_cases hch : ch = 0
          · rw [when_neg _ (not_not.mpr hch)]
            subst hch
            rfl
          · rw [when_pos _ hch]
            simp only [hch, if_false]
            rcases bound with ⟨hmsb, hm⟩ | ⟨hmsb, hval, hm⟩
            · simp only [hmsb, if_true]
              exact ih (.inl ⟨hmsb, by omega⟩)
            · have hpred : (precision - 1).toNat = n := by
                rw [BitVec.toNat_sub]
                change (4294967296 - 1 + precision.toNat) % 4294967296 = n
                omega
              have hpos : (precision - 1).msb = false := by
                rw [BitVec.msb_eq_false_iff_two_mul_lt] at hmsb ⊢
                omega
              simp only [hmsb, hpos, Bool.false_eq_true, if_false]
              exact ih (.inr ⟨hpos, hpred, by omega⟩)

/-- What the kernel prints for `sys_cputs`, as its effect on the machine. -/
theorem printString_run (hs : s ≠ 0) :
    readString pgdir (stringBound len) s p =
      if (printString (p.byteAt pgdir) s len).fault then .panic .kernelFault else .ret () p := by
  rw [printString_nonnull hs]
  apply readString_stringLoop
  rw [stringBound]
  cases hmsb : len.msb with
  | true => exact .inl ⟨rfl, rfl⟩
  | false => exact .inr ⟨rfl, rfl, Nat.lt_succ_of_lt len.isLt⟩

end ReadString

section Cputs

variable {k : Kernel} {c i : Nat} {cur : EnvIdx} {s len : Word} {mem : Word → Option Byte}

/-- A call whose check passed ends as the printing does. -/
theorem sysCputs_run (accepted : userMemAssert c cur s len pteU k = .ret () k) :
    sysCputs c cur s len k =
      if (printString (k.phys.byteAt (k.cpus c).cr3) s len).fault then .panic .kernelFault
      else .ret 0 k := by
  rw [sysCputs, bind_ret _ accepted, get_bind]
  by_cases hs : s = 0
  · rw [when_neg _ (not_not.mpr hs), printString, if_pos hs]
    rfl
  · have hread := @printString_run k.phys (k.cpus c).cr3 s len hs
    rw [when_pos _ hs, pmap]
    split at hread <;> rename_i hfault
    · rw [if_pos hfault]
      exact bind_panic _ (zoom_panic hread)
    · rw [if_neg hfault, bind_ret _ (zoom_ret hread)]
      rfl

/-- Printing reads bytes of `[s, s+len)` only, and no read faults. -/
def CputsSafe (k : Kernel) (c : Nat) (cur : EnvIdx) (s len : Word) : Prop :=
  (∀ a ∈ (printString (k.phys.byteAt (k.cpus c).cr3) s len).reads,
    ∃ off < len.toNat, a = s + BitVec.ofNat 32 off) ∧
  sysCputs c cur s len k ≠ .panic .kernelFault

/-- A NUL among the first `len` bytes ends the printing. -/
theorem printString_nul (hs : s ≠ 0) (hi : i < len.toNat) (nonul : NoNul mem s i)
    (nul : mem (s + BitVec.ofNat 32 i) = some 0) :
    (printString mem s len).reads = (List.range (i + 1)).map (fun j => s + BitVec.ofNat 32 j) ∧
      (printString mem s len).fault = false := by
  have hlen := len.isLt
  obtain ⟨chars, hchars⟩ := stringLoop_prefix (n := 4294967297 - i) nonul
    (fun _ : len.msb = false => by omega)
  rw [printString_nonnull hs]
  rw [show i + (4294967297 - i) = 4294967297 by omega] at hchars
  rw [hchars, show 4294967297 - i = 4294967296 - i + 1 by omega, stringLoop, nul]
  simp [List.range_succ]

/-- Without one all of them are read, and the byte behind them too. -/
theorem printString_behind (hs : s ≠ 0) (nonul : NoNul mem s len.toNat) :
    s + len ∈ (printString mem s len).reads := by
  have hlen := len.isLt
  obtain ⟨chars, hchars⟩ := stringLoop_prefix (n := 4294967297 - len.toNat) nonul
    (fun _ : len.msb = false => Nat.le_refl _)
  rw [printString_nonnull hs]
  rw [show len.toNat + (4294967297 - len.toNat) = 4294967297 by omega] at hchars
  rw [hchars, show 4294967297 - len.toNat = 4294967296 - len.toNat + 1 by omega,
    BitVec.ofNat_toNat, BitVec.setWidth_eq, stringLoop]
  apply List.mem_append_right
  cases mem (s + len) with
  | none => exact List.mem_singleton_self _
  | some ch =>
      dsimp only [Printed.put]
      split_ifs <;> simp

/-- A printing that does not fault and finds no NUL finds only mapped bytes. -/
theorem printString_noNul (hs : s ≠ 0) (calm : (printString mem s len).fault = false)
    (none_nul : ∀ i < len.toNat, NoNul mem s i → mem (s + BitVec.ofNat 32 i) ≠ some 0) :
    NoNul mem s len.toNat := by
  have hprefix : ∀ i ≤ len.toNat, NoNul mem s i := by
    intro i hi
    induction i with
    | zero => exact fun j hj => absurd hj (Nat.not_lt_zero j)
    | succ i ih =>
        have hprev := ih (by omega)
        intro j hj
        rcases Nat.lt_succ_iff_lt_or_eq.mp hj with hlt | rfl
        · exact hprev j hlt
        · cases hbyte : mem (s + BitVec.ofNat 32 j) with
          | some ch => exact ⟨ch, fun hch => none_nul j hi hprev (hch ▸ hbyte), rfl⟩
          | none =>
              have hlen := len.isLt
              obtain ⟨chars, hchars⟩ := stringLoop_prefix (n := 4294967297 - j) hprev
                (fun _ : len.msb = false => by omega)
              rw [printString_nonnull hs] at calm
              rw [show j + (4294967297 - j) = 4294967297 by omega] at hchars
              rw [hchars, show 4294967297 - j = 4294967296 - j + 1 by omega, stringLoop,
                hbyte] at calm
              cases calm
  exact hprefix _ (Nat.le_refl _)

/-- A call whose check passed is safe exactly if there is nothing to read or the string has
a NUL among its `len` bytes. -/
theorem sys_cputs_safe_iff (accepted : userMemAssert c cur s len pteU k = .ret () k) :
    CputsSafe k c cur s len ↔
      s = 0 ∨ ∃ i < len.toNat, NoNul (k.phys.byteAt (k.cpus c).cr3) s i ∧
        k.phys.byteAt (k.cpus c).cr3 (s + BitVec.ofNat 32 i) = some 0 := by
  have hlen := len.isLt
  rw [CputsSafe, sysCputs_run accepted]
  by_cases hs : s = 0
  · simp [printString, hs]
  constructor
  · rintro ⟨hreads, hcalm⟩
    refine .inr (by_contra fun hnone => ?_)
    push Not at hnone
    have hfault : (printString (k.phys.byteAt (k.cpus c).cr3) s len).fault = false := by
      rw [← Bool.not_eq_true]
      exact fun h => hcalm (if_pos h)
    obtain ⟨off, hoff, heq⟩ :=
      hreads _ (printString_behind hs (printString_noNul hs hfault hnone))
    -- the byte behind the range is in the range only modulo the size of the address space
    have hval := congrArg BitVec.toNat ((BitVec.add_right_inj s).mp heq)
    rw [BitVec.toNat_ofNat] at hval
    omega
  · rintro (rfl | ⟨i, hi, nonul, nul⟩)
    · exact absurd rfl hs
    · obtain ⟨hreads, hfault⟩ := printString_nul hs hi nonul nul
      rw [hreads, hfault]
      refine ⟨fun a ha => ?_, by simp⟩
      obtain ⟨j, hj, rfl⟩ := List.mem_map.mp ha
      exact ⟨j, by have := List.mem_range.mp hj; omega, rfl⟩

end Cputs

end Jos
