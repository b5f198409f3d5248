import Jos.Mmu
import Mathlib.Data.Nat.Digits.Lemmas

/-!
# Printing and reading numbers (`lib/printfmt.c`, `lib/string.c`)

`printnum` puts out the digits of a number, the most significant ones first by recursion, and
pads in the innermost call. `strtol` reads them back.
-/

namespace Jos.Number

/-- `"0123456789abcdef"`. -/
def digitChars : List Byte :=
  [0x30, 0x31, 0x32, 0x33, 0x34, 0x35, 0x36, 0x37, 0x38, 0x39, 0x61, 0x62, 0x63, 0x64, 0x65, 0x66]

/-- A character of the string, as the `int` that `putch` gets. -/
def digit (d : BitVec 64) : Word := (digitChars.getD d.toNat 0).setWidth 32

/-- `while (--width > 0) putch(padc)`. -/
def pad (width padc : Word) : List Word := List.replicate (width - 1).toInt.toNat padc

/-- The arguments of the calls of `putch`, for at most `n` digits. -/
def printDigits (base : Word) (padc : Word) : Nat → BitVec 64 → Word → List Word
  | 0, _, _ => []
  | n + 1, num, width =>
      (if num ≥ base.setWidth 64 then printDigits base padc n (num / base.setWidth 64) (width - 1)
        else pad width padc) ++ [digit (num % base.setWidth 64)]

/-- `printnum`, for a base of at least 2. -/
def printnum (num : BitVec 64) (base width padc : Word) : List Word :=
  printDigits base padc 64 num width

/-- The value of a character in `strtol`. -/
def digitValue (c : Byte) : Option Word :=
  if c ≥ 0x30 ∧ c ≤ 0x39 then some (c.setWidth 32 - 0x30)
  else if c ≥ 0x61 ∧ c ≤ 0x7A then some (c.setWidth 32 - 0x61 + 10)
  else if c ≥ 0x41 ∧ c ≤ 0x5A then some (c.setWidth 32 - 0x41 + 10)
  else none

/-- The loop over the digits: the value and what follows. -/
def readDigits (base : Word) : List Byte → Word → Word × List Byte
  | [], val => (val, [])
  | c :: s, val =>
      match digitValue c with
      | none => (val, c :: s)
      | some dig => if dig.slt base then readDigits base s (val * base + dig) else (val, c :: s)

/-- `strtol` on the string `s`, without its NUL. The second result is `*endptr`. -/
def strtol (s : List Byte) (base : Word) : Word × List Byte :=
  let s := s.dropWhile fun c => c = 0x20 ∨ c = 0x09
  let neg := s.headD 0 = 0x2D
  let s := if s.headD 0 = 0x2B ∨ neg then s.tail else s
  let prefixed := s.getD 0 0 = 0x30 ∧ s.getD 1 0 = 0x78
  let (s, base) :=
    if (base = 0 ∨ base = 16) ∧ prefixed then (s.drop 2, 16)
    else if base = 0 ∧ s.getD 0 0 = 0x30 then (s.tail, 8)
    else if base = 0 then (s, 10)
    else (s, base)
  let (val, rest) := readDigits base s 0
  (if neg then -val else val, rest)

/-! ### Numerals -/

/-- The digits of `n`, the most significant one first; 0 has one digit. -/
def numeral (b n : Nat) : List Nat := if n = 0 then [0] else (b.digits n).reverse

section Numeral

variable {b n : Nat}

theorem numeral_of_lt (hn : n < b) : numeral b n = [n] := by
  rw [numeral]
  split
  · rename_i hz
    rw [hz]
  · rename_i hz
    rw [Nat.digits_of_lt b n hz hn, List.reverse_singleton]

theorem numeral_of_ge (hb : 1 < b) (hn : b ≤ n) : numeral b n = numeral b (n / b) ++ [n % b] := by
  have hne : n ≠ 0 := by omega
  have hdiv : n / b ≠ 0 := (Nat.div_pos hn (by omega)).ne'
  rw [numeral, if_neg hne, numeral, if_neg hdiv,
    Nat.digits_def' hb (Nat.pos_of_ne_zero hne), List.reverse_cons]

theorem numeral_lt (hb : 1 < b) : ∀ d ∈ numeral b n, d < b := by
  intro d hd
  rw [numeral] at hd
  split at hd
  · obtain rfl := List.mem_singleton.mp hd
    omega
  · exact Nat.digits_lt_base hb (List.mem_reverse.mp hd)

theorem numeral_ne_nil (b n : Nat) : numeral b n ≠ [] := by
  rw [numeral]
  split
  · simp
  · rename_i hz
    simpa [Nat.digits_eq_nil_iff_eq_zero] using hz

/-- The number that the digits stand for. -/
theorem foldl_numeral (b n : Nat) : (numeral b n).foldl (fun v d => v * b + d) 0 = n := by
  rw [numeral]
  split
  · rename_i hz
    simp [hz]
  · have hfold := Nat.ofDigits_eq_foldr b (b.digits n)
    rw [Nat.ofDigits_digits] at hfold
    rw [List.foldl_reverse]
    refine Eq.trans ?_ hfold.symm
    congr 1
    funext d v
    simp [Nat.mul_comm, Nat.add_comm]

end Numeral

section Print

variable {base width padc : Word} {num : BitVec 64} {n : Nat}

/-- The bases that are used. -/
structure Base (base : Word) : Prop where
  low : 1 < base.toNat
  high : base.toNat ≤ 16

/-- What `printnum` puts out: the padding, then the digits. -/
theorem printDigits_eq (hb : Base base) (hnum : num.toNat < base.toNat ^ n) (hpos : 0 < n)
    (hwidth : -2147483648 + n ≤ width.toInt) :
    printDigits base padc n num width =
      List.replicate (width.toInt - (numeral base.toNat num.toNat).length).toNat padc ++
        (numeral base.toNat num.toNat).map fun d => digit (BitVec.ofNat 64 d) := by
  obtain ⟨hlow, hhigh⟩ := hb
  have hbase : (base.setWidth 64).toNat = base.toNat := by
    rw [BitVec.toNat_setWidth, Nat.mod_eq_of_lt (by omega)]
  induction n generalizing num width with
  | zero => omega
  | succ n ih =>
      have hdiv : (num / base.setWidth 64).toNat = num.toNat / base.toNat := by
        rw [BitVec.toNat_udiv, hbase]
      have hmod : (num % base.setWidth 64).toNat = num.toNat % base.toNat := by
        rw [BitVec.toNat_umod, hbase]
      have hone : (width - 1).toInt = width.toInt - 1 := by
        have hlt := @BitVec.toInt_lt 32 width
        rw [BitVec.toInt_sub, show (1 : Word).toInt = 1 from rfl, Int.bmod_def]
        omega
      have hlast : digit (num % base.setWidth 64) =
          digit (BitVec.ofNat 64 (num.toNat % base.toNat)) := by
        rw [← hmod, BitVec.ofNat_toNat, BitVec.setWidth_eq]
      rw [printDigits]
      by_cases hge : num ≥ base.setWidth 64
      · have hge' : base.toNat ≤ num.toNat := by rwa [ge_iff_le, BitVec.le_def, hbase] at hge
        have hsmall : num.toNat / base.toNat < base.toNat ^ n := by
          rw [Nat.div_lt_iff_lt_mul (by omega), ← Nat.pow_succ]
          exact hnum
        have hn : 0 < n := by
          rw [Nat.pos_iff_ne_zero]
          rintro rfl
          rw [Nat.pow_zero] at hsmall
          have := Nat.div_pos hge' (by omega)
          omega
        have hlen : width.toInt - 1 - (numeral base.toNat (num.toNat / base.toNat)).length =
            width.toInt - (numeral base.toNat num.toNat).length := by
          rw [numeral_of_ge hlow hge', List.length_append, List.length_singleton]
          omega
        rw [if_pos hge, ih (by rwa [hdiv]) hn (by rw [hone]; omega), hdiv, hone, hlen, hlast,
          List.append_assoc]
        congr 1
        rw [numeral_of_ge hlow hge', List.map_append, List.map_singleton]
      · have hlt' : num.toNat < base.toNat := by
          rwa [ge_iff_le, BitVec.le_def, hbase, Nat.not_le] at hge
        rw [if_neg hge, numeral_of_lt hlt', hlast, Nat.mod_eq_of_lt hlt', pad, hone]
        rfl

end Print

section Read

variable {base val : Word} {d : Nat} {ds : List Nat}

/-- The character of a digit. -/
def numeralChar (d : Nat) : Byte := digitChars.getD d 0

/-- What `strtol` knows of the character of a digit. -/
theorem numeralChar_spec : ∀ d < 16, digitValue (numeralChar d) = some (BitVec.ofNat 32 d) ∧
    numeralChar d ≠ 0x20 ∧ numeralChar d ≠ 0x09 ∧ numeralChar d ≠ 0x2B ∧ numeralChar d ≠ 0x2D ∧
    numeralChar d ≠ 0x78 := by decide

theorem digit_setWidth (hd : d < 16) :
    (digit (BitVec.ofNat 64 d)).setWidth 8 = numeralChar d := by
  rw [digit, numeralChar, BitVec.toNat_ofNat, Nat.mod_eq_of_lt (by omega)]
  exact BitVec.setWidth_setWidth_of_le _ (by decide)

/-- The loop reads all digits. -/
theorem readDigits_numeral (hb : Base base) (hds : ∀ d ∈ ds, d < base.toNat) (v : Nat) :
    readDigits base (ds.map numeralChar) (BitVec.ofNat 32 v) =
      (BitVec.ofNat 32 (ds.foldl (fun v d => v * base.toNat + d) v), []) := by
  induction ds generalizing v with
  | nil => rfl
  | cons d ds ih =>
      have hd := hds d List.mem_cons_self
      have hhigh := hb.high
      have hslt : (BitVec.ofNat 32 d).slt base = true := by
        rw [BitVec.slt_eq_decide, BitVec.toInt_eq_toNat_of_lt, BitVec.toInt_eq_toNat_of_lt,
          BitVec.toNat_ofNat]
        · simp
          omega
        · omega
        · rw [BitVec.toNat_ofNat]
          omega
      have hval : BitVec.ofNat 32 v * base + BitVec.ofNat 32 d =
          BitVec.ofNat 32 (v * base.toNat + d) := by
        rw [BitVec.ofNat_add, BitVec.ofNat_mul, BitVec.ofNat_toNat, BitVec.setWidth_eq]
      rw [List.map_cons, readDigits, (numeralChar_spec d (by omega)).1]
      dsimp only
      rw [if_pos hslt, hval, List.foldl_cons]
      exact ih (fun d' hd' => hds d' (List.mem_cons_of_mem _ hd')) _

/-- Leading zeros change nothing. -/
theorem foldl_zeros (n b : Nat) (ds : List Nat) :
    (List.replicate n 0 ++ ds).foldl (fun v d => v * b + d) 0 =
      ds.foldl (fun v d => v * b + d) 0 := by
  induction n with
  | zero => rfl
  | succ n ih =>
      rw [List.replicate_succ, List.cons_append, List.foldl_cons, Nat.zero_mul]
      exact ih

/-- `strtol` reads a numeral, also behind blanks. -/
theorem strtol_numeral (hb : Base base) (hds : ∀ d ∈ ds, d < base.toNat) (hne : ds ≠ []) (n : Nat) :
    strtol (List.replicate n 0x20 ++ ds.map numeralChar) base =
      (BitVec.ofNat 32 (ds.foldl (fun v d => v * base.toNat + d) 0), []) := by
  obtain ⟨d, ds, rfl⟩ := List.exists_cons_of_ne_nil hne
  have hhigh := hb.high
  have hlow := hb.low
  obtain ⟨-, h20, h09, h2B, h2D, -⟩ :=
    numeralChar_spec d (Nat.lt_of_lt_of_le (hds d List.mem_cons_self) hhigh)
  have hblanks : (List.replicate n 0x20 ++ (d :: ds).map numeralChar).dropWhile
      (fun c : Byte => decide (c = 0x20 ∨ c = 0x09)) = (d :: ds).map numeralChar := by
    rw [List.dropWhile_append_of_pos, List.map_cons, List.dropWhile_cons_of_neg]
    · simpa using ⟨h20, h09⟩
    · intro c hc
      rw [List.eq_of_mem_replicate hc]
      rfl
  have hprefix : ((d :: ds).map numeralChar).getD 1 0 ≠ 0x78 := by
    cases ds with
    | nil => exact (by decide : (0 : Byte) ≠ 0x78)
    | cons d' ds =>
        have hd' := Nat.lt_of_lt_of_le (hds d' (by simp)) hhigh
        exact (numeralChar_spec d' hd').2.2.2.2.2
  have hzero : base ≠ 0 := by
    rintro rfl
    exact absurd hlow (by decide)
  have hhead : ((d :: ds).map numeralChar).headD 0 = numeralChar d := rfl
  rw [strtol, hblanks, hhead]
  simp only [h2B, h2D, hprefix, hzero, and_false, false_and, or_self, if_false]
  exact readDigits_numeral hb hds 0

end Read

/-- What `printnum` puts out is read back by `strtol`, and is as long as the width says. -/
theorem printnum_strtol (num : BitVec 64) {base width padc : Word}
    (hb : base = 8 ∨ base = 10 ∨ base = 16) (hwidth : -1 ≤ width.toInt)
    (hpad : padc = 0x20 ∨ padc = 0x30) :
    strtol ((printnum num base width padc).map (BitVec.setWidth 8)) base =
        (num.setWidth 32, []) ∧
      ((printnum num base width padc).length : Int) =
        max width.toInt (numeral base.toNat num.toNat).length := by
  have base' : Base base := by
    rcases hb with rfl | rfl | rfl
    all_goals exact ⟨by decide, by decide⟩
  have hnum : num.toNat < base.toNat ^ 64 :=
    Nat.lt_of_lt_of_le num.isLt (Nat.pow_le_pow_left base'.low 64)
  have hprint := @printDigits_eq base width padc num 64 base' hnum (by decide) (by omega)
  have hlt : ∀ d ∈ numeral base.toNat num.toNat, d < base.toNat := numeral_lt base'.low
  rw [printnum, hprint]
  generalize hk : (width.toInt - (numeral base.toNat num.toNat).length).toNat = k
  constructor
  · have hchars : ((numeral base.toNat num.toNat).map fun d => digit (BitVec.ofNat 64 d)).map
        (BitVec.setWidth 8) = (numeral base.toNat num.toNat).map numeralChar := by
      rw [List.map_map]
      exact List.map_congr_left fun d hd =>
        digit_setWidth (Nat.lt_of_lt_of_le (hlt d hd) base'.high)
    have hval : num.setWidth 32 = BitVec.ofNat 32
        ((numeral base.toNat num.toNat).foldl (fun v d => v * base.toNat + d) 0) := by
      rw [foldl_numeral, BitVec.ofNat_toNat]
    rw [List.map_append, List.map_replicate, hchars, hval]
    rcases hpad with rfl | rfl
    · exact strtol_numeral base' hlt (numeral_ne_nil _ _) k
    · have hzeros : ∀ d ∈ List.replicate k 0 ++ numeral base.toNat num.toNat, d < base.toNat := by
        intro d hd
        rcases List.mem_append.mp hd with hd | hd
        · rw [List.eq_of_mem_replicate hd]
          exact Nat.lt_trans Nat.zero_lt_one base'.low
        · exact hlt d hd
      have hread := strtol_numeral base' hzeros (by simp [numeral_ne_nil]) 0
      rw [foldl_zeros, List.map_append, List.map_replicate] at hread
      exact hread
  · rw [List.length_append, List.length_replicate, List.length_map]
    omega

/-- 255 in hexadecimal, with zeros to a width of 8. -/
theorem printnum_strtol_ff :
    strtol ((printnum 255 16 8 0x30).map (BitVec.setWidth 8)) 16 = (255, []) ∧
      ((printnum 255 16 8 0x30).length : Int) = 8 := by
  obtain ⟨hread, hlen⟩ := @printnum_strtol 255 16 8 0x30 (.inr (.inr rfl)) (by decide) (.inr rfl)
  refine ⟨hread, hlen.trans ?_⟩
  rw [numeral, if_neg (by decide), List.length_reverse, show (16 : Word).toNat = 16 from rfl,
    show (255 : BitVec 64).toNat = 255 from rfl, show (8 : Word).toInt = 8 from rfl]
  norm_num

example : printnum 255 16 4 0x20 = [0x20, 0x20, 0x66, 0x66] := by decide

end Jos.Number
