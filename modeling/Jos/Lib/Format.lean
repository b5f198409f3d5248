import Jos.Lib.Snprintf

/-!
# Formats (`lib/printfmt.c`)

A format is read once from left to right into its pieces: characters, conversions, and escape
sequences that end in an unrecognised character or with the text. `vprintfmt`, which reads the
last ones twice, puts out its pieces one after the other.
-/

namespace Jos.Printfmt

/-- A part of a format. -/
inductive Piece
  | char (c : Byte)
  | conv (text : List Byte) (e : Escape) (c : Conv) (ap : Nat)
  | verbatim (text : List Byte)

/-- The text of a piece. -/
def Piece.source : Piece → List Byte
  | .char c => [c]
  | .conv text _ _ _ => text
  | .verbatim text => text

/-- An escape sequence of which `text` has been read, with the number that is being read. -/
structure Open where
  e : Escape
  num : Option Word
  text : List Byte

namespace Open

/-- The variables when a number ends. -/
def close (o : Open) : Escape :=
  match o.num with
  | none => o.e
  | some precision => o.e.processPrecision precision

/-- One more digit. -/
def digit (o : Open) (precision : Word) (ch : Byte) : Open :=
  { o with num := some (precision * 10 + ch.setWidth 32 - 0x30), text := o.text ++ [ch] }

/-- A flag. -/
def flag (args : Nat → Word) (o : Open) (f : Flag) (ch : Byte) (ap : Nat) : Open × Nat :=
  let o : Open := ⟨o.close, none, o.text ++ [ch]⟩
  match f with
  | .minus => ({ o with e := { o.e with padc := 0x2D } }, ap)
  | .zero => ({ o with e := { o.e with padc := 0x30 } }, ap)
  | .digit => ({ o with num := some (0 * 10 + ch.setWidth 32 - 0x30) }, ap)
  | .star => ({ o with e := o.e.processPrecision (args ap) }, ap + 1)
  | .dot => ({ o with e := { o.e with toConversion := o.e.toConversion.dot } }, ap)
  | .alt => ({ o with e := { o.e with altflag := true } }, ap)
  | .long => ({ o with e := { o.e with lflag := o.e.lflag + 1 } }, ap)

end Open

/-- The number of words that a conversion takes from the arguments. -/
def argWords (e : Escape) : Conv → Nat
  | .percent => 0
  | .signed | .unsigned | .octal | .hex => if 2 ≤ e.lflag.toInt then 2 else 1
  | .char | .error | .string | .pointer => 1

/-- The pieces of a text, in an escape sequence or not. -/
def pieces (args : Nat → Word) : List Byte → Option Open → Nat → List Piece
  | [], none, _ => []
  | [], some o, _ => [.verbatim o.text]
  | ch :: text, none, ap =>
      if ch = 0x25 then pieces args text (some ⟨.init, none, [ch]⟩) ap
      else .char ch :: pieces args text none ap
  | ch :: text, some o, ap =>
      match o.num, Case.of ch with
      | some precision, .flag .zero => pieces args text (some (o.digit precision ch)) ap
      | some precision, .flag .digit => pieces args text (some (o.digit precision ch)) ap
      | _, .flag f =>
          let (o, ap) := o.flag args f ch ap
          pieces args text (some o) ap
      | _, .conv c =>
          .conv (o.text ++ [ch]) o.close c ap ::
            pieces args text none (ap + argWords o.close c)
      | _, .unknown => .verbatim (o.text ++ [ch]) :: pieces args text none ap

/-- The text of the pieces is the format. -/
theorem pieces_source (args : Nat → Word) (text : List Byte) (o : Option Open) (ap : Nat) :
    (pieces args text o ap).flatMap Piece.source = (o.elim [] Open.text) ++ text := by
  induction text generalizing o ap with
  | nil =>
      cases o with
      | none => rfl
      | some o => simp [pieces, Piece.source]
  | cons ch text ih =>
      cases o with
      | none =>
          rw [pieces]
          split
          · rw [ih]
            rfl
          · rw [List.flatMap_cons, ih]
            rfl
      | some o =>
          have hflag : ∀ f, (o.flag args f ch ap).1.text = o.text ++ [ch] := by
            intro f
            cases f
            all_goals rfl
          rw [pieces]
          split
          · rw [ih]
            simp [Open.digit]
          · rw [ih]
            simp [Open.digit]
          · rw [ih]
            simp [hflag]
          · rw [List.flatMap_cons, ih]
            simp [Piece.source]
          · rw [List.flatMap_cons, ih]
            simp [Piece.source]

/-- What a conversion puts out by itself. -/
def converted (load : Word → Option Byte) (args : Nat → Word) (e : Escape) (c : Conv) (ap : Nat) :
    List Word :=
  let O := collect (fun _ => none) load
  ((convert (fun fmt text arg s => vprintfmt (O.constants fmt text) (fun _ => arg) 1 s)
    O args e c ap []).map Prod.snd).getD []

/-- What a piece puts out. -/
def Piece.output (load : Word → Option Byte) (args : Nat → Word) : Piece → List Word
  | .char c => [c.setWidth 32]
  | .conv _ e c ap => converted load args e c ap
  | .verbatim text => text.map (BitVec.setWidth 32)

/-- A string argument can be read up to its NUL, or up to the character at the precision, which
is read although it is not put out. -/
def Readable (load : Word → Option Byte) (p precision : Word) : Prop :=
  ∃ j < 4294967296, (∀ i ≤ j, (load (p + BitVec.ofNat 32 i)).isSome) ∧
    (load (p + BitVec.ofNat 32 j) = some 0 ∨ precision.toInt = j)

/-- A digit is a flag: the width or the precision that it starts, or the pad character. -/
theorem Case.of_digit : ∀ ch : Byte, (Case.of ch = .flag .zero ∨ Case.of ch = .flag .digit) ↔
    ¬(ch < 0x30 ∨ 0x39 < ch) := by decide +kernel

/-- A percent sign is a conversion. -/
theorem Case.of_percent : ∀ ch : Byte, Case.of ch ≠ .conv .percent ↔ ch ≠ 0x25 := by
  decide +kernel

section Pieces

variable {args : Nat → Word} {text : List Byte} {o : Open} {ch : Byte} {ap : Nat}

/-- A character of an escape sequence that is not inside a number. -/
theorem pieces_open (hnum : o.num = none) :
    pieces args (ch :: text) (some o) ap =
      match Case.of ch with
      | .flag f => pieces args text (some (o.flag args f ch ap).1) (o.flag args f ch ap).2
      | .conv c => .conv (o.text ++ [ch]) o.close c ap ::
          pieces args text none (ap + argWords o.close c)
      | .unknown => .verbatim (o.text ++ [ch]) :: pieces args text none ap := by
  rw [pieces, hnum]
  cases Case.of ch with
  | flag f => rfl
  | conv c => rfl
  | unknown => rfl

/-- A digit of a number. -/
theorem pieces_digit {precision : Word} (hnum : o.num = some precision)
    (hch : ¬(ch < 0x30 ∨ 0x39 < ch)) :
    pieces args (ch :: text) (some o) ap = pieces args text (some (o.digit precision ch)) ap := by
  rw [pieces, hnum]
  rcases (Case.of_digit ch).mpr hch with hcase | hcase
  · rw [hcase]
  · rw [hcase]

/-- The end of a number. -/
theorem pieces_close {precision : Word} {e : Escape} {seen : List Byte}
    (hch : text.headD 0 < 0x30 ∨ 0x39 < text.headD 0) :
    pieces args text (some ⟨e, some precision, seen⟩) ap =
      pieces args text (some ⟨e.processPrecision precision, none, seen⟩) ap := by
  cases text with
  | nil => rfl
  | cons ch text =>
      have hzero : Case.of ch ≠ .flag .zero := fun h => (Case.of_digit ch).mp (.inl h) hch
      have hdigit : Case.of ch ≠ .flag .digit := fun h => (Case.of_digit ch).mp (.inr h) hch
      rw [pieces, pieces]
      generalize Case.of ch = case at hzero hdigit
      cases case with
      | flag f =>
          cases f with
          | zero => exact absurd rfl hzero
          | digit => exact absurd rfl hdigit
          | minus | star | dot | alt | long => rfl
      | conv c => rfl
      | unknown => rfl

end Pieces

/-! ### The loops on a text -/

/-- A text without NUL that is shorter than the address space. -/
structure Text (text : List Byte) : Prop where
  short : text.length < 4294967296
  nonul : ∀ ch ∈ text, ch ≠ 0

section Loop

variable {args : Nat → Word} {text : List Byte} {fmt : Word} {load : Word → Option Byte}
  {i j n ap : Nat} {out : List Word}

/-- The formatter on the text at `fmt`, where only the text and its NUL may be read. -/
def formatter (fmt : Word) (text : List Byte) (load : Word → Option Byte) : Ops (List Word) :=
  collect (constant fmt (text ++ [0])) load

theorem fetch_text (ht : Text text) (hi : i ≤ text.length) :
    constant fmt (text ++ [0]) (fmt + BitVec.ofNat 32 i) = some ((text.drop i).headD 0) := by
  have hshort := ht.short
  rw [constant, sub_buf (by omega), List.headD_eq_head?_getD, List.head?_drop]
  rcases Nat.lt_or_eq_of_le hi with hlt | rfl
  · rw [List.getElem?_append_left hlt, List.getElem?_eq_getElem hlt]
    rfl
  · have hnone : text[text.length]? = none := List.getElem?_eq_none (Nat.le_refl _)
    rw [List.getElem?_append_right (Nat.le_refl _), Nat.sub_self, hnone]
    rfl

theorem next_fmt (fmt : Word) (i : Nat) :
    fmt + BitVec.ofNat 32 i + 1 = fmt + BitVec.ofNat 32 (i + 1) := add_ofNat fmt i 1

/-- The digits of a number. -/
theorem digits_run (ht : Text text) (hi : i ≤ text.length) (hn : text.length - i < n)
    (precision : Word) (ch : Byte) :
    ∃ j v, i ≤ j ∧ j ≤ text.length ∧
      digits (constant fmt (text ++ [0])) n precision ch (fmt + BitVec.ofNat 32 i) =
        some (v, fmt + BitVec.ofNat 32 j) ∧
      ((∀ k (hk : k < text.length), i ≤ k → k < j → text[k] ≠ 0x25)) ∧
      ∀ args e seen ap,
        pieces args (text.drop i)
            (some ⟨e, some (precision * 10 + ch.setWidth 32 - 0x30), seen⟩) ap =
          pieces args (text.drop j)
            (some ⟨e.processPrecision v, none, seen ++ (text.drop i).take (j - i)⟩) ap := by
  induction n generalizing i precision ch with
  | zero => omega
  | succ n ih =>
      by_cases hch : (text.drop i).headD 0 < 0x30 ∨ 0x39 < (text.drop i).headD 0
      · refine ⟨i, precision * 10 + ch.setWidth 32 - 0x30, Nat.le_refl _, hi, ?_, ?_, ?_⟩
        · rw [digits, fetch_text ht hi]
          exact if_pos hch
        · intro k hk hik hki
          omega
        · intro args e seen ap
          rw [Nat.sub_self, List.take_zero, List.append_nil]
          exact pieces_close hch
      · have hlt : i < text.length := by
          refine Nat.lt_of_le_of_ne hi fun heq => hch ?_
          rw [heq, List.drop_length]
          exact .inl (by decide)
        rw [List.drop_eq_getElem_cons hlt, List.headD_cons] at hch
        obtain ⟨j, v, hij, hj, hdigits, hpercent, hpieces⟩ :=
          ih (i := i + 1) hlt (by omega) (precision * 10 + ch.setWidth 32 - 0x30) text[i]
        refine ⟨j, v, by omega, hj, ?_, ?_, ?_⟩
        · rw [digits, fetch_text ht hi, List.drop_eq_getElem_cons hlt, List.headD_cons, next_fmt]
          exact (if_neg hch).trans hdigits
        · intro k hk hik hkj
          rcases Nat.lt_or_eq_of_le hik with hik | rfl
          · exact hpercent k hk hik hkj
          · intro heq
            rw [heq] at hch
            exact hch (.inl (by decide))
        · intro args e seen ap
          have htake : (text.drop i).take (j - i) =
              text[i] :: (text.drop (i + 1)).take (j - (i + 1)) := by
            rw [List.drop_eq_getElem_cons hlt, show j - i = j - (i + 1) + 1 by omega,
              List.take_succ_cons]
          rw [htake, List.drop_eq_getElem_cons hlt, pieces_digit rfl hch]
          refine (hpieces args e (seen ++ [text[i]]) ap).trans ?_
          rw [List.append_assoc]
          rfl

/-- Text without percent signs is put out as it is. -/
theorem literal_run (ht : Text text) (hj : i + j ≤ text.length)
    (hpercent : ∀ k (hk : k < text.length), i ≤ k → k < i + j → text[k] ≠ 0x25) :
    loop (n + j) (formatter fmt text load) args .text (fmt + BitVec.ofNat 32 i) ap out =
      loop n (formatter fmt text load) args .text (fmt + BitVec.ofNat 32 (i + j)) ap
        (out ++ ((text.drop i).take j).map (BitVec.setWidth 32)) := by
  induction j generalizing i out with
  | zero => simp
  | succ j ih =>
      have hi : i < text.length := by omega
      have hne : text[i] ≠ 0x25 := hpercent i hi (Nat.le_refl _) (by omega)
      have hnul : text[i] ≠ 0 := ht.nonul _ (List.getElem_mem hi)
      have hfetch : (formatter fmt text load).fetch (fmt + BitVec.ofNat 32 i) out =
          some text[i] := by
        refine (fetch_text ht (by omega)).trans ?_
        rw [List.drop_eq_getElem_cons hi]
        rfl
      rw [show n + (j + 1) = (n + j) + 1 by omega, loop, hfetch]
      dsimp only [Option.bind_eq_bind, Option.bind_some]
      rw [if_neg hne, if_neg hnul, next_fmt,
        ih (i := i + 1) (by omega) fun k hk hik hkj => hpercent k hk (by omega) (by omega),
        List.drop_eq_getElem_cons hi, List.take_succ_cons, List.map_cons,
        show i + 1 + j = i + (j + 1) by omega]
      simp [formatter, collect]

/-- Back to the percent sign at `b`. -/
theorem back_run (ht : Text text) {b : Nat} (hb : b < text.length) (hpercent : text[b] = 0x25)
    (hi : i ≤ text.length) (hbi : b < i) (hn : i - b ≤ n)
    (hbetween : ∀ k (hk : k < text.length), b < k → k < i → text[k] ≠ 0x25) :
    back (constant fmt (text ++ [0])) n (fmt + BitVec.ofNat 32 i) =
      some (fmt + BitVec.ofNat 32 (b + 1)) := by
  induction n generalizing i with
  | zero => omega
  | succ n ih =>
      obtain ⟨i, rfl⟩ : ∃ l, i = l + 1 := ⟨i - 1, by omega⟩
      have hlt : i < text.length := by omega
      have hprev : fmt + BitVec.ofNat 32 (i + 1) - 1 = fmt + BitVec.ofNat 32 i := by
        rw [← next_fmt, BitVec.add_sub_cancel]
      have hfetch : constant fmt (text ++ [0]) (fmt + BitVec.ofNat 32 i) = some text[i] := by
        rw [fetch_text ht (by omega), List.drop_eq_getElem_cons hlt]
        rfl
      rw [back, hprev, hfetch]
      rcases Nat.lt_or_eq_of_le (Nat.le_of_lt_succ hbi) with hlt' | rfl
      · exact (if_neg (hbetween i hlt hlt' (Nat.lt_succ_self i))).trans
          (ih (by omega) hlt' (by omega) fun k hk hbk hki => hbetween k hk hbk (by omega))
      · exact if_pos hpercent

/-- The escape sequence that is read at `i` starts at `b`. -/
structure Opened (text : List Byte) (b i : Nat) : Prop where
  start : b < i
  bound : b < text.length
  percent : text[b] = 0x25
  between : ∀ k (hk : k < text.length), b < k → k < i → text[k] ≠ 0x25

/-- At an unrecognised character, or at the NUL, the escape sequence is put out as it is. -/
theorem unknown_run (ht : Text text) {b : Nat} (ho : Opened text b i) (hi : i ≤ text.length)
    (hcase : Case.of ((text.drop i).headD 0) = .unknown) (e : Escape) :
    loop (n + (i - b)) (formatter fmt text load) args (.escape e) (fmt + BitVec.ofNat 32 i) ap out =
      loop n (formatter fmt text load) args .text (fmt + BitVec.ofNat 32 i) ap
        (out ++ ((text.drop b).take (i - b)).map (BitVec.setWidth 32)) := by
  obtain ⟨hstart, hbound, hpercent, hbetween⟩ := ho
  have hshort := ht.short
  have hfetch : (formatter fmt text load).fetch (fmt + BitVec.ofNat 32 i) out =
      some ((text.drop i).headD 0) := fetch_text ht hi
  have hback : back (fun a => (formatter fmt text load).fetch a (out ++ [0x25])) 4294967296
      (fmt + BitVec.ofNat 32 i) = some (fmt + BitVec.ofNat 32 (b + 1)) :=
    back_run ht hbound hpercent hi hstart (by omega) hbetween
  have hread := @literal_run args text fmt load (b + 1) (i - (b + 1)) n ap (out ++ [0x25]) ht
    (by omega) fun k hk hbk hki => hbetween k hk (by omega) (by omega)
  have htake : (text.drop b).take (i - b) = 0x25 :: (text.drop (b + 1)).take (i - (b + 1)) := by
    rw [List.drop_eq_getElem_cons hbound, hpercent, show i - b = i - (b + 1) + 1 by omega,
      List.take_succ_cons]
  rw [show b + 1 + (i - (b + 1)) = i by omega] at hread
  rw [show n + (i - b) = n + (i - (b + 1)) + 1 by omega, loop, hfetch]
  dsimp only [Option.bind_eq_bind, Option.bind_some]
  rw [hcase]
  dsimp only
  have hput : (formatter fmt text load).putch 0x25 out = out ++ [0x25] := rfl
  rw [hput, hback, htake, List.map_cons]
  dsimp only [Option.bind_some]
  rw [hread, List.append_assoc]
  rfl

/-- The pieces of an escape sequence that ends here. -/
theorem pieces_unknown {l : List Byte} {o : Open} (hnum : o.num = none)
    (hcase : Case.of (l.headD 0) = .unknown) :
    (pieces args l (some o) ap).flatMap (Piece.output load args) =
        o.text.map (BitVec.setWidth 32) ++
          (pieces args l none ap).flatMap (Piece.output load args) ∧
      ∀ piece ∈ pieces args l none ap,
        piece ∈ pieces args l (some o) ap ∨ ∃ ch, piece = .char ch := by
  cases l with
  | nil => exact ⟨rfl, fun piece hpiece => nomatch hpiece⟩
  | cons ch l =>
      rw [List.headD_cons] at hcase
      have hne : ch ≠ 0x25 := by
        rintro rfl
        cases hcase
      rw [pieces_open hnum, hcase, pieces, if_neg hne]
      refine ⟨?_, fun piece hpiece => ?_⟩
      · rw [List.flatMap_cons, List.flatMap_cons, Piece.output, Piece.output, List.map_append,
          List.append_assoc]
        rfl
      · rcases List.mem_cons.mp hpiece with rfl | hpiece
        · exact .inr ⟨ch, rfl⟩
        · exact .inl (List.mem_cons_of_mem _ hpiece)

/-- A flag that is not the start of a number. -/
theorem flag_eq {fetch : Word → Option Byte} {f : Flag} (hf : f ≠ .digit) (e : Escape) (ch : Byte)
    (seen : List Byte) (a : Word) :
    let o := Open.flag args ⟨e, none, seen⟩ f ch ap
    flag fetch args e f ch a ap = some (o.1.e, a, o.2) ∧ o.1 = ⟨o.1.e, none, seen ++ [ch]⟩ := by
  cases f with
  | digit => exact absurd rfl hf
  | minus | zero | star | dot | alt | long => exact ⟨rfl, rfl⟩

/-- The nested calls of a run with `n` characters left. -/
def nested (n : Nat) (O : Ops (List Word)) (fmt text : List Byte) (arg : Word) (s : List Word) :
    Option (List Word) := loop n (O.constants fmt text) (fun _ => arg) .text 1 0 s

/-- A conversion does in a run with more than `k` characters left what it does by itself. -/
def Converts (load : Word → Option Byte) (args : Nat → Word) (k : Nat) : Piece → Prop
  | .conv _ e c ap => ∀ n > k, ∀ fetch out,
      convert (nested n (collect fetch load)) (collect fetch load) args e c ap out =
        some (ap + argWords e c, out ++ converted load args e c ap)
  | _ => True

/-- From `i` on the first loop puts out the pieces. -/
def TextRun (fmt : Word) (text : List Byte) (load : Word → Option Byte) (args : Nat → Word)
    (k i : Nat) : Prop :=
  ∀ ap out n, 2 * (text.length - i) + k < n →
    (∀ piece ∈ pieces args (text.drop i) none ap, Converts load args k piece) →
    loop n (formatter fmt text load) args .text (fmt + BitVec.ofNat 32 i) ap out =
      some (out ++ (pieces args (text.drop i) none ap).flatMap (Piece.output load args))

/-- The same in an escape sequence. -/
def EscapeRun (fmt : Word) (text : List Byte) (load : Word → Option Byte) (args : Nat → Word)
    (k i : Nat) : Prop :=
  ∀ b e ap out n, Opened text b i → 2 * (text.length - i) + (i - b) + k < n →
    (∀ piece ∈ pieces args (text.drop i) (some ⟨e, none, (text.drop b).take (i - b)⟩) ap,
      Converts load args k piece) →
    loop n (formatter fmt text load) args (.escape e) (fmt + BitVec.ofNat 32 i) ap out =
      some (out ++ (pieces args (text.drop i)
        (some ⟨e, none, (text.drop b).take (i - b)⟩) ap).flatMap (Piece.output load args))

variable {k : Nat}

theorem fetch_formatter (ht : Text text) (hi : i ≤ text.length) :
    (formatter fmt text load).fetch (fmt + BitVec.ofNat 32 i) out =
      some ((text.drop i).headD 0) := fetch_text ht hi

theorem text_run (ht : Text text) (hi : i ≤ text.length)
    (later : ∀ j > i, j ≤ text.length →
      TextRun fmt text load args k j ∧ EscapeRun fmt text load args k j) :
    TextRun fmt text load args k i := by
  intro ap out n hn hconv
  obtain ⟨n, rfl⟩ : ∃ l, n = l + 1 := ⟨n - 1, by omega⟩
  rw [loop, fetch_formatter ht hi]
  dsimp only [Option.bind_eq_bind, Option.bind_some]
  rcases Nat.lt_or_eq_of_le hi with hlt | rfl
  · obtain ⟨htext, hescape⟩ := later (i + 1) (Nat.lt_succ_self i) hlt
    have hnul : text[i] ≠ 0 := ht.nonul _ (List.getElem_mem hlt)
    rw [List.drop_eq_getElem_cons hlt, pieces] at hconv ⊢
    rw [List.headD_cons, next_fmt]
    by_cases hpercent : text[i] = 0x25
    · have ho : Opened text i (i + 1) := ⟨Nat.lt_succ_self i, hlt, hpercent, by omega⟩
      have hseen : (text.drop i).take (i + 1 - i) = [text[i]] := by
        rw [List.drop_eq_getElem_cons hlt, Nat.add_sub_cancel_left]
        rfl
      rw [if_pos hpercent] at hconv ⊢
      rw [if_pos hpercent, ← hseen]
      rw [← hseen] at hconv
      exact hescape i _ ap out n ho (by omega) hconv
    · rw [if_neg hpercent] at hconv ⊢
      rw [if_neg hpercent, if_neg hnul, List.flatMap_cons, ← List.append_assoc]
      exact htext ap _ n (by omega) fun piece hpiece =>
        hconv piece (List.mem_cons_of_mem _ hpiece)
  · rw [List.drop_length]
    exact congrArg some (List.append_nil out).symm

theorem escape_run (ht : Text text) (hi : i ≤ text.length) (here : TextRun fmt text load args k i)
    (later : ∀ j > i, j ≤ text.length →
      TextRun fmt text load args k j ∧ EscapeRun fmt text load args k j) :
    EscapeRun fmt text load args k i := by
  intro b e ap out n ho hn hconv
  have hshort := ht.short
  have hstart := ho.start
  generalize hcase : Case.of ((text.drop i).headD 0) = case
  by_cases hunknown : case = .unknown
  · -- the text since the percent sign is read again
    subst hunknown
    obtain ⟨hout, hmem⟩ := @pieces_unknown args load ap _
      ⟨e, none, (text.drop b).take (i - b)⟩ rfl hcase
    obtain ⟨n, rfl⟩ : ∃ l, n = l + (i - b) := ⟨n - (i - b), by omega⟩
    rw [unknown_run ht ho hi hcase, hout, ← List.append_assoc]
    refine here ap _ n (by omega) fun piece hpiece => ?_
    rcases hmem piece hpiece with hpiece | ⟨ch, rfl⟩
    · exact hconv piece hpiece
    · trivial
  · have hlt : i < text.length := by
      refine Nat.lt_of_le_of_ne hi fun heq => hunknown ?_
      rw [← hcase, heq, List.drop_length]
      rfl
    have hseen : (text.drop b).take (i - b) ++ [text[i]] = (text.drop b).take (i + 1 - b) := by
      rw [show i + 1 - b = i - b + 1 by omega, List.take_add_one, List.getElem?_drop,
        show b + (i - b) = i by omega, List.getElem?_eq_getElem hlt]
      rfl
    obtain ⟨n, rfl⟩ : ∃ l, n = l + 1 := ⟨n - 1, by omega⟩
    rw [loop, fetch_formatter ht hi]
    dsimp only [Option.bind_eq_bind, Option.bind_some]
    rw [hcase]
    rw [List.drop_eq_getElem_cons hlt, List.headD_cons] at hcase
    rw [List.drop_eq_getElem_cons hlt, pieces_open rfl, hcase] at hconv ⊢
    rw [List.headD_cons, next_fmt]
    cases case with
    | unknown => exact absurd rfl hunknown
    | conv c =>
        have hrun := hconv _ List.mem_cons_self n (by omega) (constant fmt (text ++ [0])) out
        have hrun' : convert
            (fun fmt' text' arg s => loop n ((formatter fmt text load).constants fmt' text')
              (fun _ => arg) .text 1 0 s) (formatter fmt text load) args e c ap out =
            some (ap + argWords e c, out ++ converted load args e c ap) := hrun
        dsimp only
        rw [hrun', List.flatMap_cons, ← List.append_assoc]
        exact (later (i + 1) (Nat.lt_succ_self i) hlt).1 _ _ n (by omega) fun piece hpiece =>
          hconv piece (List.mem_cons_of_mem _ hpiece)
    | flag f =>
        have hpercent : text[i] ≠ 0x25 := by
          refine (Case.of_percent _).mp ?_
          rw [hcase]
          exact nofun
        -- up to any later place in the escape sequence
        have hopened : ∀ j, i < j → (∀ l (hl : l < text.length), i + 1 ≤ l → l < j →
            text[l] ≠ 0x25) → Opened text b j := by
          intro j hij hbetween
          refine ⟨by omega, ho.bound, ho.percent, fun l hl hbl hlj => ?_⟩
          rcases Nat.lt_trichotomy l i with hli | rfl | hil
          · exact ho.between l hl hbl hli
          · exact hpercent
          · exact hbetween l hl hil hlj
        dsimp only at hconv ⊢
        by_cases hdigit : f = .digit
        · subst hdigit
          obtain ⟨j, v, hij, hj, hdigits, hbetween, hpieces⟩ :=
            @digits_run text fmt (i + 1) 4294967296 ht hlt (by omega) 0 text[i]
          have htake : (text.drop b).take (i - b) ++ [text[i]] ++
              (text.drop (i + 1)).take (j - (i + 1)) = (text.drop b).take (j - b) := by
            rw [hseen, show j - b = (i + 1 - b) + (j - (i + 1)) by omega, List.take_add,
              List.drop_drop, show b + (i + 1 - b) = i + 1 by omega]
          have hflag : Open.flag args ⟨e, none, (text.drop b).take (i - b)⟩ .digit text[i] ap =
              (⟨e, some (0 * 10 + text[i].setWidth 32 - 0x30),
                (text.drop b).take (i - b) ++ [text[i]]⟩, ap) := rfl
          have hrun : flag (fun a => (formatter fmt text load).fetch a out) args e .digit text[i]
              (fmt + BitVec.ofNat 32 (i + 1)) ap =
                some (e.processPrecision v, fmt + BitVec.ofNat 32 j, ap) := by
            rw [flag]
            exact congrArg (· >>= _) hdigits
          rw [hflag, hpieces, htake] at hconv ⊢
          rw [hrun]
          exact (later j hij hj).2 b _ ap out n (hopened j hij hbetween) (by omega) hconv
        · obtain ⟨hrun, hflag⟩ := @flag_eq args ap
            (fun a => (formatter fmt text load).fetch a out) f hdigit e text[i]
            ((text.drop b).take (i - b)) (fmt + BitVec.ofNat 32 (i + 1))
          rw [hflag, hseen] at hconv ⊢
          rw [hrun]
          exact (later (i + 1) (Nat.lt_succ_self i) hlt).2 b _ _ out n
            (hopened (i + 1) (Nat.lt_succ_self i) (by omega)) (by omega) hconv

/-- The loops put out the pieces, from every place of the text. -/
theorem loop_pieces (ht : Text text) (hi : i ≤ text.length) :
    TextRun fmt text load args k i ∧ EscapeRun fmt text load args k i := by
  induction hm : text.length - i using Nat.strongRecOn generalizing i with
  | ind m ih =>
      have later : ∀ j > i, j ≤ text.length →
          TextRun fmt text load args k j ∧ EscapeRun fmt text load args k j :=
        fun j hij hj => ih (text.length - j) (by omega) hj rfl
      have here := text_run ht hi later
      exact ⟨here, escape_run ht hi here later⟩

end Loop

/-! ### The conversions -/

section Conversions

variable {fetch load : Word → Option Byte} {args : Nat → Word} {e : Escape} {ap : Nat}
  {p : Word} {out chars : List Word}

theorem strnlen_total {n j : Nat} (hload : ∀ i ≤ j, (load (p + BitVec.ofNat 32 i)).isSome)
    (hend : load (p + BitVec.ofNat 32 j) = some 0 ∨ n = j) :
    ∃ len, strnlen load n p = some len := by
  induction n generalizing p j with
  | zero => exact ⟨0, rfl⟩
  | succ n ih =>
      have hzero : p + BitVec.ofNat 32 0 = p := BitVec.add_zero p
      have hfirst := hload 0 (Nat.zero_le j)
      rw [hzero] at hfirst
      obtain ⟨ch, hch⟩ := Option.isSome_iff_exists.mp hfirst
      rw [strnlen, hch]
      dsimp only [Option.bind_eq_bind, Option.bind_some]
      split
      · exact ⟨0, rfl⟩
      · rename_i hne
        have hpos : 0 < j := by
          rw [Nat.pos_iff_ne_zero]
          rintro rfl
          rcases hend with hend | hend
          · rw [hzero, hch] at hend
            exact hne (Option.some.inj hend)
          · omega
        obtain ⟨j, rfl⟩ : ∃ l, j = l + 1 := ⟨j - 1, by omega⟩
        have hshift := add_one_add_ofNat p
        obtain ⟨len, hlen⟩ := @ih (p + 1) j
          (fun i hi => by rw [hshift]; exact hload (i + 1) (Nat.succ_le_succ hi))
          (by rw [hshift]; exact hend.imp id Nat.succ.inj)
        exact ⟨len + 1, by rw [hlen]; rfl⟩

theorem stringChars_total {n j : Nat} {precision width : Word} (hn : j < n)
    (hload : ∀ i ≤ j, (load (p + BitVec.ofNat 32 i)).isSome)
    (hend : load (p + BitVec.ofNat 32 j) = some 0 ∨ precision.toInt = j) :
    ∃ r, stringChars (collect fetch load) e.altflag n precision width p out = some r := by
  induction n generalizing p j precision width out with
  | zero => omega
  | succ n ih =>
      have hzero : p + BitVec.ofNat 32 0 = p := BitVec.add_zero p
      have hshift := add_one_add_ofNat p
      have hfirst := hload 0 (Nat.zero_le j)
      rw [hzero] at hfirst
      obtain ⟨ch, hch⟩ := Option.isSome_iff_exists.mp hfirst
      have hch' : (collect fetch load).load p out = some ch := hch
      rw [stringChars, hch']
      dsimp only [Option.bind_eq_bind, Option.bind_some]
      by_cases hnul : ch = 0
      · exact ⟨_, if_pos hnul⟩
      have hpos : load (p + BitVec.ofNat 32 j) = some 0 → 0 < j := by
        intro hload
        rw [Nat.pos_iff_ne_zero]
        rintro rfl
        rw [hzero, hch] at hload
        exact hnul (Option.some.inj hload)
      -- the rest of the string
      have hrest : ∀ precision : Word, 0 < j →
          (load (p + BitVec.ofNat 32 j) = some 0 ∨ precision.toInt + 1 = j) →
          ∃ r, stringChars (collect fetch load) e.altflag n precision (width - 1) (p + 1)
            (out ++ [shown e.altflag ch]) = some r := by
        intro precision hpos hend
        obtain ⟨j, rfl⟩ : ∃ l, j = l + 1 := ⟨j - 1, by omega⟩
        exact ih (j := j) (by omega)
          (fun i hi => by rw [hshift]; exact hload (i + 1) (Nat.succ_le_succ hi))
          (by rw [hshift]; exact hend.imp id fun h => by omega)
      have hone : (precision - 1).toInt = precision.toInt - 1 ∨ precision.toInt < 0 := by
        have hlt := @BitVec.toInt_lt 32 precision
        rw [BitVec.toInt_sub, show (1 : Word).toInt = 1 from rfl, Int.bmod_def]
        omega
      simp only [if_neg hnul, BitVec.slt, show (0 : Word).toInt = 0 from rfl, decide_eq_true_eq]
      by_cases hneg : precision.toInt < 0
      · rw [if_pos hneg]
        have hend' := hend.resolve_right (by omega)
        exact hrest precision (hpos hend') (.inl hend')
      · rw [if_neg hneg]
        by_cases hlast : (precision - 1).toInt < 0
        · exact ⟨_, if_pos hlast⟩
        · rw [if_neg hlast]
          refine hrest (precision - 1) (hend.elim hpos fun h => ?_) (hend.imp id fun h => ?_)
          · omega
          · omega

/-- The string at `p` is put out if it can be read. -/
theorem putText_total (hp : Readable load p e.precision) :
    ∃ chars, putText (collect fetch load) e p out = some chars := by
  obtain ⟨j, hj, hload, hend⟩ := hp
  have hpad : ∃ r, padString (collect fetch load) e p out = some r := by
    rw [padString]
    split
    · obtain ⟨len, hlen⟩ : ∃ len, strnlen load e.precision.toNat p = some len := by
        by_cases hnul : load (p + BitVec.ofNat 32 j) = some 0
        · exact strnlen_total hload (.inl hnul)
        · refine strnlen_total hload (.inr ?_)
          have hprec := hend.resolve_left hnul
          rw [BitVec.toInt_eq_toNat_cond] at hprec
          split at hprec
          · omega
          · have := e.precision.isLt
            omega
      have hlen' : strnlen (fun a => (collect fetch load).load a out) e.precision.toNat p =
          some len := hlen
      rw [hlen']
      dsimp only [Option.bind_eq_bind, Option.bind_some]
      split
      · exact ⟨_, rfl⟩
      · exact ⟨_, rfl⟩
    · exact ⟨_, rfl⟩
  obtain ⟨⟨width, out'⟩, hpad⟩ := hpad
  obtain ⟨⟨width', out''⟩, hchars⟩ := @stringChars_total fetch load e p out' 4294967297 j
    e.precision width (by omega) hload hend
  rw [putText, hpad]
  dsimp only [Option.bind_eq_bind, Option.bind_some]
  rw [hchars]
  exact ⟨_, rfl⟩

/-- A string constant can be read. -/
theorem constant_readable {text : List Byte} (hlen : text.length < 4294967296) (precision : Word) :
    Readable (constant 1 (text ++ [0])) 1 precision := by
  refine ⟨text.length, hlen, fun i hi => ?_, .inl ?_⟩
  · rw [constant, sub_buf (by omega), List.getElem?_eq_getElem (by simp; omega)]
    rfl
  · rw [constant, sub_buf hlen, List.getElem?_append_right (Nat.le_refl _), Nat.sub_self]
    rfl

theorem putString_total (hp : p ≠ 0 → Readable load p e.precision) :
    ∃ chars, putString (collect fetch load) e p out = some chars := by
  rw [putString]
  split
  · exact putText_total (constant_readable (by decide) _)
  · rename_i hne
    exact putText_total (hp hne)

/-- What has been put out before stays in front. -/
theorem collect_append (fetch load : Word → Option Byte) (out : List Word) :
    (collect (fun _ => none) load).Rel (collect fetch load) fun s t => t = out ++ s where
  fetch := fun _ _ => .none _
  load := fun _ _ => .refl _
  putch := by
    rintro s _ rfl c
    exact List.append_assoc _ _ _

theorem getuint_snd (args : Nat → Word) (ap : Nat) (lflag : Word) :
    (getuint args ap lflag).2 = ap + if 2 ≤ lflag.toInt then 2 else 1 := by
  rw [getuint]
  split
  · rfl
  · rfl

theorem getint_snd (args : Nat → Word) (ap : Nat) (lflag : Word) :
    (getint args ap lflag).2 = ap + if 2 ≤ lflag.toInt then 2 else 1 := by
  rw [getint]
  split
  · rfl
  · rfl

/-- A conversion other than `%e` is total. -/
theorem convert_total {printfmt : List Byte → List Byte → Word → List Word → Option (List Word)}
    {c : Conv} (hc : c ≠ .error)
    (hstring : c = .string → args ap ≠ 0 → Readable load (args ap) e.precision) :
    ∃ chars, convert printfmt (collect fetch load) args e c ap out =
      some (ap + argWords e c, chars) := by
  cases c with
  | error => exact absurd rfl hc
  | string =>
      obtain ⟨chars, hchars⟩ := @putString_total fetch load e _ out (hstring rfl)
      rw [convert, hchars]
      exact ⟨_, rfl⟩
  | signed =>
      rw [convert, argWords, ← getint_snd args ap]
      dsimp only
      split
      · exact ⟨_, rfl⟩
      · exact ⟨_, rfl⟩
  | unsigned | octal | hex =>
      rw [convert, argWords, ← getuint_snd args ap]
      exact ⟨_, rfl⟩
  | char | pointer | percent => exact ⟨_, rfl⟩

/-- Only `%e` has nested calls. -/
theorem convert_congr {printfmt printfmt' : List Byte → List Byte → Word → List Word →
    Option (List Word)} {O : Ops (List Word)} {c : Conv} (hc : c ≠ .error) :
    convert printfmt O args e c ap out = convert printfmt' O args e c ap out := by
  cases c with
  | error => exact absurd rfl hc
  | char | string | signed | unsigned | octal | pointer | hex | percent => rfl

/-- A conversion other than `%e` does the same in every run. -/
theorem converts_plain {text : List Byte} {c : Conv} (hc : c ≠ .error)
    (hstring : c = .string → args ap ≠ 0 → Readable load (args ap) e.precision) (k : Nat) :
    Converts load args k (.conv text e c ap) := by
  intro n _ fetch out
  obtain ⟨chars, hchars⟩ := @convert_total (fun _ => none) load args e ap []
    (fun _ _ _ _ => none) c hc hstring
  have hown : converted load args e c ap = chars := by
    rw [converted, convert_congr hc, hchars]
    rfl
  have hnested : ∀ fmt text arg {s t : List Word}, t = out ++ s →
      Sim (fun s t => t = out ++ s) none (nested n (collect fetch load) fmt text arg t) :=
    fun _ _ _ _ _ _ => .none _
  obtain ⟨r, hrun, heq, hout⟩ := convert_sim hnested (collect_append fetch load out) args e c ap
    (List.append_nil out).symm _ hchars
  rw [hrun, hown]
  exact congrArg some (Prod.ext heq.symm hout)

/-- A nested call puts out the pieces of its format. -/
theorem nested_run {fmt text : List Byte} {arg : Word} {n : Nat} (ht : Text fmt)
    (hn : 2 * fmt.length < n)
    (hconv : ∀ piece ∈ pieces (fun _ => arg) fmt none 0,
      Converts (constant 1 (text ++ [0])) (fun _ => arg) 0 piece) :
    nested n (collect fetch load) fmt text arg out =
      some (out ++ (pieces (fun _ => arg) fmt none 0).flatMap
        (Piece.output (constant 1 (text ++ [0])) fun _ => arg)) :=
  (loop_pieces ht (Nat.zero_le _)).1 0 out n (by simpa using hn) hconv

theorem errorFormat_pieces (args : Nat → Word) : pieces args errorFormat none 0 =
    [.char 0x65, .char 0x72, .char 0x72, .char 0x6F, .char 0x72, .char 0x20,
      .conv [0x25, 0x64] .init .signed 0] := rfl

theorem stringFormat_pieces (args : Nat → Word) :
    pieces args stringFormat none 0 = [.conv [0x25, 0x73] .init .string 0] := rfl

theorem errorString_length {err : Word} {text : List Byte} (h : errorString err = some text) :
    text.length < 4294967296 := by
  have hknown : ∀ entry ∈ errorStrings, ∀ text ∈ entry, text.length < 4294967296 := by decide
  rw [errorString] at h
  split at h
  · cases h
  · by_cases hlt : (err * 4).toNat / 4 < errorStrings.length
    · rw [List.getD_eq_getElem _ _ hlt] at h
      exact hknown _ (List.getElem_mem hlt) text h
    · rw [List.getD_eq_default _ _ (by omega)] at h
      cases h

/-- The nested call of `%e`. -/
theorem putError_total (err : Word) : ∃ chars, ∀ n > 16, ∀ fetch out,
    putError (nested n (collect fetch load)) err out = some (out ++ chars) := by
  simp only [putError]
  generalize (if err.slt 0 then -err else err) = err
  generalize hentry : errorString err = entry
  cases entry with
  | none =>
      have hformat : Text errorFormat := ⟨by decide, by decide⟩
      refine ⟨_, fun n hn fetch out => nested_run hformat hn fun piece hpiece => ?_⟩
      cases piece with
      | char | verbatim => trivial
      | conv seen e c ap =>
          rw [errorFormat_pieces] at hpiece
          simp only [List.mem_cons, List.not_mem_nil, reduceCtorEq, Piece.conv.injEq, false_or,
            or_false] at hpiece
          obtain ⟨-, -, rfl, -⟩ := hpiece
          have hc : Conv.signed ≠ .error := by simp
          exact converts_plain hc (fun h => absurd h (by simp)) 0
  | some text =>
      have hformat : Text stringFormat := ⟨by decide, by decide⟩
      refine ⟨_, fun n hn fetch out => nested_run hformat ?_ fun piece hpiece => ?_⟩
      · exact Nat.lt_of_le_of_lt (by decide) hn
      · rw [stringFormat_pieces] at hpiece
        obtain rfl := List.mem_singleton.mp hpiece
        have hc : Conv.string ≠ .error := by simp
        refine converts_plain hc (fun _ _ => ?_) 0
        exact constant_readable (errorString_length hentry) _

/-- `%e` does the same in every run. -/
theorem converts_error (text : List Byte) : Converts load args 16 (.conv text e .error ap) := by
  obtain ⟨chars, hchars⟩ := @putError_total load (args ap)
  intro n hn fetch out
  have hown : converted load args e .error ap = chars := by
    have hrun := hchars 17179869184 (by decide) (fun _ => none) []
    have hrun' : putError (fun fmt text arg s =>
        vprintfmt ((collect (fun _ => none) load).constants fmt text) (fun _ => arg) 1 s)
        (args ap) [] = some ([] ++ chars) := hrun
    rw [converted, convert, hrun']
    rfl
  rw [convert, hchars n hn, hown]
  rfl

end Conversions

/-- The string arguments of a format are strings. -/
def Sufficient (load : Word → Option Byte) (args : Nat → Word) (text : List Byte) : Prop :=
  ∀ seen e ap, Piece.conv seen e .string ap ∈ pieces args text none 0 →
    args ap ≠ 0 → Readable load (args ap) e.precision

/-- `vprintfmt` ends on every text, reads nothing around it, and puts out its pieces, which make
up the whole text: what is neither a character nor a conversion comes out as it is. -/
theorem vprintfmt_pieces {text : List Byte} (ht : Text text) (fmt : Word)
    {load : Word → Option Byte} {args : Nat → Word} (hargs : Sufficient load args text) :
    (pieces args text none 0).flatMap Piece.source = text ∧
      vprintfmt (formatter fmt text load) args fmt [] =
        some ((pieces args text none 0).flatMap (Piece.output load args)) := by
  have hshort := ht.short
  refine ⟨pieces_source args text none 0, ?_⟩
  have hzero : fmt + BitVec.ofNat 32 0 = fmt := BitVec.add_zero fmt
  have hrun := (@loop_pieces args text fmt load 0 16 ht (Nat.zero_le _)).1 0 [] 17179869184
    (by omega) fun piece hpiece => ?_
  · rw [hzero] at hrun
    exact hrun
  · cases piece with
    | char | verbatim => trivial
    | conv seen e c ap =>
        by_cases hc : c = .error
        · rw [hc]
          exact converts_error seen
        · refine converts_plain hc (fun hstring => ?_) 16
          subst hstring
          exact hargs seen e ap hpiece

/-- The format `%-z%s%5` with the string `hi`. -/
theorem vprintfmt_pieces_mixed :
    vprintfmt (formatter 0x1000 [0x25, 0x2D, 0x7A, 0x25, 0x73, 0x25, 0x35]
        (constant 1 [0x68, 0x69, 0])) (fun _ => 1) 0x1000 [] =
      some [0x25, 0x2D, 0x7A, 0x68, 0x69, 0x25, 0x35] := by
  have ht : Text [0x25, 0x2D, 0x7A, 0x25, 0x73, 0x25, 0x35] := ⟨by decide, by decide⟩
  have hargs : Sufficient (constant 1 [0x68, 0x69, 0]) (fun _ => 1)
      [0x25, 0x2D, 0x7A, 0x25, 0x73, 0x25, 0x35] :=
    fun _ _ _ _ _ => @constant_readable [0x68, 0x69] (by decide) _
  exact (vprintfmt_pieces ht 0x1000 hargs).2.trans (by decide +kernel)

end Jos.Printfmt
