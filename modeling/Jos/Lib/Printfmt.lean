import Jos.Kernel.Printfmt
import Jos.Lib.Number

/-!
# `vprintfmt` (`lib/printfmt.c`)

The formatter runs over a state that its `putch` changes. Format and string arguments are read
from that state too, so that an output buffer may overlap them. The two loops of the source,
over literal text and over an escape sequence (`reswitch`), are one recursion with fuel: the
default branch moves `fmt` back, so the distance to the NUL does not always decrease.
-/

namespace Jos.Printfmt

open Number

/-- What the formatter is run over. A byte that must not be read gives `none`. -/
structure Ops (σ : Type) where
  fetch : Word → σ → Option Byte
  load : Word → σ → Option Byte
  putch : Word → σ → σ

variable {σ τ : Type}

def Ops.puts (O : Ops σ) (chars : List Word) (s : σ) : σ := chars.foldl (fun s c => O.putch c s) s

/-- The bytes of a constant at `base`. -/
def constant (base : Word) (bytes : List Byte) (a : Word) : Option Byte := bytes[(a - base).toNat]?

/-- The text of the format `error %d`. -/
def errorFormat : List Byte := [0x65, 0x72, 0x72, 0x6F, 0x72, 0x20, 0x25, 0x64]

/-- The text of the format `%s`. -/
def stringFormat : List Byte := [0x25, 0x73]

/-- `error_string`: unspecified error, bad environment, invalid parameter, out of memory,
out of environments, segmentation fault, env is not recving, unexpected end of file. -/
def errorStrings : List (Option (List Byte)) :=
  [none,
    some [0x75, 0x6E, 0x73, 0x70, 0x65, 0x63, 0x69, 0x66, 0x69, 0x65, 0x64, 0x20, 0x65, 0x72,
      0x72, 0x6F, 0x72],
    some [0x62, 0x61, 0x64, 0x20, 0x65, 0x6E, 0x76, 0x69, 0x72, 0x6F, 0x6E, 0x6D, 0x65, 0x6E,
      0x74],
    some [0x69, 0x6E, 0x76, 0x61, 0x6C, 0x69, 0x64, 0x20, 0x70, 0x61, 0x72, 0x61, 0x6D, 0x65,
      0x74, 0x65, 0x72],
    some [0x6F, 0x75, 0x74, 0x20, 0x6F, 0x66, 0x20, 0x6D, 0x65, 0x6D, 0x6F, 0x72, 0x79],
    some [0x6F, 0x75, 0x74, 0x20, 0x6F, 0x66, 0x20, 0x65, 0x6E, 0x76, 0x69, 0x72, 0x6F, 0x6E,
      0x6D, 0x65, 0x6E, 0x74, 0x73],
    some [0x73, 0x65, 0x67, 0x6D, 0x65, 0x6E, 0x74, 0x61, 0x74, 0x69, 0x6F, 0x6E, 0x20, 0x66,
      0x61, 0x75, 0x6C, 0x74],
    some [0x65, 0x6E, 0x76, 0x20, 0x69, 0x73, 0x20, 0x6E, 0x6F, 0x74, 0x20, 0x72, 0x65, 0x63,
      0x76, 0x69, 0x6E, 0x67],
    some [0x75, 0x6E, 0x65, 0x78, 0x70, 0x65, 0x63, 0x74, 0x65, 0x64, 0x20, 0x65, 0x6E, 0x64,
      0x20, 0x6F, 0x66, 0x20, 0x66, 0x69, 0x6C, 0x65]]

/-- The variables of an escape sequence. -/
structure Escape extends Conversion where
  padc : Word
  lflag : Word
  altflag : Bool

def Escape.init : Escape := ⟨Conversion.init, 0x20, 0, false⟩

/-- The characters after which the source goes to `reswitch`. -/
inductive Flag
  | minus
  | zero
  | digit
  | star
  | dot
  | alt
  | long
  deriving DecidableEq

/-- The characters that end an escape sequence. -/
inductive Conv
  | char
  | error
  | string
  | signed
  | unsigned
  | octal
  | pointer
  | hex
  | percent
  deriving DecidableEq

/-- The cases of the `switch`. -/
inductive Case
  | flag (f : Flag)
  | conv (c : Conv)
  | unknown
  deriving DecidableEq

/-- The case of a character. -/
def Case.of (ch : Byte) : Case :=
  if ch = 0x2D then .flag .minus
  else if ch = 0x30 then .flag .zero
  else if 0x31 ≤ ch ∧ ch ≤ 0x39 then .flag .digit
  else if ch = 0x2A then .flag .star
  else if ch = 0x2E then .flag .dot
  else if ch = 0x23 then .flag .alt
  else if ch = 0x6C then .flag .long
  else if ch = 0x63 then .conv .char
  else if ch = 0x65 then .conv .error
  else if ch = 0x73 then .conv .string
  else if ch = 0x64 then .conv .signed
  else if ch = 0x75 then .conv .unsigned
  else if ch = 0x6F then .conv .octal
  else if ch = 0x70 then .conv .pointer
  else if ch = 0x78 then .conv .hex
  else if ch = 0x25 then .conv .percent
  else .unknown

/-- `getuint`: the number and the next argument. A `long` has 32 bits. -/
def getuint (args : Nat → Word) (ap : Nat) (lflag : Word) : BitVec 64 × Nat :=
  if 2 ≤ lflag.toInt then (args (ap + 1) ++ args ap, ap + 2) else ((args ap).setWidth 64, ap + 1)

/-- `getint`. -/
def getint (args : Nat → Word) (ap : Nat) (lflag : Word) : BitVec 64 × Nat :=
  if 2 ≤ lflag.toInt then (args (ap + 1) ++ args ap, ap + 2)
  else ((args ap).signExtend 64, ap + 1)

/-- The label `number`. -/
def number (O : Ops σ) (e : Escape) (num : BitVec 64) (base : Word) (s : σ) : σ :=
  O.puts (printnum num base e.width e.padc) s

/-- `strnlen`. -/
def strnlen (load : Word → Option Byte) : Nat → Word → Option Nat
  | 0, _ => some 0
  | n + 1, p => do
      let ch ← load p
      if ch = 0 then some 0 else do
        let len ← strnlen load n (p + 1)
        some (len + 1)

/-- The character that `%s` puts for `ch`, a signed `char`. -/
def shown (altflag : Bool) (ch : Byte) : Word :=
  let ch := ch.signExtend 32
  if altflag ∧ (ch.slt 0x20 ∨ (0x7E : Word).slt ch) then 0x3F else ch

/-- The loop over the characters of a string, for at most `n` rounds, with the width that is
left. -/
def stringChars (O : Ops σ) (altflag : Bool) : Nat → Word → Word → Word → σ → Option (Word × σ)
  | 0, _, _, _, _ => none
  | n + 1, precision, width, p, s => do
      let ch ← O.load p s
      if ch = 0 then some (width, s)
      else if precision.slt 0 then
        stringChars O altflag n precision (width - 1) (p + 1) (O.putch (shown altflag ch) s)
      else if (precision - 1).slt 0 then some (width, s)
      else
        stringChars O altflag n (precision - 1) (width - 1) (p + 1) (O.putch (shown altflag ch) s)

/-- The padding in front of a string, with the width that is left. -/
def padString (O : Ops σ) (e : Escape) (p : Word) (s : σ) : Option (Word × σ) :=
  if 0 < e.width.toInt ∧ e.padc ≠ 0x2D then do
    let len ← strnlen (fun a => O.load a s) e.precision.toNat p
    let width := e.width - BitVec.ofNat 32 len
    if 0 < width.toInt then some (0, O.puts (List.replicate width.toInt.toNat e.padc) s)
    else some (width, s)
  else some (e.width, s)

/-- The string at `p`, padded. The address space ends after 2^32 rounds. -/
def putText (O : Ops σ) (e : Escape) (p : Word) (s : σ) : Option σ := do
  let (width, s) ← padString O e p s
  let (width, s) ← stringChars O e.altflag 4294967297 e.precision width p s
  some (O.puts (List.replicate width.toInt.toNat 0x20) s)

/-- The same formatter reading the constants `fmt` and `text`, both at address 1. -/
def Ops.constants (O : Ops σ) (fmt text : List Byte) : Ops σ :=
  { O with
    fetch := fun a _ => constant 1 (fmt ++ [0]) a
    load := fun a _ => constant 1 (text ++ [0]) a }

/-- `case 's'` for the argument `p`. -/
def putString (O : Ops σ) (e : Escape) (p : Word) (s : σ) : Option σ :=
  if p = 0 then putText (O.constants [] nullText.dropLast) e 1 s else putText O e p s

/-- The entry of `error_string`. The address of the entry is computed modulo 2^32, so the only
negative index, of -2^31, gives the first entry. -/
def errorString (err : Word) : Option (List Byte) :=
  if 9 ≤ err.toInt then none else errorStrings.getD ((err * 4).toNat / 4) none

/-- `case 'e'`. `printfmt fmt text arg` is the nested call with a constant format and one
argument, which is a number or the address of `text`. -/
def putError (printfmt : List Byte → List Byte → Word → σ → Option σ) (err : Word) (s : σ) :
    Option σ :=
  let err := if err.slt 0 then -err else err
  match errorString err with
  | none => printfmt errorFormat [] err s
  | some text => printfmt stringFormat text 1 s

/-- A conversion: the next argument and the state. -/
def convert (printfmt : List Byte → List Byte → Word → σ → Option σ) (O : Ops σ)
    (args : Nat → Word) (e : Escape) (c : Conv) (ap : Nat) (s : σ) : Option (Nat × σ) :=
  match c with
  | .char => some (ap + 1, O.putch (args ap) s)
  | .error => do
      let s ← putError printfmt (args ap) s
      some (ap + 1, s)
  | .string => do
      let s ← putString O e (args ap) s
      some (ap + 1, s)
  | .signed =>
      let (num, ap) := getint args ap e.lflag
      if num.slt 0 then some (ap, number O e (-num) 10 (O.putch 0x2D s))
      else some (ap, number O e num 10 s)
  | .unsigned =>
      let (num, ap) := getuint args ap e.lflag
      some (ap, number O e num 10 s)
  | .octal =>
      let (num, ap) := getuint args ap e.lflag
      some (ap, number O e num 8 s)
  | .pointer => some (ap + 1, number O e ((args ap).setWidth 64) 16 (O.puts [0x30, 0x78] s))
  | .hex =>
      let (num, ap) := getuint args ap e.lflag
      some (ap, number O e num 16 s)
  | .percent => some (ap, O.putch 0x25 s)

/-- The loop over the digits of a width or a precision: the number and `fmt`. -/
def digits (fetch : Word → Option Byte) : Nat → Word → Byte → Word → Option (Word × Word)
  | 0, _, _, _ => none
  | n + 1, precision, ch, fmt => do
      let precision := precision * 10 + ch.setWidth 32 - 0x30
      let ch ← fetch fmt
      if ch < 0x30 ∨ 0x39 < ch then some (precision, fmt) else digits fetch n precision ch (fmt + 1)

/-- The label `process_precision`. -/
def Escape.processPrecision (e : Escape) (precision : Word) : Escape :=
  { e with toConversion := e.toConversion.star precision }

/-- A flag whose character is `ch`: the variables, `fmt` and the next argument. -/
def flag (fetch : Word → Option Byte) (args : Nat → Word) (e : Escape) (f : Flag) (ch : Byte)
    (fmt : Word) (ap : Nat) : Option (Escape × Word × Nat) :=
  match f with
  | .minus => some ({ e with padc := 0x2D }, fmt, ap)
  | .zero => some ({ e with padc := 0x30 }, fmt, ap)
  | .digit => do
      let (precision, fmt) ← digits fetch 4294967296 0 ch fmt
      some (e.processPrecision precision, fmt, ap)
  | .star => some (e.processPrecision (args ap), fmt, ap + 1)
  | .dot => some ({ e with toConversion := e.toConversion.dot }, fmt, ap)
  | .alt => some ({ e with altflag := true }, fmt, ap)
  | .long => some ({ e with lflag := e.lflag + 1 }, fmt, ap)

/-- `for (; fmt[-1] != '%'; fmt--)`, for at most `n` rounds. -/
def back (fetch : Word → Option Byte) : Nat → Word → Option Word
  | 0, _ => none
  | n + 1, fmt => do
      let ch ← fetch (fmt - 1)
      if ch = 0x25 then some fmt else back fetch n (fmt - 1)

/-- Where the formatter is: in the first loop or at `reswitch`. -/
inductive Mode
  | text
  | escape (e : Escape)

/-- The loops of `vprintfmt`, for at most `n` characters. -/
def loop : Nat → Ops σ → (Nat → Word) → Mode → Word → Nat → σ → Option σ
  | 0, _, _, _, _, _, _ => none
  | n + 1, O, args, .text, fmt, ap, s => do
      let ch ← O.fetch fmt s
      if ch = 0x25 then loop n O args (.escape .init) (fmt + 1) ap s
      else if ch = 0 then some s
      else loop n O args .text (fmt + 1) ap (O.putch (ch.setWidth 32) s)
  | n + 1, O, args, .escape e, fmt, ap, s => do
      let ch ← O.fetch fmt s
      match Case.of ch with
      | .flag f => do
          let (e, fmt, ap) ← flag (fun a => O.fetch a s) args e f ch (fmt + 1) ap
          loop n O args (.escape e) fmt ap s
      | .conv c => do
          let (ap, s) ← convert
            (fun fmt text arg s => loop n (O.constants fmt text) (fun _ => arg) .text 1 0 s)
            O args e c ap s
          loop n O args .text (fmt + 1) ap s
      | .unknown => do
          let s := O.putch 0x25 s
          let fmt ← back (fun a => O.fetch a s) 4294967296 fmt
          loop n O args .text fmt ap s

/-- `vprintfmt`. A text of less than 2^32 characters is read twice at most. -/
def vprintfmt (O : Ops σ) (args : Nat → Word) (fmt : Word) (s : σ) : Option σ :=
  loop 17179869184 O args .text fmt 0 s

/-! ### Runs over two states

If every byte that one formatter reads is the same for another one, and `putch` keeps the two
states related, then what the one does the other one does too.
-/

/-- A result of the one computation has a related result of the other one. -/
def Sim {α β : Type} (R : α → β → Prop) (x : Option α) (y : Option β) : Prop :=
  ∀ a, x = some a → ∃ b, y = some b ∧ R a b

namespace Sim

variable {α β γ δ : Type} {R : α → β → Prop} {Q : γ → δ → Prop}

theorem none (y : Option β) : Sim R Option.none y := fun _ h => nomatch h

theorem some {a : α} {b : β} (h : R a b) : Sim R (Option.some a) (Option.some b) := by
  intro a' ha'
  obtain rfl := Option.some.inj ha'
  exact ⟨b, rfl, h⟩

theorem refl (x : Option α) : Sim Eq x x := fun a h => ⟨a, h, rfl⟩

theorem bind {x : Option α} {y : Option β} {f : α → Option γ} {g : β → Option δ}
    (h : Sim R x y) (next : ∀ a b, R a b → Sim Q (f a) (g b)) : Sim Q (x >>= f) (y >>= g) := by
  intro c hc
  obtain ⟨a, ha, hac⟩ := Option.bind_eq_some_iff.mp hc
  obtain ⟨b, hb, hab⟩ := h a ha
  obtain ⟨d, hd, hcd⟩ := next a b hab c hac
  exact ⟨d, Option.bind_eq_some_iff.mpr ⟨b, hb, hd⟩, hcd⟩

theorem ite {c : Prop} [Decidable c] {x x' : Option α} {y y' : Option β} (h : Sim R x y)
    (h' : Sim R x' y') : Sim R (if c then x else x') (if c then y else y') := by
  split
  · exact h
  · exact h'

end Sim

/-- `B` reads what `A` reads. -/
structure Ops.Rel (A : Ops σ) (B : Ops τ) (R : σ → τ → Prop) : Prop where
  fetch : ∀ {s t}, R s t → ∀ a, Sim Eq (A.fetch a s) (B.fetch a t)
  load : ∀ {s t}, R s t → ∀ a, Sim Eq (A.load a s) (B.load a t)
  putch : ∀ {s t}, R s t → ∀ c, R (A.putch c s) (B.putch c t)

section Rel

variable {A : Ops σ} {B : Ops τ} {R : σ → τ → Prop} {s : σ} {t : τ}

theorem Ops.Rel.puts (rel : A.Rel B R) (hst : R s t) (chars : List Word) :
    R (A.puts chars s) (B.puts chars t) := by
  induction chars generalizing s t with
  | nil => exact hst
  | cons c chars ih => exact ih (rel.putch hst c)

theorem Ops.Rel.constants (rel : A.Rel B R) (fmt text : List Byte) :
    (A.constants fmt text).Rel (B.constants fmt text) R where
  fetch _ _ := .refl _
  load _ _ := .refl _
  putch := rel.putch

theorem strnlen_sim {load load' : Word → Option Byte} (h : ∀ a, Sim Eq (load a) (load' a))
    (n : Nat) (p : Word) : Sim Eq (strnlen load n p) (strnlen load' n p) := by
  induction n generalizing p with
  | zero => exact .some rfl
  | succ n ih =>
      refine (h p).bind fun ch _ heq => ?_
      subst heq
      refine .ite (.some rfl) ((ih (p + 1)).bind fun len _ heq => ?_)
      subst heq
      exact .some rfl

/-- The same width, in related states. -/
def Both (R : σ → τ → Prop) {α : Type} (x : α × σ) (y : α × τ) : Prop := x.1 = y.1 ∧ R x.2 y.2

theorem stringChars_sim (rel : A.Rel B R) (altflag : Bool) (n : Nat) (precision width p : Word)
    (hst : R s t) :
    Sim (Both R) (stringChars A altflag n precision width p s)
      (stringChars B altflag n precision width p t) := by
  induction n generalizing precision width p s t with
  | zero => exact .none _
  | succ n ih =>
      refine (rel.load hst p).bind fun ch _ heq => ?_
      subst heq
      have hnext := rel.putch hst (shown altflag ch)
      exact .ite (.some ⟨rfl, hst⟩) (.ite (ih _ _ _ hnext)
        (.ite (.some ⟨rfl, hst⟩) (ih _ _ _ hnext)))

theorem padString_sim (rel : A.Rel B R) (e : Escape) (p : Word) (hst : R s t) :
    Sim (Both R) (padString A e p s) (padString B e p t) := by
  refine .ite ?_ (.some ⟨rfl, hst⟩)
  refine (strnlen_sim (rel.load hst) _ p).bind fun len _ heq => ?_
  subst heq
  exact .ite (.some ⟨rfl, rel.puts hst _⟩) (.some ⟨rfl, hst⟩)

theorem putText_sim (rel : A.Rel B R) (e : Escape) (p : Word) (hst : R s t) :
    Sim R (putText A e p s) (putText B e p t) := by
  refine (padString_sim rel e p hst).bind fun ⟨width, s⟩ ⟨_, t⟩ ⟨heq, hst⟩ => ?_
  obtain rfl : width = _ := heq
  refine (stringChars_sim rel _ _ _ _ _ hst).bind fun ⟨width, s⟩ ⟨_, t⟩ ⟨heq, hst⟩ => ?_
  obtain rfl : width = _ := heq
  exact .some (rel.puts hst _)

theorem putString_sim (rel : A.Rel B R) (e : Escape) (p : Word) (hst : R s t) :
    Sim R (putString A e p s) (putString B e p t) :=
  .ite (putText_sim (rel.constants _ _) e 1 hst) (putText_sim rel e p hst)

theorem convert_sim {printfmt : List Byte → List Byte → Word → σ → Option σ}
    {printfmt' : List Byte → List Byte → Word → τ → Option τ}
    (nested : ∀ fmt text arg {s t}, R s t →
      Sim R (printfmt fmt text arg s) (printfmt' fmt text arg t))
    (rel : A.Rel B R) (args : Nat → Word) (e : Escape) (c : Conv) (ap : Nat) (hst : R s t) :
    Sim (Both R) (convert printfmt A args e c ap s) (convert printfmt' B args e c ap t) := by
  cases c with
  | char => exact .some ⟨rfl, rel.putch hst _⟩
  | error =>
      have herror : Sim R (putError printfmt (args ap) s) (putError printfmt' (args ap) t) := by
        rw [putError, putError]
        split
        · exact nested _ _ _ hst
        · exact nested _ _ _ hst
      exact herror.bind fun s t hst => .some ⟨rfl, hst⟩
  | string => exact (putString_sim rel e _ hst).bind fun s t hst => .some ⟨rfl, hst⟩
  | signed => exact .ite (.some ⟨rfl, rel.puts (rel.putch hst _) _⟩) (.some ⟨rfl, rel.puts hst _⟩)
  | unsigned => exact .some ⟨rfl, rel.puts hst _⟩
  | octal => exact .some ⟨rfl, rel.puts hst _⟩
  | pointer => exact .some ⟨rfl, rel.puts (rel.puts hst _) _⟩
  | hex => exact .some ⟨rfl, rel.puts hst _⟩
  | percent => exact .some ⟨rfl, rel.putch hst _⟩

variable {fetch fetch' : Word → Option Byte}

theorem digits_sim (h : ∀ a, Sim Eq (fetch a) (fetch' a)) (n : Nat) (precision : Word) (ch : Byte)
    (fmt : Word) : Sim Eq (digits fetch n precision ch fmt) (digits fetch' n precision ch fmt) := by
  induction n generalizing precision ch fmt with
  | zero => exact .none _
  | succ n ih =>
      refine (h fmt).bind fun ch _ heq => ?_
      subst heq
      exact .ite (.some rfl) (ih _ _ _)

theorem flag_sim (h : ∀ a, Sim Eq (fetch a) (fetch' a)) (args : Nat → Word) (e : Escape) (f : Flag)
    (ch : Byte) (fmt : Word) (ap : Nat) :
    Sim Eq (flag fetch args e f ch fmt ap) (flag fetch' args e f ch fmt ap) := by
  cases f with
  | digit =>
      refine (digits_sim h _ _ _ _).bind fun r _ heq => ?_
      subst heq
      exact .refl _
  | minus | zero | star | dot | alt | long => exact .refl _

theorem back_sim (h : ∀ a, Sim Eq (fetch a) (fetch' a)) (n : Nat) (fmt : Word) :
    Sim Eq (back fetch n fmt) (back fetch' n fmt) := by
  induction n generalizing fmt with
  | zero => exact .none _
  | succ n ih =>
      refine (h (fmt - 1)).bind fun ch _ heq => ?_
      subst heq
      exact .ite (.refl _) (ih _)

theorem loop_sim (n : Nat) {A : Ops σ} {B : Ops τ} (rel : A.Rel B R) (args : Nat → Word) (m : Mode)
    (fmt : Word) (ap : Nat) {s : σ} {t : τ} (hst : R s t) :
    Sim R (loop n A args m fmt ap s) (loop n B args m fmt ap t) := by
  induction n generalizing A B args m fmt ap s t with
  | zero => exact .none _
  | succ n ih =>
      cases m with
      | text =>
          refine (rel.fetch hst fmt).bind fun ch _ heq => ?_
          subst heq
          exact .ite (ih rel _ _ _ _ hst)
            (.ite (.some hst) (ih rel _ _ _ _ (rel.putch hst _)))
      | escape e =>
          refine (rel.fetch hst fmt).bind fun ch _ heq => ?_
          subst heq
          split
          · refine (flag_sim (rel.fetch hst) args e _ ch _ ap).bind fun r _ heq => ?_
            subst heq
            exact ih rel _ _ _ _ hst
          · have nested : ∀ fmt text arg {s t}, R s t →
                Sim R (loop n (A.constants fmt text) (fun _ => arg) .text 1 0 s)
                  (loop n (B.constants fmt text) (fun _ => arg) .text 1 0 t) :=
              fun fmt text arg s t => ih (rel.constants fmt text) _ _ _ _
            refine (convert_sim nested rel args e _ ap hst).bind ?_
            rintro ⟨ap, s⟩ ⟨_, t⟩ ⟨heq, hst⟩
            obtain rfl : ap = _ := heq
            exact ih rel _ _ _ _ hst
          · have hput := rel.putch hst 0x25
            refine (back_sim (rel.fetch hput) _ fmt).bind fun r _ heq => ?_
            subst heq
            exact ih rel _ _ _ _ hput

/-- Two runs of `vprintfmt` over related states. -/
theorem vprintfmt_sim (rel : A.Rel B R) (args : Nat → Word) (fmt : Word) (hst : R s t) :
    Sim R (vprintfmt A args fmt s) (vprintfmt B args fmt t) :=
  loop_sim _ rel args .text fmt 0 hst

end Rel

end Jos.Printfmt
