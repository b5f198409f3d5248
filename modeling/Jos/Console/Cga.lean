import Jos.Mmu
import Mathlib.Logic.Function.Basic

/-!
# Console output (`kern/console.c`)

`cga_putc` writes a character at the cursor, moves the cursor, and scrolls the screen by one
row when the cursor has left it. A tab calls `cons_putc` for five blanks, which come back to
`cga_putc`.
-/

namespace Jos.Console

def crtRows : Nat := 25

def crtCols : Nat := 80

def crtSize : Nat := crtRows * crtCols

/-- The output devices. The cells are a character and its attributes; `stores` are the
indices in `crt_buf` that have been stored to. -/
structure Output where
  crtBuf : Nat → BitVec 16
  crtPos : BitVec 16
  stores : List Nat
  cursor : BitVec 16
  serial : List Byte
  lpt : List Byte

/-- `crt_buf[i] = cell`. -/
def Output.store (i : Nat) (cell : BitVec 16) (o : Output) : Output :=
  { o with crtBuf := Function.update o.crtBuf i cell, stores := i :: o.stores }

def serialPutc (c : Word) (o : Output) : Output :=
  { o with serial := o.serial ++ [c.setWidth 8] }

def lptPutc (c : Word) (o : Output) : Output :=
  { o with lpt := o.lpt ++ [c.setWidth 8] }

/-- Black on white, if no attribute is given. -/
def withAttribute (c : Word) : Word := if c &&& ~~~0xFF = 0 then c ||| 0x0700 else c

/-- `crt_pos -= crt_pos % CRT_COLS`. -/
def carriageReturn (o : Output) : Output := { o with crtPos := o.crtPos - o.crtPos % 80 }

/-- The `switch` of `cga_putc`, where `blank` is `cons_putc(' ')`. -/
def cgaSwitch (blank : Output → Output) (c : Word) (o : Output) : Output :=
  if c &&& 0xFF = 0x08 then
    if o.crtPos > 0 then
      let crtPos := o.crtPos - 1
      { o with crtPos := crtPos }.store crtPos.toNat ((c &&& ~~~0xFF ||| 0x20).setWidth 16)
    else o
  else if c &&& 0xFF = 0x0A then carriageReturn { o with crtPos := o.crtPos + 80 }
  else if c &&& 0xFF = 0x0D then carriageReturn o
  else if c &&& 0xFF = 0x09 then blank (blank (blank (blank (blank o))))
  else { o with crtPos := o.crtPos + 1 }.store o.crtPos.toNat (c.setWidth 16)

/-- The `memmove` of the rows: `n` cells from `i` on, upwards. -/
def copyUp : Nat → Nat → Output → Output
  | 0, _, o => o
  | n + 1, i, o => copyUp n (i + 1) (o.store i (o.crtBuf (i + crtCols)))

/-- `n` blanks from `i` on. -/
def clear : Nat → Nat → Output → Output
  | 0, _, o => o
  | n + 1, i, o => clear n (i + 1) (o.store i 0x0720)

/-- Scrolling, when the cursor is behind the last cell. -/
def scroll (o : Output) : Output :=
  if crtSize ≤ o.crtPos.toNat then
    let o := clear crtCols (crtSize - crtCols) (copyUp (crtSize - crtCols) 0 o)
    { o with crtPos := o.crtPos - 80 }
  else o

/-- The four `outb`. -/
def moveCursor (o : Output) : Output := { o with cursor := o.crtPos }

def cgaPutcWith (blank : Output → Output) (c : Word) (o : Output) : Output :=
  moveCursor (scroll (cgaSwitch blank (withAttribute c) o))

/-- `cons_putc(' ')`. A blank is no tab, so the recursion ends here. -/
def consBlank (o : Output) : Output := cgaPutcWith id 0x20 (lptPutc 0x20 (serialPutc 0x20 o))

def cgaPutc (c : Word) (o : Output) : Output := cgaPutcWith consBlank c o

def consPutc (c : Word) (o : Output) : Output := cgaPutc c (lptPutc c (serialPutc c o))

theorem cgaSwitch_congr {blank blank' : Output → Output} {c : Word} (hc : c &&& 0xFF ≠ 0x09)
    (o : Output) : cgaSwitch blank c o = cgaSwitch blank' c o := by
  rw [cgaSwitch, cgaSwitch, if_neg hc, if_neg hc]

theorem consBlank_eq : consBlank = consPutc 0x20 := by
  funext o
  have hblank : withAttribute 0x20 &&& 0xFF ≠ 0x09 := by decide
  rw [consBlank, consPutc, cgaPutc, cgaPutcWith, cgaPutcWith, cgaSwitch_congr hblank]

/-- `cga_putc` as it is in the source. -/
theorem cgaPutc_eq (c : Word) (o : Output) : cgaPutc c o = cgaPutcWith (consPutc 0x20) c o := by
  rw [cgaPutc, consBlank_eq]

/-- From `m` to `o` the rows have moved up by one, the last one is blank, and the cursor is on
the same character. -/
structure Scrolled (m o : Output) : Prop where
  rows : ∀ i < crtSize - crtCols, o.crtBuf i = m.crtBuf (i + crtCols)
  blank : ∀ i, crtSize - crtCols ≤ i → i < crtSize → o.crtBuf i = 0x0720
  cursor : o.crtPos.toNat + crtCols = m.crtPos.toNat

/-- From `o` to `o'` only cells of the screen have been stored to. -/
def Stored (o o' : Output) : Prop := ∃ new, o'.stores = new ++ o.stores ∧ ∀ i ∈ new, i < crtSize

section Screen

variable {o o' o'' m : Output} {n i : Nat}

theorem Stored.refl (o : Output) : Stored o o := ⟨[], rfl, fun _ h => nomatch h⟩

theorem Stored.trans (h : Stored o o') (h' : Stored o' o'') : Stored o o'' := by
  obtain ⟨new, hnew, hlt⟩ := h
  obtain ⟨new', hnew', hlt'⟩ := h'
  refine ⟨new' ++ new, by rw [hnew', hnew, List.append_assoc], fun i hi => ?_⟩
  exact (List.mem_append.mp hi).elim (hlt' i) (hlt i)

theorem Stored.store (hi : i < crtSize) (cell : BitVec 16) (o : Output) :
    Stored o (o.store i cell) :=
  ⟨[i], rfl, fun j hj => by rwa [List.mem_singleton.mp hj]⟩

/-- The rows move up. The cells that are read are above those that have been stored to. -/
theorem copyUp_spec (hn : i + n ≤ crtSize) :
    Stored o (copyUp n i o) ∧ (copyUp n i o).crtPos = o.crtPos ∧
      (∀ j, i ≤ j → j < i + n → (copyUp n i o).crtBuf j = o.crtBuf (j + crtCols)) ∧
      ∀ j, (j < i ∨ i + n ≤ j) → (copyUp n i o).crtBuf j = o.crtBuf j := by
  induction n generalizing i o with
  | zero => exact ⟨.refl o, rfl, fun j _ _ => by omega, fun _ _ => rfl⟩
  | succ n ih =>
      have hcols : crtCols = 80 := rfl
      obtain ⟨hstored, hpos, hrows, hrest⟩ :=
        @ih (o.store i (o.crtBuf (i + crtCols))) (i + 1) (by omega)
      have hother : ∀ j, j ≠ i → (o.store i (o.crtBuf (i + crtCols))).crtBuf j = o.crtBuf j :=
        fun j hj => Function.update_of_ne hj _ _
      refine ⟨(Stored.store (by omega) _ o).trans hstored, hpos, fun j hij hj => ?_, fun j hj => ?_⟩
      · rw [copyUp]
        by_cases hfirst : j = i
        · subst hfirst
          rw [hrest j (.inl (Nat.lt_succ_self j)), Output.store]
          exact Function.update_self _ _ _
        · rw [hrows j (by omega) (by omega), hother _ (by omega)]
      · rw [copyUp, hrest j (by omega), hother j (by omega)]

theorem clear_spec (hn : i + n ≤ crtSize) :
    Stored o (clear n i o) ∧ (clear n i o).crtPos = o.crtPos ∧
      (∀ j, i ≤ j → j < i + n → (clear n i o).crtBuf j = 0x0720) ∧
      ∀ j, (j < i ∨ i + n ≤ j) → (clear n i o).crtBuf j = o.crtBuf j := by
  induction n generalizing i o with
  | zero => exact ⟨.refl o, rfl, fun j _ _ => by omega, fun _ _ => rfl⟩
  | succ n ih =>
      obtain ⟨hstored, hpos, hblank, hrest⟩ := @ih (o.store i 0x0720) (i + 1) (by omega)
      refine ⟨(Stored.store (by omega) _ o).trans hstored, hpos, fun j hij hj => ?_, fun j hj => ?_⟩
      · rw [clear]
        by_cases hfirst : j = i
        · subst hfirst
          rw [hrest j (.inl (Nat.lt_succ_self j)), Output.store]
          exact Function.update_self _ _ _
        · exact hblank j (by omega) (by omega)
      · rw [clear, hrest j (by omega)]
        exact Function.update_of_ne (by omega) _ _

/-- The cursor is at most one row behind the screen, and then the screen scrolls. -/
theorem scroll_spec (hpos : m.crtPos.toNat < crtSize + crtCols) :
    (scroll m).crtPos.toNat < crtSize ∧ Stored m (scroll m) ∧
      (m.crtPos.toNat < crtSize → scroll m = m) ∧
      (crtSize ≤ m.crtPos.toNat → Scrolled m (scroll m)) := by
  have hsize : crtSize = 2000 := rfl
  have hcols : crtCols = 80 := rfl
  by_cases hlast : crtSize ≤ m.crtPos.toNat
  · obtain ⟨hstored, hpos₁, hrows, -⟩ :=
      @copyUp_spec m (crtSize - crtCols) 0 (by omega)
    obtain ⟨hstored', hpos₂, hblank, hrest⟩ :=
      @clear_spec (copyUp (crtSize - crtCols) 0 m) crtCols (crtSize - crtCols) (by omega)
    have hcursor : (m.crtPos - 80).toNat + crtCols = m.crtPos.toNat := by
      have hle : (80 : BitVec 16) ≤ m.crtPos := by
        rw [BitVec.le_def, show (80 : BitVec 16).toNat = 80 from rfl]
        omega
      rw [BitVec.toNat_sub_of_le hle]
      exact Nat.sub_add_cancel (BitVec.le_def.mp hle)
    rw [scroll, if_pos hlast]
    dsimp only
    generalize clear crtCols (crtSize - crtCols) (copyUp (crtSize - crtCols) 0 m) = cleared at *
    generalize copyUp (crtSize - crtCols) 0 m = copied at *
    rw [hpos₂, hpos₁]
    refine ⟨by omega, hstored.trans hstored', fun hlt => by omega, fun _ => ⟨fun i hi => ?_,
      fun i hlo hhi => ?_, ?_⟩⟩
    · dsimp only
      rw [hrest i (.inl hi), hrows i (Nat.zero_le i) (by omega)]
    · exact hblank i hlo (by omega)
    · exact hcursor
  · rw [scroll, if_neg hlast]
    exact ⟨by omega, .refl m, fun _ => rfl, fun h => absurd h hlast⟩

theorem carriageReturn_spec (o : Output) :
    (carriageReturn o).crtPos.toNat = o.crtPos.toNat / crtCols * crtCols ∧
      (carriageReturn o).stores = o.stores := by
  have hmod : (o.crtPos % 80).toNat = o.crtPos.toNat % 80 := BitVec.toNat_umod
  have hle : o.crtPos % 80 ≤ o.crtPos := by
    rw [BitVec.le_def, hmod]
    exact Nat.mod_le _ _
  refine ⟨?_, rfl⟩
  rw [carriageReturn, BitVec.toNat_sub_of_le hle, hmod, show crtCols = 80 from rfl]
  omega

variable {blank : Output → Output} {c : Word}

/-- What the calls do that print the blanks of a tab. -/
def Keeps (f : Output → Output) : Prop :=
  ∀ o, o.crtPos.toNat < crtSize → (f o).crtPos.toNat < crtSize ∧ Stored o (f o)

theorem Keeps.comp {f g : Output → Output} (hf : Keeps f) (hg : Keeps g) : Keeps (g ∘ f) := by
  intro o ho
  obtain ⟨hlt, hstored⟩ := hf o ho
  obtain ⟨hlt', hstored'⟩ := hg (f o) hlt
  exact ⟨hlt', hstored.trans hstored'⟩

/-- Before the test for scrolling the cursor is at most one row behind the screen. -/
theorem cgaSwitch_spec (hblank : c &&& 0xFF = 0x09 → Keeps blank) (ho : o.crtPos.toNat < crtSize) :
    (cgaSwitch blank c o).crtPos.toNat < crtSize + crtCols ∧ Stored o (cgaSwitch blank c o) := by
  have hsize : crtSize = 2000 := rfl
  have hcols : crtCols = 80 := rfl
  rw [cgaSwitch]
  split
  · -- '\b'
    split
    · rename_i hpos
      have hlt : (o.crtPos - 1).toNat < crtSize := by
        have hle : (1 : BitVec 16) ≤ o.crtPos := hpos
        rw [BitVec.toNat_sub_of_le hle]
        exact Nat.lt_of_le_of_lt (Nat.sub_le _ _) ho
      exact ⟨Nat.lt_add_right _ hlt, .store hlt _ _⟩
    · exact ⟨Nat.lt_add_right _ ho, .refl o⟩
  · split
    · -- '\n'
      obtain ⟨hpos, hstores⟩ := carriageReturn_spec { o with crtPos := o.crtPos + 80 }
      have hadd : (o.crtPos + 80).toNat = o.crtPos.toNat + 80 := by
        rw [BitVec.toNat_add, show (80 : BitVec 16).toNat = 80 from rfl]
        omega
      dsimp only at hpos hstores
      rw [hadd] at hpos
      have hle := Nat.div_mul_le_self (o.crtPos.toNat + 80) crtCols
      exact ⟨by omega, ⟨[], hstores, fun _ h => nomatch h⟩⟩
    · split
      · -- '\r'
        obtain ⟨hpos, hstores⟩ := carriageReturn_spec o
        have hle := Nat.div_mul_le_self o.crtPos.toNat crtCols
        exact ⟨by omega, ⟨[], hstores, fun _ h => nomatch h⟩⟩
      · split
        · -- '\t'
          rename_i hc
          have hkeep := hblank hc
          obtain ⟨hlt, hstored⟩ := ((((hkeep.comp hkeep).comp hkeep).comp hkeep).comp hkeep) o ho
          exact ⟨Nat.lt_add_right _ hlt, hstored⟩
        · have hadd : (o.crtPos + 1).toNat = o.crtPos.toNat + 1 := by
            rw [BitVec.toNat_add, show (1 : BitVec 16).toNat = 1 from rfl]
            omega
          refine ⟨?_, .store ho _ _⟩
          change (o.crtPos + 1).toNat < _
          omega

theorem withAttribute_low (c : Word) : withAttribute c &&& 0xFF = c &&& 0xFF := by
  rw [withAttribute]
  split
  · rw [BitVec.and_comm, BitVec.and_or_distrib_left, BitVec.and_comm]
    exact BitVec.or_zero
  · rfl

/-- One call, between the screen with the character on it and the result. -/
theorem cgaPutcWith_spec (hblank : c &&& 0xFF = 0x09 → Keeps blank)
    (ho : o.crtPos.toNat < crtSize) :
    let m := cgaSwitch blank (withAttribute c) o
    (cgaPutcWith blank c o).crtPos.toNat < crtSize ∧ Stored o (cgaPutcWith blank c o) ∧
      (m.crtPos.toNat < crtSize →
        (cgaPutcWith blank c o).crtBuf = m.crtBuf ∧ (cgaPutcWith blank c o).crtPos = m.crtPos) ∧
      (crtSize ≤ m.crtPos.toNat → Scrolled m (cgaPutcWith blank c o)) := by
  intro m
  have hblank' : withAttribute c &&& 0xFF = 0x09 → Keeps blank := by rwa [withAttribute_low]
  obtain ⟨hlt, hstored⟩ := cgaSwitch_spec hblank' ho
  obtain ⟨hpos, hstored', hsame, hscroll⟩ := scroll_spec hlt
  refine ⟨hpos, hstored.trans hstored', fun h => ?_, fun h => ?_⟩
  · rw [cgaPutcWith, hsame h]
    exact ⟨rfl, rfl⟩
  · obtain ⟨hrows, hlast, hcursor⟩ := hscroll h
    exact ⟨hrows, hlast, hcursor⟩

theorem keeps_consBlank : Keeps consBlank := by
  intro o ho
  have htab : (0x20 : Word) &&& 0xFF ≠ 0x09 := by decide
  obtain ⟨hlt, hstored, -⟩ :=
    @cgaPutcWith_spec (lptPutc 0x20 (serialPutc 0x20 o)) id 0x20 (fun h => absurd h htab) ho
  exact ⟨hlt, hstored⟩

theorem keeps_cgaPutc (c : Word) : Keeps (cgaPutc c) := by
  intro o ho
  obtain ⟨hlt, hstored, -⟩ := cgaPutcWith_spec (fun _ : c &&& 0xFF = 0x09 => keeps_consBlank) ho
  exact ⟨hlt, hstored⟩

/-- The screen after some characters. -/
def cgaPutcs (cs : List Word) (o : Output) : Output := cs.foldl (fun o c => cgaPutc c o) o

theorem keeps_cgaPutcs (cs : List Word) : Keeps (cgaPutcs cs) := by
  induction cs with
  | nil => exact fun o ho => ⟨ho, .refl o⟩
  | cons c cs ih => exact (keeps_cgaPutc c).comp ih

/-- Output stays on the screen. After any characters the cursor is on it and only its cells have
been stored to; and when the next character brings the cursor behind the last cell, the screen
scrolls by one row. -/
theorem cga_on_screen (ho : o.crtPos.toNat < crtSize) (cs : List Word) :
    (cgaPutcs cs o).crtPos.toNat < crtSize ∧ Stored o (cgaPutcs cs o) ∧
      ∀ c, let m := cgaSwitch (consPutc 0x20) (withAttribute c) (cgaPutcs cs o)
        (m.crtPos.toNat < crtSize → (cgaPutc c (cgaPutcs cs o)).crtBuf = m.crtBuf ∧
          (cgaPutc c (cgaPutcs cs o)).crtPos = m.crtPos) ∧
        (crtSize ≤ m.crtPos.toNat → Scrolled m (cgaPutc c (cgaPutcs cs o))) := by
  obtain ⟨hlt, hstored⟩ := keeps_cgaPutcs cs o ho
  refine ⟨hlt, hstored, fun c => ?_⟩
  obtain ⟨-, -, hsame, hscroll⟩ :=
    cgaPutcWith_spec (fun _ : c &&& 0xFF = 0x09 => keeps_consBlank) hlt
  rw [consBlank_eq] at hsame hscroll
  rw [cgaPutc_eq]
  exact ⟨hsame, hscroll⟩

/-- A screen with the cursor on the last cell. -/
def lastCell : Output := ⟨fun _ => 0x0720, 1999, [], 1999, [], []⟩

/-- A letter in the last cell: the screen scrolls, and the letter is in the row above. -/
theorem cga_on_screen_last :
    (cgaPutc 0x41 lastCell).crtPos = 1920 ∧ (cgaPutc 0x41 lastCell).crtBuf 1919 = 0x0741 := by
  obtain ⟨-, -, h⟩ := @cga_on_screen lastCell (by decide) []
  obtain ⟨hrows, -, hcursor⟩ := (h 0x41).2 (by decide)
  have hnil : cgaPutcs [] lastCell = lastCell := rfl
  rw [hnil] at hrows hcursor
  have hbehind : (cgaSwitch (consPutc 0x20) (withAttribute 0x41) lastCell).crtPos.toNat =
      1920 + crtCols := by decide
  refine ⟨BitVec.eq_of_toNat_eq (Nat.add_right_cancel (hcursor.trans hbehind)), ?_⟩
  rw [hrows 1919 (by decide)]
  decide

end Screen

end Jos.Console
