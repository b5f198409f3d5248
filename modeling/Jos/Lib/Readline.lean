import Jos.Mmu
import Mathlib.Data.List.Infix
import Mathlib.Logic.Function.Basic

/-!
# Reading a line (`lib/readline.c`)

`readline` collects characters until the end of the line. Backspace and DEL take the last
one back; but a DEL on an empty line is also at least a blank, and is kept.
-/

namespace Jos.Readline

def buflen : Int := 1024

/-- The variables of the loop, and what has been echoed. -/
structure State where
  buf : Int → Byte
  i : Int
  echo : List Byte

/-- `buf` is the buffer of the last line. -/
def State.init (buf : Int → Byte) : State := ⟨buf, 0, []⟩

/-- The C string in the buffer. -/
def cstring (buf : Int → Byte) : List Byte :=
  ((List.range buflen.toNat).map fun j : Nat => buf j).takeWhile (· ≠ 0)

/-- `readline` waits for more characters, or has returned a line or NULL. -/
inductive Progress
  | reading (s : State)
  | returned (line : Option (List Byte))

/-- The body of the loop, with the result `c` of `getchar`. -/
def key (echoing : Bool) (c : Int) (s : State) : Progress :=
  if c < 0 then .returned none
  else if (c = 0x08 ∨ c = 0x7F) ∧ s.i > 0 then
    .reading { s with i := s.i - 1, echo := if echoing then s.echo ++ [0x08] else s.echo }
  else if c ≥ 0x20 ∧ s.i < buflen - 1 then
    let ch := BitVec.ofInt 8 c
    .reading ⟨Function.update s.buf s.i ch, s.i + 1, if echoing then s.echo ++ [ch] else s.echo⟩
  else if c = 0x0A ∨ c = 0x0D then
    .returned (some (cstring (Function.update s.buf s.i 0)))
  else .reading s

/-- `readline`, with the results of `getchar` so far. -/
def readline (echoing : Bool) : List Int → State → Progress
  | [], s => .reading s
  | c :: cs, s =>
      match key echoing c s with
      | .reading s => readline echoing cs s
      | .returned line => .returned line

/-! ### Lines -/

/-- A character edits the line. -/
def edit (line : List Byte) (c : Byte) : List Byte :=
  if c = 0x08 ∨ c = 0x7F then line.dropLast
  else if 0x20 ≤ c ∧ line.length < 1023 then line ++ [c]
  else line

/-- The line after some characters. -/
def edited (cs : List Byte) : List Byte := cs.foldl edit []

/-- What the buffer holds. -/
def State.line (s : State) : List Byte := (List.range s.i.toNat).map fun j : Nat => s.buf j

/-- The characters as `getchar` returns them. -/
def chars (cs : List Byte) : List Int := cs.map fun c => (c.toNat : Int)

/-- Line editing: the buffer always holds the edited line, which is returned at its end. -/
def Edits (echoing : Bool) (buf : Int → Byte) (cs : List Byte) (nl : Byte) : Prop :=
  (∀ pre, pre <+: cs → ∃ s, readline echoing (chars pre) (State.init buf) = .reading s ∧
    0 ≤ s.i ∧ s.i ≤ buflen - 1 ∧ s.line = edited pre) ∧
  readline echoing (chars (cs ++ [nl])) (State.init buf) = .returned (some (edited cs)) ∧
  ∀ c ∈ edited cs, c ≠ 0x08 ∧ c ≠ 0x7F

/-- No DEL comes when the line is empty. -/
def NoStrayDel (cs : List Byte) : Prop := ∀ pre, pre ++ [0x7F] <+: cs → edited pre ≠ []

section Line

variable {echoing : Bool} {buf : Int → Byte} {s : State} {cs : List Byte} {c : Byte}
  {line : List Byte}

theorem readline_append (cs cs' : List Int) : readline echoing (cs ++ cs') s =
    match readline echoing cs s with
    | .reading s => readline echoing cs' s
    | .returned line => .returned line := by
  induction cs generalizing s with
  | nil => rfl
  | cons c cs ih =>
      rw [List.cons_append, readline, readline]
      cases key echoing c s with
      | reading s' => exact ih
      | returned line => rfl

/-- The loop after one more character. -/
theorem readline_snoc {s' : State} (h : readline echoing (chars cs) s = .reading s') (c : Byte) :
    readline echoing (chars (cs ++ [c])) s = key echoing c.toNat s' := by
  rw [chars, List.map_append, readline_append, ← chars, h, List.map_singleton]
  dsimp only
  rw [readline]
  cases key echoing c.toNat s' <;> rfl

theorem edited_snoc (cs : List Byte) (c : Byte) : edited (cs ++ [c]) = edit (edited cs) c := by
  rw [edited, List.foldl_append]
  rfl

theorem edit_length (h : line.length ≤ 1023) (c : Byte) : (edit line c).length ≤ 1023 := by
  rw [edit]
  split
  · rw [List.length_dropLast]
    omega
  · split
    · rename_i hroom
      rw [List.length_append, List.length_singleton]
      exact hroom.2
    · exact h

theorem edit_chars (h : ∀ b ∈ line, b ≠ 0 ∧ b ≠ 0x08 ∧ b ≠ 0x7F) (c : Byte) :
    ∀ b ∈ edit line c, b ≠ 0 ∧ b ≠ 0x08 ∧ b ≠ 0x7F := by
  intro b hb
  rw [edit] at hb
  split at hb
  · exact h b (List.mem_of_mem_dropLast hb)
  · rename_i hc
    split at hb
    · rename_i hroom
      rcases List.mem_append.mp hb with hb | hb
      · exact h b hb
      · obtain rfl := List.mem_singleton.mp hb
        refine ⟨?_, fun heq => hc (.inl heq), fun heq => hc (.inr heq)⟩
        rintro rfl
        exact absurd hroom.1 (by decide)
    · exact h b hb

theorem edited_length (cs : List Byte) : (edited cs).length ≤ 1023 := by
  induction cs using List.reverseRecOn with
  | nil => exact Nat.zero_le _
  | append_singleton cs c ih =>
      rw [edited_snoc]
      exact edit_length ih c

theorem edited_chars (cs : List Byte) : ∀ b ∈ edited cs, b ≠ 0 ∧ b ≠ 0x08 ∧ b ≠ 0x7F := by
  induction cs using List.reverseRecOn with
  | nil => exact fun b hb => nomatch hb
  | append_singleton cs c ih =>
      rw [edited_snoc]
      exact edit_chars ih c

/-- The buffer holds the line. -/
structure State.Holds (s : State) (line : List Byte) : Prop where
  i : s.i = line.length
  line : s.line = line

theorem State.Holds.intro (hi : s.i = line.length)
    (cells : ∀ (j : Nat) (hj : j < line.length), s.buf j = (line)[j]) : s.Holds line := by
  refine ⟨hi, List.ext_getElem ?_ fun j _ hj => ?_⟩
  · rw [State.line, List.length_map, List.length_range, hi, Int.toNat_natCast]
  · simp only [State.line, List.getElem_map, List.getElem_range]
    exact cells j hj

theorem State.Holds.cell (h : s.Holds line) {j : Nat} (hj : j < line.length) :
    s.buf j = (line)[j] := by
  have hget := List.getElem_of_eq h.line.symm hj
  simp only [State.line, List.getElem_map, List.getElem_range] at hget
  exact hget.symm

/-- A character that is not the end of the line edits the buffer as it edits the line, unless
it is a DEL on the empty line. -/
theorem key_edit (echoing : Bool) (h : s.Holds line) (hlen : line.length ≤ 1023)
    (hnl : c ≠ 0x0A ∧ c ≠ 0x0D)
    (hdel : c = 0x7F → line ≠ []) : ∃ s', key echoing c.toNat s = .reading s' ∧
      s'.Holds (edit line c) := by
  have hval : ∀ b : Byte, ((c.toNat : Int) = b.toNat ↔ c = b) := by
    intro b
    rw [Int.natCast_inj, BitVec.toNat_inj]
  have hbuflen : buflen = 1024 := rfl
  have hi := h.i
  have hneg : ¬ ((c.toNat : Int) < 0) := by omega
  have hback : ((c.toNat : Int) = 0x08 ∨ (c.toNat : Int) = 0x7F) ↔ c = 0x08 ∨ c = 0x7F :=
    or_congr (hval 0x08) (hval 0x7F)
  have hend : ¬ ((c.toNat : Int) = 0x0A ∨ (c.toNat : Int) = 0x0D) := fun hor =>
    hor.elim (fun heq => hnl.1 ((hval 0x0A).mp heq)) fun heq => hnl.2 ((hval 0x0D).mp heq)
  have hblank : (c.toNat : Int) ≥ 0x20 ↔ 0x20 ≤ c := by
    rw [BitVec.le_def, show (0x20 : Byte).toNat = 32 from rfl]
    omega
  rw [key, if_neg hneg, edit]
  by_cases hc : c = 0x08 ∨ c = 0x7F
  · rw [if_pos hc]
    by_cases hempty : line = []
    · -- a backspace on the empty line
      obtain rfl : c = 0x08 := hc.resolve_right fun hc' => hdel hc' hempty
      rw [if_neg (by rintro ⟨-, hpos⟩; rw [hi, hempty, List.length_nil] at hpos; omega),
        if_neg (by rintro ⟨hge, -⟩; exact absurd (hblank.mp hge) (by decide)), if_neg hend]
      refine ⟨s, rfl, ?_⟩
      rwa [hempty, List.dropLast_nil, ← hempty]
    · have hpos := List.length_pos_of_ne_nil hempty
      rw [if_pos ⟨hback.mpr hc, by omega⟩]
      refine ⟨_, rfl, .intro ?_ fun j hj => ?_⟩
      · rw [List.length_dropLast]
        dsimp only
        omega
      · rw [List.length_dropLast] at hj
        rw [List.getElem_dropLast]
        exact h.cell (by omega)
  · rw [if_neg hc, if_neg (fun hand => hc (hback.mp hand.1))]
    by_cases hroom : 0x20 ≤ c ∧ line.length < 1023
    · rw [if_pos hroom, if_pos ⟨hblank.mpr hroom.1, by omega⟩]
      refine ⟨_, rfl, .intro ?_ fun j hj => ?_⟩
      · rw [List.length_append, List.length_singleton, hi]
        rfl
      · rw [List.length_append, List.length_singleton] at hj
        dsimp only
        by_cases hlast : j = line.length
        · subst hlast
          rw [hi, Function.update_self, List.getElem_concat_length rfl, BitVec.ofInt_natCast,
            BitVec.ofNat_toNat, BitVec.setWidth_eq]
        · rw [Function.update_of_ne (by omega), List.getElem_append_left (by omega)]
          exact h.cell (by omega)
    · rw [if_neg hroom, if_neg (fun hand => hroom ⟨hblank.mp hand.1, by omega⟩), if_neg hend]
      exact ⟨s, rfl, h⟩

/-- A DEL on the empty line is kept. -/
theorem key_stray (echoing : Bool) (h : s.Holds []) :
    ∃ s', key echoing 0x7F s = .reading s' ∧ s'.i = 1 := by
  have hi : s.i = 0 := h.i
  rw [key, if_neg (by decide), if_neg (by rintro ⟨-, hpos⟩; omega),
    if_pos ⟨by decide, by rw [hi]; decide⟩]
  exact ⟨_, rfl, by rw [hi]; rfl⟩

theorem cstring_eq {buf : Int → Byte} (hlen : line.length ≤ 1023)
    (cells : ∀ (j : Nat) (hj : j < line.length), buf j = (line)[j]) (nul : buf line.length = 0)
    (hne : ∀ b ∈ line, b ≠ 0) : cstring buf = line := by
  obtain ⟨n, hn⟩ : ∃ n, buflen.toNat = line.length + (n + 1) :=
    ⟨1023 - line.length, by rw [show buflen.toNat = 1024 from rfl]; omega⟩
  have hline : (List.range line.length).map (fun j : Nat => buf j) = line := by
    refine List.ext_getElem (by simp) fun j _ hj => ?_
    rw [List.getElem_map, List.getElem_range]
    exact cells j hj
  rw [cstring, hn, List.range_add, List.map_append, hline,
    List.takeWhile_append_of_pos (by simpa using hne), List.range_succ_eq_map, List.map_cons,
    List.map_cons, List.takeWhile_cons_of_neg (by simpa using nul), List.append_nil]

/-- The end of the line returns what the buffer holds. -/
theorem key_end (h : s.Holds line) (hlen : line.length ≤ 1023) (hne : ∀ b ∈ line, b ≠ 0)
    (hnl : c = 0x0A ∨ c = 0x0D) : key echoing c.toNat s = .returned (some line) := by
  have hi := h.i
  have hstring : cstring (Function.update s.buf s.i 0) = line := by
    refine cstring_eq hlen (fun j hj => ?_) (by rw [hi, Function.update_self]) hne
    rw [Function.update_of_ne (by omega)]
    exact h.cell hj
  have hneg : ¬ ((c.toNat : Int) < 0) := by omega
  rw [key, if_neg hneg]
  rcases hnl with rfl | rfl
  all_goals
    rw [if_neg (by rintro ⟨hor, -⟩; exact absurd hor (by decide)),
      if_neg (by rintro ⟨hge, -⟩; exact absurd hge (by decide)), if_pos (by decide), hstring]

/-- Without a stray DEL the buffer holds the edited line. -/
theorem readline_holds (echoing : Bool) (buf : Int → Byte) (hcs : ∀ c ∈ cs, c ≠ 0x0A ∧ c ≠ 0x0D)
    (nodel : NoStrayDel cs) : ∃ s, readline echoing (chars cs) (State.init buf) = .reading s ∧
      s.Holds (edited cs) := by
  induction cs using List.reverseRecOn with
  | nil => exact ⟨State.init buf, rfl, rfl, rfl⟩
  | append_singleton cs c ih =>
      obtain ⟨s, hrun, hs⟩ := ih (fun c hc => hcs c (List.mem_append_left _ hc)) fun pre hpre =>
        nodel pre (hpre.trans (List.prefix_append cs [c]))
      obtain ⟨s', hkey, hs'⟩ := key_edit echoing hs (edited_length cs)
        (hcs c (by simp)) (by rintro rfl; exact nodel cs (List.prefix_refl _))
      refine ⟨s', ?_, by rwa [edited_snoc]⟩
      rw [readline_snoc hrun, hkey]

/-- `readline` edits lines exactly if no DEL comes when the line is empty. -/
theorem readline_edits_iff (echoing : Bool) (buf : Int → Byte) {nl : Byte}
    (hcs : ∀ c ∈ cs, c ≠ 0x0A ∧ c ≠ 0x0D) (hnl : nl = 0x0A ∨ nl = 0x0D) :
    Edits echoing buf cs nl ↔ NoStrayDel cs := by
  constructor
  · rintro ⟨hheld, -⟩ pre hpre hempty
    obtain ⟨s, hrun, hlo, hhi, hline⟩ := hheld pre ((List.prefix_append pre [0x7F]).trans hpre)
    obtain ⟨s', hrun', -, -, hline'⟩ := hheld _ hpre
    have hi : s.i = 0 := by
      have hlen := congrArg List.length hline
      rw [hempty, State.line, List.length_map, List.length_range, List.length_nil] at hlen
      omega
    obtain ⟨t, hkey, ht⟩ := key_stray echoing ⟨hi, by rw [hline, hempty]⟩
    rw [readline_snoc hrun] at hrun'
    obtain rfl : t = s' := Progress.reading.inj (hkey.symm.trans hrun')
    have hlen := congrArg List.length hline'
    rw [edited_snoc, hempty, State.line, List.length_map, List.length_range, ht] at hlen
    exact absurd hlen (by decide)
  · intro nodel
    refine ⟨fun pre hpre => ?_, ?_, fun c hc => (edited_chars cs c hc).2⟩
    · obtain ⟨s, hrun, hs⟩ := readline_holds echoing buf
        (fun c hc => hcs c (hpre.subset hc)) fun pre' hpre' => nodel pre' (hpre'.trans hpre)
      have hlen := edited_length pre
      have hi := hs.i
      exact ⟨s, hrun, by omega, by rw [hi, buflen]; omega, hs.line⟩
    · obtain ⟨s, hrun, hs⟩ := readline_holds echoing buf hcs nodel
      rw [readline_snoc hrun]
      exact key_end hs (edited_length cs) (fun b hb => (edited_chars cs b hb).1) hnl

/-- `ab`, a backspace, `c`. -/
theorem readline_edits_iff_typed : Edits true (fun _ => 0) [0x61, 0x62, 0x08, 0x63] 0x0A := by
  refine (readline_edits_iff true (fun _ => 0) (by decide) (.inl rfl)).mpr fun pre hpre => ?_
  have hmem : (0x7F : Byte) ∈ [0x61, 0x62, 0x08, 0x63] := hpre.subset (by simp)
  exact absurd hmem (by decide)

/-- DEL and newline: the line is not empty but a DEL. -/
theorem readline_keeps_del : readline true (chars [0x7F, 0x0A]) (State.init fun _ => 0) =
      .returned (some [0x7F]) ∧ ¬ Edits true (fun _ => 0) [0x7F] 0x0A := by
  have hrun : readline true (chars [0x7F, 0x0A]) (State.init fun _ => 0) =
      .returned (some [0x7F]) := by
    have hstring :
        cstring (Function.update (Function.update (fun _ => 0) 0 0x7F) 1 0) = [0x7F] := by
      refine cstring_eq (by decide) (fun j hj => ?_) rfl (by decide)
      obtain rfl : j = 0 := Nat.lt_one_iff.mp hj
      rfl
    exact congrArg (fun line => Progress.returned (some line)) hstring
  refine ⟨hrun, fun h => ?_⟩
  have hreturned := hrun.symm.trans h.2.1
  exact absurd hreturned (by rw [Progress.returned.injEq, Option.some.injEq]; decide)

end Line

end Jos.Readline
