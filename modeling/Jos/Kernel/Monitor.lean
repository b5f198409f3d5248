import Jos.Base.Runs
import Jos.Mmu

/-!
# Commands of the monitor (`kern/monitor.c`)

A `char *` into the command buffer is an offset. What is not in the buffer must not be read or
written, and `argv` has `MAXARGS` elements: anything else gives `none`.
-/

namespace Jos.Monitor

/-- `WHITESPACE`. -/
def whitespace : List Byte := [0x09, 0x0D, 0x0A, 0x20]

def maxargs : Nat := 16

/-- `strchr`, for a string without its NUL. The result is an offset. -/
def strchr : List Byte → Byte → Option Nat
  | [], _ => none
  | ch :: s, c => if ch = c then some 0 else (strchr s c).map (· + 1)

/-- `*buf = 0`. -/
def clear (mem : List Byte) (buf : Nat) : Option (List Byte) :=
  if buf < mem.length then some (mem.set buf 0) else none

/-- `while (*buf && strchr(WHITESPACE, *buf)) *buf++ = 0`. A run of less than `n` rounds. -/
def gobble : Nat → List Byte → Nat → Option (List Byte × Nat)
  | 0, _, _ => none
  | n + 1, mem, buf => do
      let c ← mem[buf]?
      if c ≠ 0 ∧ (strchr whitespace c).isSome then do
        let mem ← clear mem buf
        gobble n mem (buf + 1)
      else some (mem, buf)

/-- `while (*buf && !strchr(WHITESPACE, *buf)) buf++`. A run of less than `n` rounds. -/
def scanPast : Nat → List Byte → Nat → Option Nat
  | 0, _, _ => none
  | n + 1, mem, buf => do
      let c ← mem[buf]?
      if c ≠ 0 ∧ (strchr whitespace c).isNone then scanPast n mem (buf + 1) else some buf

/-- `argv`. A null pointer is `none`. -/
abbrev Argv := Nat → Option Nat

/-- `argv[argc] = p`. -/
def setArg (argv : Argv) (argc : Nat) (p : Option Nat) : Option Argv :=
  if argc < maxargs then some (Function.update argv argc p) else none

/-- What the parser leaves. -/
structure Args where
  mem : List Byte
  argc : Nat
  argv : Argv

/-- The parser's loop, for at most `n` rounds. The result is `none` for too many arguments. The
loops inside make at most one round for each byte. -/
def parseLoop : Nat → List Byte → Nat → Nat → Argv → Option (Option Args)
  | 0, _, _, _, _ => none
  | n + 1, mem, buf, argc, argv => do
      let (mem, buf) ← gobble (mem.length + 1) mem buf
      let c ← mem[buf]?
      if c = 0 then do
        let argv ← setArg argv argc none
        some (some ⟨mem, argc, argv⟩)
      else if argc = maxargs - 1 then some none
      else do
        let argv ← setArg argv argc (some buf)
        let buf ← scanPast (mem.length + 1) mem buf
        parseLoop n mem buf (argc + 1) argv

/-- The part of `runcmd` that parses. Each round but the last one takes an argument. -/
def parse (mem : List Byte) (argv : Argv) : Option (Option Args) := do
  let argv ← setArg argv 0 none
  parseLoop maxargs mem 0 0 argv

/-- What `commands` points to. -/
inductive Command
  | help
  | kerninfo
  | backtrace
  deriving DecidableEq

/-- `commands[i].name`. -/
def Command.name : Command → List Byte
  | help => [0x68, 0x65, 0x6C, 0x70]
  | kerninfo => [0x6B, 0x65, 0x72, 0x6E, 0x69, 0x6E, 0x66, 0x6F]
  | backtrace => [0x62, 0x61, 0x63, 0x6B, 0x74, 0x72, 0x61, 0x63, 0x65]

def commands : List Command := [.help, .kerninfo, .backtrace]

/-- `strcmp`, for a second string without its NUL. -/
def strcmp (mem : List Byte) : Nat → List Byte → Option Int
  | p, [] => do
      let c ← mem[p]?
      some c.toNat
  | p, q :: qs => do
      let c ← mem[p]?
      if c ≠ 0 ∧ c = q then strcmp mem (p + 1) qs else some ((c.toNat : Int) - q.toNat)

/-- The first command whose name is the string at `p`. -/
def lookup (mem : List Byte) (p : Nat) : List Command → Option (Option Command)
  | [] => some none
  | c :: cs => do
      let r ← strcmp mem p c.name
      if r = 0 then some (some c) else lookup mem p cs

/-- What `runcmd` does. -/
inductive Outcome
  /-- `Too many arguments (max 16)` is printed. -/
  | tooMany
  | nothing
  | invoke (command : Command) (args : Args)
  /-- `Unknown command '%s'` is printed, with `argv[0]`. -/
  | unknown (args : Args)

/-- `runcmd`. The elements of `argv` are not initialized. -/
def runcmd (mem : List Byte) (argv : Argv) : Option Outcome := do
  match ← parse mem argv with
  | none => some .tooMany
  | some args =>
      if args.argc = 0 then some .nothing
      else do
        let p ← args.argv 0
        match ← lookup args.mem p commands with
        | some command => some (.invoke command args)
        | none => some (.unknown args)

/-! ### The parser -/

variable {text mem : List Byte} {argv : Argv} {runs : List (Nat × Nat)} {i j k n : Nat} {c : Byte}

/-- The position of a blank. -/
def Blank (text : List Byte) (k : Nat) : Prop := ∃ c, text[k]? = some c ∧ c ∈ whitespace

/-- The characters of a run. -/
def word (text : List Byte) (run : Nat × Nat) : List Byte := (text.drop run.1).take (run.2 - run.1)

/-- The arguments are the runs: each begins in the buffer where the run does, and ends with a NUL
where the run does. -/
structure Tokenised (text : List Byte) (runs : List (Nat × Nat)) (args : Args) : Prop where
  argc : args.argc = runs.length
  argv : ∀ k run, runs[k]? = some run → args.argv k = some run.1
  last : args.argv args.argc = none
  chars : ∀ run ∈ runs, ∀ k, run.1 ≤ k → k < run.2 → args.mem[k]? = text[k]?
  nul : ∀ run ∈ runs, args.mem[run.2]? = some 0
  length : args.mem.length = text.length + 1

/-- The blanks before `i` have been overwritten. -/
structure Cleared (text : List Byte) (i : Nat) (mem : List Byte) : Prop where
  length : mem.length = text.length + 1
  nul : mem[text.length]? = some 0
  chars : ∀ k c, text[k]? = some c → mem[k]? = some (if k < i ∧ c ∈ whitespace then 0 else c)

theorem strchr_isSome (s : List Byte) (c : Byte) : (strchr s c).isSome = true ↔ c ∈ s := by
  induction s with
  | nil => simp [strchr]
  | cons ch s ih =>
      rw [strchr, List.mem_cons]
      by_cases h : ch = c
      · simp [h]
      · rw [if_neg h, Option.isSome_map, ih]
        simp [Ne.symm h]

/-- What is at a position: the NUL, or a character that is a blank or not. -/
theorem Cleared.read (h : Cleared text i mem) (hne : ∀ c ∈ text, c ≠ 0) (hij : i ≤ j)
    (hj : j ≤ text.length) :
    (j = text.length ∧ mem[j]? = some 0) ∨
      ∃ c, text[j]? = some c ∧ mem[j]? = some c ∧ c ≠ 0 ∧ j < text.length ∧
        (c ∈ whitespace ↔ Blank text j) := by
  rcases Nat.eq_or_lt_of_le hj with rfl | hlt
  · exact .inl ⟨rfl, h.nul⟩
  · have hc : text[j]? = some text[j] := List.getElem?_eq_getElem hlt
    refine .inr ⟨text[j], hc, ?_, hne _ (List.getElem_mem hlt), hlt, ?_⟩
    · rw [h.chars j _ hc, if_neg (by omega)]
    · constructor
      · exact fun hblank => ⟨_, hc, hblank⟩
      · rintro ⟨c, hc', hblank⟩
        obtain rfl := Option.some.inj (hc.symm.trans hc')
        exact hblank

theorem Cleared.set (h : Cleared text i mem) (hi : i < text.length) (hblank : Blank text i) :
    Cleared text (i + 1) (mem.set i 0) := by
  refine ⟨by rw [List.length_set, h.length], ?_, fun k c hc => ?_⟩
  · rw [List.getElem?_set_ne (by omega), h.nul]
  · by_cases hk : k = i
    · subst hk
      obtain ⟨c', hc', hwhite⟩ := hblank
      obtain rfl := Option.some.inj (hc.symm.trans hc')
      rw [List.getElem?_set_self (by rw [h.length]; omega), if_pos ⟨by omega, hwhite⟩]
    · rw [List.getElem?_set_ne (Ne.symm hk), h.chars k c hc]
      have hiff : k < i ↔ k < i + 1 := by omega
      simp only [hiff]

/-- Characters that are not blanks stay anyway. -/
theorem Cleared.mono (h : Cleared text i mem) (hin : ∀ k, i ≤ k → k < j → ¬Blank text k)
    (hij : i ≤ j) : Cleared text j mem := by
  refine ⟨h.length, h.nul, fun k c hc => ?_⟩
  rw [h.chars k c hc]
  by_cases hk : k < i
  · simp only [hk, Nat.lt_of_lt_of_le hk hij]
  · rw [if_neg (fun hboth => hk hboth.1), if_neg]
    rintro ⟨hkj, hwhite⟩
    exact hin k (by omega) hkj ⟨c, hc, hwhite⟩

theorem gobble_spec (hne : ∀ c ∈ text, c ≠ 0) (h : Cleared text i mem) (hi : i ≤ text.length)
    (hn : text.length - i < n) :
    ∃ mem' j, gobble n mem i = some (mem', j) ∧ Cleared text j mem' ∧ i ≤ j ∧ j ≤ text.length ∧
      (∀ k, i ≤ k → k < j → Blank text k) ∧ (j = text.length ∨ ¬Blank text j) := by
  induction n generalizing i mem with
  | zero => omega
  | succ n ih =>
      rw [gobble]
      rcases h.read hne (Nat.le_refl i) hi with ⟨rfl, hread⟩ | ⟨c, hc, hread, hc0, hlt, hblank⟩
      · rw [hread]
        dsimp only [Option.bind_eq_bind, Option.bind_some]
        exact ⟨mem, text.length, if_neg (fun hboth => hboth.1 rfl), h, Nat.le_refl _, Nat.le_refl _,
          fun k hk hk' => by omega, .inl rfl⟩
      · rw [hread]
        dsimp only [Option.bind_eq_bind, Option.bind_some]
        by_cases hwhite : c ∈ whitespace
        · rw [if_pos ⟨hc0, (strchr_isSome _ _).mpr hwhite⟩, clear,
            if_pos (by rw [h.length]; omega)]
          dsimp only [Option.bind_some]
          obtain ⟨mem', j, hrun, hmem', hij, hj, hin, hend⟩ :=
            ih (h.set hlt (hblank.mp hwhite)) hlt (by omega)
          refine ⟨mem', j, hrun, hmem', by omega, hj, fun k hik hk => ?_, hend⟩
          rcases Nat.eq_or_lt_of_le hik with rfl | hlt'
          · exact hblank.mp hwhite
          · exact hin k hlt' hk
        · rw [if_neg (fun hboth => hwhite ((strchr_isSome _ _).mp hboth.2))]
          exact ⟨mem, i, rfl, h, Nat.le_refl _, hi, fun k hk hk' => by omega,
            .inr (mt hblank.mpr hwhite)⟩

theorem scanPast_spec (hne : ∀ c ∈ text, c ≠ 0) (h : Cleared text i mem) (hij : i ≤ j)
    (hj : j ≤ text.length) (hn : text.length - j < n) :
    ∃ l, scanPast n mem j = some l ∧ j ≤ l ∧ l ≤ text.length ∧
      (∀ k, j ≤ k → k < l → ¬Blank text k) ∧ (l = text.length ∨ Blank text l) := by
  induction n generalizing j with
  | zero => omega
  | succ n ih =>
      rw [scanPast]
      rcases h.read hne hij hj with ⟨rfl, hread⟩ | ⟨c, hc, hread, hc0, hlt, hblank⟩
      · rw [hread]
        dsimp only [Option.bind_eq_bind, Option.bind_some]
        exact ⟨text.length, if_neg (fun hboth => hboth.1 rfl), Nat.le_refl _, Nat.le_refl _,
          fun k hk hk' => by omega, .inl rfl⟩
      · rw [hread]
        dsimp only [Option.bind_eq_bind, Option.bind_some]
        have hnone : (strchr whitespace c).isNone = true ↔ c ∉ whitespace := by
          rw [← strchr_isSome, ← Option.not_isSome, Bool.not_eq_true', Bool.not_eq_true]
        by_cases hwhite : c ∈ whitespace
        · rw [if_neg (fun hboth => hnone.mp hboth.2 hwhite)]
          exact ⟨j, rfl, Nat.le_refl _, hj, fun k hk hk' => by omega, .inr (hblank.mp hwhite)⟩
        · rw [if_pos ⟨hc0, hnone.mpr hwhite⟩]
          obtain ⟨l, hrun, hjl, hl, hin, hend⟩ := ih (by omega) hlt (by omega)
          refine ⟨l, hrun, by omega, hl, fun k hjk hk => ?_, hend⟩
          rcases Nat.eq_or_lt_of_le hjk with rfl | hlt'
          · exact mt hblank.mpr hwhite
          · exact hin k hlt' hk

/-- After the last run the arguments are complete. -/
theorem Cleared.tokenised (h : Cleared text text.length mem)
    (hruns : MaximalRuns (Blank text) text.length runs)
    (hargv : ∀ k run, runs[k]? = some run → argv k = some run.1) :
    Tokenised text runs ⟨mem, runs.length, Function.update argv runs.length none⟩ := by
  refine ⟨rfl, fun k run hk => ?_, Function.update_self _ _ _, fun run hrun k hk hk' => ?_,
    fun run hrun => ?_, h.length⟩
  · have hlt := (List.getElem?_eq_some_iff.mp hk).1
    exact (Function.update_of_ne (Nat.ne_of_lt hlt) _ _).trans (hargv k run hk)
  · have hmax := (hruns.mem_iff run.1 run.2).mp hrun
    have hbound := hmax.bound
    have hc : text[k]? = some text[k] := List.getElem?_eq_getElem (by omega)
    have hwhite : text[k] ∉ whitespace := fun hw => hmax.inside k hk hk' ⟨_, hc, hw⟩
    rw [hc]
    exact (h.chars k _ hc).trans (by rw [if_neg (fun hboth => hwhite hboth.2)])
  · rcases ((hruns.mem_iff run.1 run.2).mp hrun).right with hend | ⟨c, hc, hwhite⟩
    · rw [hend]
      exact h.nul
    · have hlt := (List.getElem?_eq_some_iff.mp hc).1
      exact (h.chars _ c hc).trans (by rw [if_pos ⟨hlt, hwhite⟩])

/-- The loop, with the runs before `i` in `argv`. -/
theorem parseLoop_spec (hne : ∀ c ∈ text, c ≠ 0)
    (hscan : Scanned (Blank text) text.length i runs) (hmem : Cleared text i mem)
    (hargv : ∀ k run, runs[k]? = some run → argv k = some run.1)
    (hn : n + runs.length = maxargs) (hroom : runs.length ≤ maxargs - 1) :
    ∃ all, MaximalRuns (Blank text) text.length all ∧
      (maxargs - 1 < all.length ∧ parseLoop n mem i runs.length argv = some none ∨
        all.length ≤ maxargs - 1 ∧ ∃ args, parseLoop n mem i runs.length argv = some (some args) ∧
          Tokenised text all args) := by
  have hmaxargs : maxargs = 16 := rfl
  induction n generalizing i mem runs argv with
  | zero => omega
  | succ n ih =>
      obtain ⟨mem', j, hgobble, hmem', hij, hj, hgap, hend⟩ :=
        gobble_spec hne hmem hscan.bound (show text.length - i < mem.length + 1 by
          rw [hmem.length]; omega)
      obtain ⟨hscan', hleft⟩ := hscan.gap hij hj hgap hend
      rw [parseLoop, hgobble]
      dsimp only [Option.bind_eq_bind, Option.bind_some]
      rcases hmem'.read hne (Nat.le_refl j) hj with ⟨rfl, hread⟩ | ⟨c, hc, hread, hc0, hlt, hblank⟩
      · rw [hread]
        dsimp only [Option.bind_some]
        rw [if_pos rfl, setArg, if_pos (by omega)]
        have hall := hscan'.maximalRuns
        exact ⟨runs, hall, .inr ⟨hroom, _, rfl, hmem'.tokenised hall hargv⟩⟩
      · rw [hread]
        dsimp only [Option.bind_some]
        rw [if_neg hc0]
        have hnot : ¬Blank text j := hend.resolve_left (by omega)
        obtain ⟨l, hpast, hjl, hl, hin, hend'⟩ :=
          scanPast_spec hne hmem' (Nat.le_refl j) hj (show text.length - j < mem'.length + 1 by
            rw [hmem'.length]; omega)
        have hjl' : j < l := by
          rcases Nat.eq_or_lt_of_le hjl with rfl | hlt'
          · rcases hend' with hl' | hblank'
            · omega
            · exact absurd hblank' hnot
          · exact hlt'
        obtain ⟨-, hscan''⟩ := hscan'.run (hleft hlt) hjl' hl hin hend'
        by_cases hfull : runs.length = maxargs - 1
        · rw [if_pos hfull]
          obtain ⟨more, hmore⟩ := hscan''.exists_complete
          refine ⟨_, hmore, .inl ⟨?_, rfl⟩⟩
          rw [List.length_append, List.length_append, List.length_singleton]
          omega
        · rw [if_neg hfull, setArg, if_pos (by omega)]
          dsimp only [Option.bind_some]
          rw [hpast]
          dsimp only [Option.bind_some]
          have hlength : (runs ++ [(j, l)]).length = runs.length + 1 := by simp
          have hargv' : ∀ k run, (runs ++ [(j, l)])[k]? = some run →
              Function.update argv runs.length (some j) k = some run.1 := by
            intro k run hk
            by_cases hkl : k = runs.length
            · subst hkl
              rw [List.getElem?_concat_length] at hk
              rw [Function.update_self, ← Option.some.inj hk]
            · have hlt' := (List.getElem?_eq_some_iff.mp hk).1
              rw [List.getElem?_append_left (by omega)] at hk
              rw [Function.update_of_ne hkl, hargv k run hk]
          have hnext := ih hscan'' (hmem'.mono hin hjl) hargv' (by omega) (by omega)
          rwa [hlength] at hnext

theorem parse_spec (hne : ∀ c ∈ text, c ≠ 0) (argv : Argv) :
    ∃ runs, MaximalRuns (Blank text) text.length runs ∧
      (maxargs - 1 < runs.length ∧ parse (text ++ [0]) argv = some none ∨
        runs.length ≤ maxargs - 1 ∧ ∃ args, parse (text ++ [0]) argv = some (some args) ∧
          Tokenised text runs args) := by
  have hmem : Cleared text 0 (text ++ [0]) := by
    refine ⟨by simp, by simp, fun k c hc => ?_⟩
    rw [if_neg (fun hboth => Nat.not_lt_zero k hboth.1),
      List.getElem?_append_left (List.getElem?_eq_some_iff.mp hc).1, hc]
  rw [parse, setArg, if_pos (by decide)]
  exact parseLoop_spec hne .start hmem (by simp) rfl (by decide)

/-! ### The commands -/

/-- The string at `p` is `w`. -/
structure StringAt (mem : List Byte) (p : Nat) (w : List Byte) : Prop where
  chars : ∀ k c, w[k]? = some c → mem[p + k]? = some c ∧ c ≠ 0
  nul : mem[p + w.length]? = some 0

theorem Tokenised.stringAt {args : Args} {run : Nat × Nat} (h : Tokenised text runs args)
    (hruns : MaximalRuns (Blank text) text.length runs) (hne : ∀ c ∈ text, c ≠ 0)
    (hrun : run ∈ runs) : StringAt args.mem run.1 (word text run) := by
  have hmax := (hruns.mem_iff run.1 run.2).mp hrun
  have hbound := hmax.bound
  have hlt := hmax.nonempty
  have hlength : (word text run).length = run.2 - run.1 := by
    rw [word, List.length_take, List.length_drop]
    omega
  refine ⟨fun k c hc => ?_, ?_⟩
  · have hk : k < run.2 - run.1 := by
      rw [← hlength]
      exact (List.getElem?_eq_some_iff.mp hc).1
    rw [word, List.getElem?_take_of_lt hk, List.getElem?_drop] at hc
    rw [h.chars run hrun (run.1 + k) (by omega) (by omega)]
    exact ⟨hc, hne c (List.mem_of_getElem? hc)⟩
  · rw [hlength, show run.1 + (run.2 - run.1) = run.2 by omega]
    exact h.nul run hrun

/-- `strcmp` is zero for equal strings only, and does not read behind the NUL. -/
theorem strcmp_spec {p : Nat} {w name : List Byte} (h : StringAt mem p w)
    (hname : ∀ c ∈ name, c ≠ 0) :
    ∃ r, strcmp mem p name = some r ∧ (r = 0 ↔ name = w) := by
  induction name generalizing p w with
  | nil =>
      cases w with
      | nil => exact ⟨0, by rw [strcmp, show mem[p]? = some 0 from h.nul]; rfl, by simp⟩
      | cons c w =>
          obtain ⟨hread, hc⟩ := h.chars 0 c rfl
          refine ⟨c.toNat, by rw [strcmp, show mem[p]? = some c from hread]; rfl, ?_⟩
          have hpos : c.toNat ≠ 0 := fun hzero => hc (BitVec.eq_of_toNat_eq hzero)
          simp only [reduceCtorEq, iff_false]
          omega
  | cons q qs ih =>
      have hq : q.toNat ≠ 0 := fun hzero =>
        hname q (List.mem_cons_self ..) (BitVec.eq_of_toNat_eq hzero)
      cases w with
      | nil =>
          refine ⟨(0 : Int) - q.toNat, ?_, ?_⟩
          · have hread : mem[p]? = some 0 := h.nul
            rw [strcmp, hread]
            dsimp only [Option.bind_eq_bind, Option.bind_some]
            exact if_neg fun hboth => hboth.1 rfl
          · simp only [reduceCtorEq, iff_false]
            omega
      | cons c w =>
          obtain ⟨hread, hc⟩ := h.chars 0 c rfl
          rw [strcmp, show mem[p]? = some c from hread]
          dsimp only [Option.bind_eq_bind, Option.bind_some]
          by_cases heq : c = q
          · have hrest : StringAt mem (p + 1) w := by
              refine ⟨fun k c' hc' => ?_, ?_⟩
              · rw [Nat.add_assoc, Nat.add_comm 1]
                exact h.chars (k + 1) c' hc'
              · rw [Nat.add_assoc, Nat.add_comm 1]
                exact h.nul
            obtain ⟨r, hr, hiff⟩ := ih hrest fun c' hc' => hname c' (List.mem_cons_of_mem q hc')
            refine ⟨r, by rw [if_pos ⟨hc, heq⟩, hr], ?_⟩
            rw [hiff, heq, List.cons.injEq]
            simp
          · refine ⟨(c.toNat : Int) - q.toNat, if_neg fun hboth => heq hboth.2, ?_⟩
            have hne : c.toNat ≠ q.toNat := fun hsame => heq (BitVec.eq_of_toNat_eq hsame)
            rw [List.cons.injEq]
            constructor
            · intro hzero
              omega
            · exact fun hboth => absurd hboth.1.symm heq

theorem name_chars (command : Command) : ∀ c ∈ command.name, c ≠ 0 := by
  cases command
  all_goals decide

theorem lookup_spec {p : Nat} {w : List Byte} (h : StringAt mem p w) (cs : List Command) :
    lookup mem p cs = some (cs.find? fun command => command.name = w) := by
  induction cs with
  | nil => rfl
  | cons command cs ih =>
      obtain ⟨r, hr, hiff⟩ := strcmp_spec h (name_chars command)
      rw [lookup, hr]
      dsimp only [Option.bind_eq_bind, Option.bind_some]
      by_cases hname : command.name = w
      · rw [if_pos (hiff.mpr hname), List.find?_cons_of_pos (by simpa using hname)]
      · rw [if_neg (mt hiff.mp hname), List.find?_cons_of_neg (by simpa using hname), ih]

/-- What becomes of a command line: its first word names the command. -/
def dispatch (text : List Byte) (runs : List (Nat × Nat)) (args : Args) : Outcome :=
  match runs.head? with
  | none => .nothing
  | some run =>
      match commands.find? fun command => command.name = word text run with
      | some command => .invoke command args
      | none => .unknown args

/-- `runcmd` takes the maximal runs of characters that are not blanks as the arguments, for every
text in the buffer, which ends with its NUL. Too many of them are reported. -/
theorem runcmd_tokenises (text : List Byte) (hne : ∀ c ∈ text, c ≠ 0) (argv : Argv) :
    ∃ runs, MaximalRuns (Blank text) text.length runs ∧
      (maxargs - 1 < runs.length → runcmd (text ++ [0]) argv = some .tooMany) ∧
      (runs.length ≤ maxargs - 1 → ∃ args, parse (text ++ [0]) argv = some (some args) ∧
        Tokenised text runs args ∧
        runcmd (text ++ [0]) argv = some (dispatch text runs args)) := by
  obtain ⟨runs, hruns, ⟨hmany, hparse⟩ | ⟨hfew, args, hparse, htokens⟩⟩ := parse_spec hne argv
  · refine ⟨runs, hruns, fun _ => ?_, fun hfew => by omega⟩
    rw [runcmd, hparse]
    rfl
  · refine ⟨runs, hruns, fun hmany => by omega, fun _ => ⟨args, hparse, htokens, ?_⟩⟩
    rw [runcmd, hparse]
    dsimp only [Option.bind_eq_bind, Option.bind_some]
    cases runs with
    | nil => exact if_pos htokens.argc
    | cons run runs =>
        have hstring := htokens.stringAt hruns hne (List.mem_cons_self ..)
        have hargc : args.argc ≠ 0 := by
          rw [htokens.argc]
          simp
        rw [if_neg hargc, htokens.argv 0 run rfl]
        dsimp only [Option.bind_some]
        rw [lookup_spec hstring]
        dsimp only [Option.bind_some]
        rw [dispatch, List.head?_cons]
        dsimp only
        cases commands.find? fun command => command.name = word text run with
        | none => rfl
        | some command => rfl

/-- The line `help x`, with the blanks before and between. -/
theorem runcmd_tokenises_help :
    ∃ runs, MaximalRuns (Blank [0x20, 0x68, 0x65, 0x6C, 0x70, 0x09, 0x78]) 7 runs ∧
      (maxargs - 1 < runs.length →
        runcmd [0x20, 0x68, 0x65, 0x6C, 0x70, 0x09, 0x78, 0] (fun _ => some 3) = some .tooMany) ∧
      (runs.length ≤ maxargs - 1 → ∃ args,
        parse [0x20, 0x68, 0x65, 0x6C, 0x70, 0x09, 0x78, 0] (fun _ => some 3) = some (some args) ∧
        Tokenised [0x20, 0x68, 0x65, 0x6C, 0x70, 0x09, 0x78] runs args ∧
        runcmd [0x20, 0x68, 0x65, 0x6C, 0x70, 0x09, 0x78, 0] (fun _ => some 3) =
          some (dispatch [0x20, 0x68, 0x65, 0x6C, 0x70, 0x09, 0x78] runs args)) :=
  runcmd_tokenises [0x20, 0x68, 0x65, 0x6C, 0x70, 0x09, 0x78] (by decide) fun _ => some 3

end Jos.Monitor
