import Jos.Mmu

/-!
# Debugging information (`kern/kdebug.c`)

A table entry, and a byte of the string table, that must not be read gives `none`. An `int` that
indexes the table is an integer: a table in memory has less than 2^29 entries, and a range of 2^30
and more, whose bounds have a sum that overflows, goes around the address space in the first scan.
The `int type` of the search is a byte, as `n_type` is: the callers pass the constants below.
-/

namespace Jos.Kdebug

/-- `struct Stab`, without the field that is not used. -/
structure Stab where
  strx : Word
  type : Byte
  desc : BitVec 16
  value : Word

def nFun : Byte := 0x24
def nSline : Byte := 0x44
def nSo : Byte := 0x64
def nSol : Byte := 0x84
def nPsym : Byte := 0xA0

/-! ### `stab_binsearch` -/

/-- `while (m >= l && stabs[m].n_type != type) m--`, for at most `n` rounds. -/
def scanDown (stabs : Int → Option Stab) (type : Byte) (l : Int) : Nat → Int → Option Int
  | 0, m => some m
  | n + 1, m =>
      if m < l then some m
      else do
        let stab ← stabs m
        if stab.type = type then some m else scanDown stabs type l n (m - 1)

/-- The variables of the search. `left` and `right` are the caller's. -/
structure Search where
  l : Int
  r : Int
  left : Int
  right : Int
  anyMatches : Bool
  addr : Word

/-- `true_m`. -/
def Search.trueM (s : Search) : Int := (s.l + s.r).tdiv 2

/-- One round of the search. -/
def Search.step (stabs : Int → Option Stab) (type : Byte) (s : Search) : Option Search := do
  let m ← scanDown stabs type s.l (s.trueM - s.l + 1).toNat s.trueM
  if m < s.l then some { s with l := s.trueM + 1 }
  else do
    let stab ← stabs m
    if stab.value < s.addr then some { s with anyMatches := true, left := m, l := s.trueM + 1 }
    else if stab.value > s.addr then
      some { s with anyMatches := true, right := m - 1, r := m - 1 }
    else some { s with anyMatches := true, left := m, l := m, addr := s.addr + 1 }

/-- The search, for at most `n` rounds. -/
def searchLoop (stabs : Int → Option Stab) (type : Byte) : Nat → Search → Option Search
  | 0, _ => none
  | n + 1, s =>
      if s.l ≤ s.r then do
        let s ← s.step stabs type
        searchLoop stabs type n s
      else some s

/-- What follows the loop: the new bounds. -/
def Search.finish (stabs : Int → Option Stab) (type : Byte) (s : Search) : Option (Int × Int) :=
  if s.anyMatches then do
    let l ← scanDown stabs type (s.left + 1) (s.right - s.left).toNat s.right
    some (l, s.right)
  else some (s.left, s.left - 1)

/-- `stab_binsearch`. Two rounds make the interval smaller. The `int` `type` is only compared with
the bytes `n_type`, and the callers pass `N_SO`, `N_FUN` and `N_SLINE`: it is a byte here. -/
def stabBinsearch (stabs : Int → Option Stab) (left right : Int) (type : Byte) (addr : Word) :
    Option (Int × Int) := do
  let s ← searchLoop stabs type (2 * (right - left + 1).toNat + 2)
    ⟨left, right, left, right, false, addr⟩
  s.finish stabs type

/-! ### `debuginfo_eip` -/

/-- `struct Eipdebuginfo`. A name that is `none` is `<unknown>`. -/
structure Eipdebuginfo where
  file : Option Word
  line : Word
  fnName : Option Word
  fnNamelen : Word
  fnAddr : Word
  fnNarg : Nat

/-- `struct UserStabData`. -/
structure UserStabData where
  stabs : Word
  stabEnd : Word
  stabstr : Word
  stabstrEnd : Word

namespace UserStabData

/-- `stab_end - stabs`, the difference of two pointers to entries of 12 bytes. The compiler takes
it for a multiple of 12: it shifts, and multiplies by the inverse of 3. -/
def count (usd : UserStabData) : Word := 0xAAAAAAAB * (usd.stabEnd - usd.stabs).sshiftRight 2

/-- The name in the string table, if its index is in bounds. -/
def name (usd : UserStabData) (strx : Word) (old : Option Word) : Option Word :=
  if strx < usd.stabstrEnd - usd.stabstr then some (usd.stabstr + strx) else old

end UserStabData

/-- `strfind`. The address space ends after 2^32 rounds. -/
def strfind (byte : Word → Option Byte) (c : Byte) : Nat → Word → Option Word
  | 0, _ => none
  | n + 1, s => do
      let ch ← byte s
      if ch = 0 ∨ ch = c then some s else strfind byte c n (s + 1)

/-- The length of a function's name, without what is behind the colon. -/
def nameLength (byte : Word → Option Byte) : Option Word → Option Word
  | none => some 9
  | some p => do
      let s ← strfind byte 0x3A 4294967296 p
      some (s - p)

/-- What the search for the line needs: the bounds of the function and of the lines, and the
address to look for. -/
structure Found where
  lfun : Int
  rfun : Int
  lline : Int
  rline : Int
  addr : Word
  info : Eipdebuginfo

/-- The part of `debuginfo_eip` that finds the function. -/
def findFunction (usd : UserStabData) (stabs : Int → Option Stab) (byte : Word → Option Byte)
    (lfile rfile : Int) (addr : Word) (info : Eipdebuginfo) : Option Found := do
  let (lfun, rfun) ← stabBinsearch stabs lfile rfile nFun addr
  let f : Found ←
    if lfun ≤ rfun then do
      let stab ← stabs lfun
      some ⟨lfun, rfun, lfun, rfun, addr - stab.value,
        { info with fnName := usd.name stab.strx info.fnName, fnAddr := stab.value }⟩
    else some ⟨lfun, rfun, lfile, rfile, addr, { info with fnAddr := addr }⟩
  let len ← nameLength byte f.info.fnName
  some { f with info := { f.info with fnNamelen := len } }

/-- The loop back to the entry with the file's name, for at most `n` rounds. -/
def scanFile (stabs : Int → Option Stab) (lfile : Int) : Nat → Int → Option Int
  | 0, lline => some lline
  | n + 1, lline =>
      if lline < lfile then some lline
      else do
        let stab ← stabs lline
        if stab.type ≠ nSol ∧ (stab.type ≠ nSo ∨ stab.value = 0) then
          scanFile stabs lfile n (lline - 1)
        else some lline

/-- The loop over the parameters, for at most `n` rounds. -/
def countArgs (stabs : Int → Option Stab) (rfun : Int) : Nat → Int → Option Nat
  | 0, _ => some 0
  | n + 1, lline =>
      if lline < rfun then do
        let stab ← stabs lline
        if stab.type = nPsym then do
          let narg ← countArgs stabs rfun n (lline + 1)
          some (narg + 1)
        else some 0
      else some 0

/-- The part of `debuginfo_eip` that finds the line, the file and the arguments. -/
def findLine (usd : UserStabData) (stabs : Int → Option Stab) (lfile : Int) (f : Found) :
    Option (Int × Eipdebuginfo) := do
  let (lline, rline) ← stabBinsearch stabs f.lline f.rline nSline f.addr
  if lline ≤ rline then do
    let stab ← stabs lline
    let info := { f.info with line := stab.desc.setWidth 32 }
    let lline ← scanFile stabs lfile (lline - lfile + 1).toNat lline
    let info ←
      if lfile ≤ lline then do
        let stab ← stabs lline
        some { info with file := usd.name stab.strx info.file }
      else some info
    let narg ← if f.lfun < f.rfun then countArgs stabs f.rfun (f.rfun - f.lfun).toNat (f.lfun + 1)
      else some 0
    some (0, { info with fnNarg := narg })
  else some (-1, f.info)

/-- `debuginfo_eip` on a table, from the check of the string table on. -/
def lookup (usd : UserStabData) (stabs : Int → Option Stab) (byte : Word → Option Byte)
    (addr : Word) (info : Eipdebuginfo) : Option (Int × Eipdebuginfo) := do
  if usd.stabstrEnd ≤ usd.stabstr then some (-1, info)
  else do
    let last ← byte (usd.stabstrEnd - 1)
    if last ≠ 0 then some (-1, info)
    else do
      let (lfile, rfile) ← stabBinsearch stabs 0 (usd.count.toInt - 1) nSo addr
      if lfile = 0 then some (-1, info)
      else do
        let f ← findFunction usd stabs byte lfile rfile addr info
        findLine usd stabs lfile f

/-- `USTABDATA`. -/
def ustabdata : Word := 0x200000

/-- The ranges that `debuginfo_eip` checks, with their lengths. -/
def UserStabData.ranges (usd : UserStabData) : List (Word × Word) :=
  [(ustabdata, 16), (usd.stabs, usd.count + 1), (usd.stabstr, usd.stabstrEnd - usd.stabstr + 1)]

/-- What `*info` holds at first. -/
def Eipdebuginfo.init (addr : Word) : Eipdebuginfo := ⟨none, 0, none, 9, addr, 0⟩

/-- `debuginfo_eip`, with the tables of the kernel and of the user. `check va len` is
`user_mem_check(curenv, va, len, PTE_U) == 0`, and `stab` and `byte` read memory. -/
def debuginfoEip (check : Word → Word → Bool) (kernel usd : UserStabData)
    (stab : Word → Option Stab) (byte : Word → Option Byte) (addr : Word) :
    Option (Int × Eipdebuginfo) :=
  let info := Eipdebuginfo.init addr
  let entries (usd : UserStabData) (i : Int) := stab (usd.stabs + BitVec.ofInt 32 (12 * i))
  if addr ≥ ulim then lookup kernel (entries kernel) byte addr info
  else if usd.ranges.all fun range => check range.1 range.2 then
    lookup usd (entries usd) byte addr info
  else some (-1, info)

/-! ### The search on a table -/

section Table

variable {stabs : Int → Option Stab} {st : Int → Stab} {type : Byte} {L R l m : Int} {n : Nat}
  {s s' : Search}

/-- The entries from `L` to `R` can be read. -/
def Reads (stabs : Int → Option Stab) (st : Int → Stab) (L R : Int) : Prop :=
  ∀ i, L ≤ i → i ≤ R → stabs i = some (st i)

theorem Reads.mono {L' R' : Int} (h : Reads stabs st L R) (hL : L ≤ L') (hR : R' ≤ R) :
    Reads stabs st L' R' := fun i hi hi' => h i (by omega) (by omega)

/-- `k` is the last entry of the type from `l` to `m`. -/
structure Latest (st : Int → Stab) (type : Byte) (l m k : Int) : Prop where
  low : l ≤ k
  high : k ≤ m
  type_eq : (st k).type = type
  after : ∀ i, k < i → i ≤ m → (st i).type ≠ type

/-- The scan stops at the last entry of the type, or below all of them. -/
theorem scanDown_spec (h : Reads stabs st l m) (hlm : l ≤ m + 1) (hn : n = (m - l + 1).toNat) :
    ∃ k, scanDown stabs type l n m = some k ∧
      (k = l - 1 ∧ (∀ i, l ≤ i → i ≤ m → (st i).type ≠ type) ∨ Latest st type l m k) := by
  induction n generalizing m with
  | zero => exact ⟨m, rfl, .inl ⟨by omega, fun i hi hi' => by omega⟩⟩
  | succ n ih =>
      have hm : ¬m < l := by omega
      rw [scanDown, if_neg hm, h m (by omega) (Int.le_refl m)]
      dsimp only [Option.bind_eq_bind, Option.bind_some]
      by_cases htype : (st m).type = type
      · rw [if_pos htype]
        exact ⟨m, rfl, .inr ⟨by omega, Int.le_refl m, htype, fun i hi hi' => by omega⟩⟩
      · rw [if_neg htype]
        have hlast : ∀ i, i ≤ m → ¬i ≤ m - 1 → (st i).type ≠ type := by
          intro i hi hi'
          obtain rfl : i = m := by omega
          exact htype
        obtain ⟨k, hk, ⟨heq, hnone⟩ | ⟨hlow, hhigh, hkt, hafter⟩⟩ :=
          @ih (m - 1) (h.mono (Int.le_refl l) (by omega)) (by omega) (by omega)
        · refine ⟨k, hk, .inl ⟨heq, fun i hi hi' => ?_⟩⟩
          by_cases him : i ≤ m - 1
          · exact hnone i hi him
          · exact hlast i hi' him
        · refine ⟨k, hk, .inr ⟨hlow, by omega, hkt, fun i hi hi' => ?_⟩⟩
          by_cases him : i ≤ m - 1
          · exact hafter i hi him
          · exact hlast i hi' him

theorem Search.trueM_bounds (h : s.l ≤ s.r) : s.l ≤ s.trueM ∧ s.trueM ≤ s.r := by
  rw [Search.trueM, Int.tdiv_eq_ediv]
  split
  · omega
  · have hsign : Int.sign 2 = 1 := rfl
    omega

/-- What a round of the search does. -/
inductive Round (st : Int → Stab) (type : Byte) (s : Search) : Search → Prop
  | none (h : ∀ i, s.l ≤ i → i ≤ s.trueM → (st i).type ≠ type) :
      Round st type s { s with l := s.trueM + 1 }
  | below {m : Int} (h : Latest st type s.l s.trueM m) (hv : (st m).value < s.addr) :
      Round st type s { s with anyMatches := true, left := m, l := s.trueM + 1 }
  | above {m : Int} (h : Latest st type s.l s.trueM m) (hv : s.addr < (st m).value) :
      Round st type s { s with anyMatches := true, right := m - 1, r := m - 1 }
  | exact {m : Int} (h : Latest st type s.l s.trueM m) (hv : (st m).value = s.addr) :
      Round st type s { s with anyMatches := true, left := m, l := m, addr := s.addr + 1 }

theorem step_round (h : Reads stabs st s.l s.r) (hlr : s.l ≤ s.r) :
    ∃ s', s.step stabs type = some s' ∧ Round st type s s' := by
  obtain ⟨hlow, hhigh⟩ := Search.trueM_bounds hlr
  obtain ⟨m, hm, ⟨heq, hnone⟩ | hlatest⟩ :=
    @scanDown_spec stabs st type s.l s.trueM _ (h.mono (Int.le_refl _) hhigh) (by omega) rfl
  · exact ⟨_, by rw [Search.step, hm]; exact if_pos (by omega), .none hnone⟩
  · have hge : ¬m < s.l := by have := hlatest.low; omega
    have hread : stabs m = some (st m) := h m hlatest.low (by have := hlatest.high; omega)
    rw [Search.step, hm]
    dsimp only [Option.bind_eq_bind, Option.bind_some]
    rw [if_neg hge, hread]
    dsimp only [Option.bind_some]
    by_cases hbelow : (st m).value < s.addr
    · exact ⟨_, if_pos hbelow, .below hlatest hbelow⟩
    · rw [if_neg hbelow]
      by_cases habove : (st m).value > s.addr
      · exact ⟨_, if_pos habove, .above hlatest habove⟩
      · have heq : (st m).value = s.addr :=
          BitVec.le_antisymm (BitVec.not_lt.mp habove) (BitVec.not_lt.mp hbelow)
        exact ⟨_, if_neg habove, .exact hlatest heq⟩

/-- The rounds that are left at most. An exact match does not make the interval smaller if it is
at its left end, but then the next round does. -/
def Search.work (st : Int → Stab) (type : Byte) (s : Search) : Nat :=
  2 * (s.r - s.l + 1).toNat + if (st s.l).type = type ∧ (st s.l).value = s.addr then 1 else 0

theorem Round.work_lt (h : Round st type s s') (hlr : s.l ≤ s.r) :
    s'.work st type < s.work st type := by
  obtain ⟨hlow, hhigh⟩ := Search.trueM_bounds hlr
  -- a smaller interval
  have hsmaller : ∀ t : Search, (t.r - t.l + 1).toNat < (s.r - s.l + 1).toNat →
      t.work st type < s.work st type := by
    intro t ht
    rw [Search.work, Search.work]
    split
    all_goals omega
  cases h with
  | none h =>
      refine hsmaller _ ?_
      dsimp only
      omega
  | below h hv =>
      refine hsmaller _ ?_
      dsimp only
      omega
  | above h hv =>
      have := h.low
      have := h.high
      refine hsmaller _ ?_
      dsimp only
      omega
  | @exact m h hv =>
      have := h.low
      have := h.high
      rcases Int.lt_or_eq_of_le h.low with hlt | heq
      · refine hsmaller _ ?_
        dsimp only
        omega
      · have hbump : s.addr ≠ s.addr + 1 := by
          intro heq
          have := congrArg BitVec.toNat heq
          rw [BitVec.toNat_add, show (1 : Word).toNat = 1 from rfl] at this
          have := s.addr.isLt
          omega
        have hnot : ¬((st m).type = type ∧ (st m).value = s.addr + 1) := by
          rintro ⟨-, hv'⟩
          exact hbump (hv.symm.trans hv')
        have hyes : (st s.l).type = type ∧ (st s.l).value = s.addr := by
          rw [heq]
          exact ⟨h.type_eq, hv⟩
        rw [Search.work, Search.work, if_neg hnot, if_pos hyes, ← heq]
        exact Nat.lt_succ_self _

/-- The loop ends, and what every round keeps holds at its end. -/
theorem searchLoop_run {Inv : Search → Prop} (h : Reads stabs st L R)
    (bounds : ∀ s, Inv s → L ≤ s.l ∧ s.r ≤ R)
    (round : ∀ s s', Inv s → s.l ≤ s.r → Round st type s s' → Inv s')
    (hs : Inv s) (hn : s.work st type < n) :
    ∃ s', searchLoop stabs type n s = some s' ∧ s'.r < s'.l ∧ Inv s' := by
  induction n generalizing s with
  | zero => omega
  | succ n ih =>
      rw [searchLoop]
      by_cases hlr : s.l ≤ s.r
      · obtain ⟨hL, hR⟩ := bounds s hs
        obtain ⟨t, ht, hround⟩ := @step_round stabs st type s (h.mono hL hR) hlr
        have hwork := hround.work_lt hlr
        rw [if_pos hlr, ht]
        exact ih (round s t hs hlr hround) (by omega)
      · rw [if_neg hlr]
        exact ⟨s, rfl, by omega, hs⟩

/-- The bounds when there were matches: the right one, and the last entry of the type from the
left one up to it, if any. -/
def Search.Matched (st : Int → Stab) (type : Byte) (s : Search) (res : Int × Int) : Prop :=
  res.2 = s.right ∧
    (s.right < s.left ∧ res.1 = s.right ∨
      s.left ≤ res.1 ∧ res.1 ≤ s.right ∧
        (∀ i, res.1 < i → i ≤ s.right → (st i).type ≠ type) ∧
        (res.1 = s.left ∨ (st res.1).type = type))

/-- The bounds after the loop. -/
theorem finish_spec (h : Reads stabs st L R) (hleft : L ≤ s.left) (hright : s.right ≤ R) :
    ∃ res, s.finish stabs type = some res ∧
      (s.anyMatches = false ∧ res = (s.left, s.left - 1) ∨
        s.anyMatches = true ∧ s.Matched st type res) := by
  rw [Search.finish]
  by_cases hany : s.anyMatches = true
  · rw [if_pos hany]
    by_cases hlr : s.right < s.left
    · have hzero : (s.right - s.left).toNat = 0 := by omega
      rw [hzero]
      exact ⟨_, rfl, .inr ⟨hany, rfl, .inl ⟨hlr, rfl⟩⟩⟩
    · obtain ⟨k, hk, hspec⟩ := @scanDown_spec stabs st type (s.left + 1) s.right
        (s.right - s.left).toNat (h.mono (by omega) hright) (by omega) (by omega)
      rw [hk]
      refine ⟨_, rfl, .inr ⟨hany, rfl, .inr ?_⟩⟩
      rcases hspec with ⟨heq, hnone⟩ | ⟨hlow, hhigh, htype, hafter⟩
      · exact ⟨by dsimp only; omega, by dsimp only; omega,
          fun i hi hi' => hnone i (by dsimp only at hi; omega) hi', .inl (by dsimp only; omega)⟩
      · exact ⟨by dsimp only; omega, hhigh, hafter, .inr htype⟩
  · rw [if_neg hany]
    exact ⟨_, rfl, .inl ⟨by simpa using hany, rfl⟩⟩

/-- `stab_binsearch` reads between its bounds only and ends, with an invariant of the loop. -/
theorem stabBinsearch_run {Inv : Search → Prop} {addr : Word} (h : Reads stabs st L R)
    (bounds : ∀ s, Inv s → L ≤ s.l ∧ s.r ≤ R)
    (round : ∀ s s', Inv s → s.l ≤ s.r → Round st type s s' → Inv s')
    (start : Inv ⟨L, R, L, R, false, addr⟩) :
    ∃ s, stabBinsearch stabs L R type addr = s.finish stabs type ∧ s.r < s.l ∧ Inv s := by
  have hwork : Search.work st type ⟨L, R, L, R, false, addr⟩ < 2 * (R - L + 1).toNat + 2 := by
    rw [Search.work]
    dsimp only
    split
    all_goals omega
  obtain ⟨s, hs, hend, hinv⟩ := searchLoop_run h bounds round start hwork
  exact ⟨s, by rw [stabBinsearch, hs]; rfl, hend, hinv⟩

/-- The variables of the search stay between the bounds that it got. -/
structure Search.Within (L R : Int) (s : Search) : Prop where
  low : L ≤ s.l
  high : s.r ≤ R
  left_low : L ≤ s.left
  right_high : s.right ≤ R
  unmatched : s.anyMatches = false → s.left = L ∧ s.right = R
  matched : s.anyMatches = true → L ≤ R ∧ s.left ≤ R ∧ L - 1 ≤ s.right

theorem Search.Within.start (L R : Int) (addr : Word) :
    Search.Within L R ⟨L, R, L, R, false, addr⟩ :=
  ⟨Int.le_refl _, Int.le_refl _, Int.le_refl _, Int.le_refl _, fun _ => ⟨rfl, rfl⟩, nofun⟩

theorem Search.Within.round (h : s.Within L R) (hlr : s.l ≤ s.r) (hround : Round st type s s') :
    s'.Within L R := by
  obtain ⟨hmid, hmid'⟩ := Search.trueM_bounds hlr
  obtain ⟨hlow, hhigh, hleft, hright, hunmatched, hmatched⟩ := h
  -- the interval is not empty, so the bounds are in the range before the first match too
  have hbounds : L ≤ R ∧ s.left ≤ R ∧ L - 1 ≤ s.right := by
    cases hany : s.anyMatches with
    | false =>
        obtain ⟨hleft', hright'⟩ := hunmatched hany
        omega
    | true => exact hmatched hany
  cases hround with
  | none hnone => exact ⟨by dsimp only; omega, hhigh, hleft, hright, hunmatched, hmatched⟩
  | below hm hv | exact hm hv =>
      have := hm.low
      have := hm.high
      exact ⟨by dsimp only; omega, hhigh, by dsimp only; omega, hright, nofun,
        fun _ => ⟨hbounds.1, by dsimp only; omega, hbounds.2.2⟩⟩
  | above hm hv =>
      have := hm.low
      have := hm.high
      exact ⟨hlow, by dsimp only; omega, hleft, by dsimp only; omega, nofun,
        fun _ => ⟨hbounds.1, hbounds.2.1, by dsimp only; omega⟩⟩

/-- `stab_binsearch` reads between its bounds only, whatever is in the table. The new bounds
may begin one entry before the old ones. -/
theorem stabBinsearch_within (h : Reads stabs st L R) (type : Byte) (addr : Word) :
    ∃ res, stabBinsearch stabs L R type addr = some res ∧
      (res = (L, L - 1) ∨ L ≤ R ∧ L - 1 ≤ res.1 ∧ res.1 ≤ res.2 ∧ res.2 ≤ R) := by
  obtain ⟨s, hrun, -, hs⟩ := @stabBinsearch_run stabs st type L R (Search.Within L R) addr h
    (fun s hs => ⟨hs.low, hs.high⟩) (fun s s' hs hlr hround => hs.round hlr hround)
    (.start L R addr)
  obtain ⟨res, hres, hspec⟩ := @finish_spec stabs st type L R s h hs.left_low hs.right_high
  refine ⟨res, hrun.trans hres, ?_⟩
  have hleft := hs.left_low
  have hright := hs.right_high
  rcases hspec with ⟨hany, rfl⟩ | ⟨hany, hsnd, hfst⟩
  · rw [(hs.unmatched hany).1]
    exact .inl rfl
  · have hmatched := hs.matched hany
    omega

end Table

end Jos.Kdebug
