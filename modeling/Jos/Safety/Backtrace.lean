import Jos.Kernel.Kdebug
import Jos.Pmap.Remove
import Jos.Pmap.UserMem

/-!
# What `debuginfo_eip` reads of a user program

The kernel checks the record at `USTABDATA`, the table and the string table before it reads them.
The length that it passes for the table is a number of entries, not of bytes. A table whose first
source file begins above the address sends the search to the three entries before the table. And
at the end of the address space the check of the string table has nothing to visit.
-/

namespace Jos.Kdebug

/-! ### A lookup that stays inside -/

section Lookup

variable {usd : UserStabData} {stabs : Int → Option Stab} {st : Int → Stab}
  {byte : Word → Option Byte} {n : Nat} {lfile rfile : Int} {addr : Word} {info : Eipdebuginfo}

/-- The string table can be read. -/
def ReadsStrings (usd : UserStabData) (byte : Word → Option Byte) : Prop :=
  ∀ a, usd.stabstr ≤ a → a < usd.stabstrEnd → (byte a).isSome

/-- `strfind` stops at the last byte of the string table. -/
theorem strfind_total {s : Word} (h : ReadsStrings usd byte) (c : Byte)
    (hnul : byte (usd.stabstrEnd - 1) = some 0) (hs : usd.stabstr ≤ s) (hs' : s < usd.stabstrEnd)
    (hn : usd.stabstrEnd.toNat - s.toNat ≤ n) : ∃ r, strfind byte c n s = some r := by
  induction n generalizing s with
  | zero =>
      rw [BitVec.lt_def] at hs'
      omega
  | succ n ih =>
      obtain ⟨ch, hch⟩ := Option.isSome_iff_exists.mp (h s hs hs')
      rw [strfind, hch]
      dsimp only [Option.bind_eq_bind, Option.bind_some]
      by_cases hend : ch = 0 ∨ ch = c
      · exact ⟨s, if_pos hend⟩
      · rw [if_neg hend]
        rw [BitVec.lt_def] at hs'
        rw [BitVec.le_def] at hs
        have hne : s ≠ usd.stabstrEnd - 1 := by
          rintro rfl
          exact hend (.inl (Option.some.inj (hch.symm.trans hnul)))
        have hlast : s.toNat + 1 ≠ usd.stabstrEnd.toNat := by
          intro heq
          refine hne (BitVec.eq_of_toNat_eq ?_)
          have := usd.stabstrEnd.isLt
          rw [BitVec.toNat_sub, show (1 : Word).toNat = 1 from rfl]
          omega
        have hnext : (s + 1).toNat = s.toNat + 1 := by
          have := usd.stabstrEnd.isLt
          rw [BitVec.toNat_add, show (1 : Word).toNat = 1 from rfl]
          omega
        exact ih (by rw [BitVec.le_def]; omega) (by rw [BitVec.lt_def]; omega) (by omega)

/-- A function's name is in the string table. -/
theorem nameLength_total (h : ReadsStrings usd byte) (horder : usd.stabstr < usd.stabstrEnd)
    (hnul : byte (usd.stabstrEnd - 1) = some 0) (strx : Word) :
    ∃ len, nameLength byte (usd.name strx none) = some len := by
  rw [UserStabData.name]
  split
  · rename_i hstrx
    rw [BitVec.lt_def] at horder hstrx
    rw [BitVec.toNat_sub] at hstrx
    have hend := usd.stabstrEnd.isLt
    have hname : (usd.stabstr + strx).toNat = usd.stabstr.toNat + strx.toNat := by
      rw [BitVec.toNat_add]
      omega
    obtain ⟨r, hr⟩ := strfind_total h 0x3A hnul (s := usd.stabstr + strx)
      (by rw [BitVec.le_def]; omega) (by rw [BitVec.lt_def]; omega)
      (show _ ≤ 4294967296 by omega)
    exact ⟨r - (usd.stabstr + strx), by rw [nameLength, hr]; rfl⟩
  · exact ⟨9, rfl⟩

/-- The bounds that the search for a function leaves: at most two entries before the table. -/
structure Found.Within (f : Found) (count : Int) : Prop where
  lfun : -2 ≤ f.lfun
  rfun : f.rfun < count
  lline : -2 ≤ f.lline
  rline : f.rline < count

theorem findFunction_total {count : Int} (hreads : Reads stabs st (-3) (count - 1))
    (hstrings : ReadsStrings usd byte) (horder : usd.stabstr < usd.stabstrEnd)
    (hnul : byte (usd.stabstrEnd - 1) = some 0) (hinfo : info.fnName = none)
    (hl : -1 ≤ lfile) (hlr : lfile ≤ rfile) (hr : rfile < count) :
    ∃ f, findFunction usd stabs byte lfile rfile addr info = some f ∧ f.Within count := by
  obtain ⟨⟨lfun, rfun⟩, hsearch, hres⟩ :=
    stabBinsearch_within (hreads.mono (by omega) (by omega) : Reads stabs st lfile rfile) nFun addr
  have hbounds : -2 ≤ lfun ∧ rfun < count := by
    rcases hres with heq | ⟨-, hlow, -, hhigh⟩
    · cases heq
      omega
    · dsimp only at hlow hhigh
      omega
  rw [findFunction, hsearch]
  dsimp only [Option.bind_eq_bind, Option.bind_some]
  by_cases hfun : lfun ≤ rfun
  · obtain ⟨len, hlen⟩ := nameLength_total hstrings horder hnul (st lfun).strx
    rw [if_pos hfun, hreads lfun (by omega) (by omega)]
    dsimp only [Option.bind_some]
    rw [hinfo, hlen]
    exact ⟨_, rfl, hbounds.1, hbounds.2, hbounds.1, hbounds.2⟩
  · rw [if_neg hfun]
    rw [hinfo]
    exact ⟨_, rfl, hbounds.1, hbounds.2, Int.le_trans (by decide) hl, hr⟩

theorem scanFile_total {lline : Int} (hreads : Reads stabs st lfile lline) :
    ∃ k, scanFile stabs lfile n lline = some k ∧ k ≤ lline := by
  induction n generalizing lline with
  | zero => exact ⟨lline, rfl, Int.le_refl _⟩
  | succ n ih =>
      rw [scanFile]
      by_cases hlt : lline < lfile
      · exact ⟨lline, if_pos hlt, Int.le_refl _⟩
      · rw [if_neg hlt, hreads lline (by omega) (Int.le_refl _)]
        dsimp only [Option.bind_eq_bind, Option.bind_some]
        split
        · obtain ⟨k, hk, hle⟩ := @ih (lline - 1) (hreads.mono (Int.le_refl _) (by omega))
          exact ⟨k, hk, by omega⟩
        · exact ⟨lline, rfl, Int.le_refl _⟩

theorem countArgs_total {rfun lline : Int} (hreads : Reads stabs st lline (rfun - 1)) :
    ∃ narg, countArgs stabs rfun n lline = some narg := by
  induction n generalizing lline with
  | zero => exact ⟨0, rfl⟩
  | succ n ih =>
      rw [countArgs]
      by_cases hlt : lline < rfun
      · rw [if_pos hlt, hreads lline (Int.le_refl _) (by omega)]
        dsimp only [Option.bind_eq_bind, Option.bind_some]
        split
        · obtain ⟨narg, hnarg⟩ := @ih (lline + 1) (hreads.mono (by omega) (Int.le_refl _))
          exact ⟨narg + 1, by rw [hnarg]; rfl⟩
        · exact ⟨0, rfl⟩
      · exact ⟨0, if_neg hlt⟩

theorem findLine_total {count : Int} {f : Found} (hreads : Reads stabs st (-3) (count - 1))
    (hf : f.Within count) (hl : -1 ≤ lfile) :
    ∃ r, findLine usd stabs lfile f = some r := by
  obtain ⟨hlfun, hrfun, hlline, hrline⟩ := hf
  obtain ⟨⟨lline, rline⟩, hsearch, hres⟩ :=
    stabBinsearch_within (hreads.mono (by omega) (by omega) : Reads stabs st f.lline f.rline)
      nSline f.addr
  rw [findLine, hsearch]
  dsimp only [Option.bind_eq_bind, Option.bind_some]
  by_cases hfound : lline ≤ rline
  · have hbounds : -3 ≤ lline ∧ lline ≤ count - 1 := by
      rcases hres with heq | ⟨-, hlow, -, hhigh⟩
      · cases heq
        omega
      · dsimp only at hlow hhigh
        omega
    obtain ⟨k, hk, hkl⟩ := @scanFile_total stabs st (lline - lfile + 1).toNat lfile lline
      (hreads.mono (by omega) hbounds.2)
    obtain ⟨narg, hnarg⟩ := @countArgs_total stabs st (f.rfun - f.lfun).toNat f.rfun (f.lfun + 1)
      (hreads.mono (by omega) (by omega))
    rw [if_pos hfound, hreads lline hbounds.1 hbounds.2]
    dsimp only [Option.bind_some]
    rw [hk]
    dsimp only [Option.bind_some]
    rw [hnarg]
    by_cases hfile : lfile ≤ k
    · rw [if_pos hfile, hreads k (by omega) (by omega)]
      dsimp only [Option.bind_some]
      split
      all_goals exact ⟨_, rfl⟩
    · rw [if_neg hfile]
      dsimp only [Option.bind_some]
      split
      all_goals exact ⟨_, rfl⟩
  · rw [if_neg hfound]
    exact ⟨_, rfl⟩

/-- A lookup reads the string table, and nothing else of an empty table, but of another one the
three entries before it too. -/
theorem lookup_total (hstrings : ReadsStrings usd byte)
    (hreads : usd.count.toInt ≤ 0 ∨ Reads stabs st (-3) (usd.count.toInt - 1))
    (hinfo : info.fnName = none) : ∃ r, lookup usd stabs byte addr info = some r := by
  rw [lookup]
  by_cases horder : usd.stabstrEnd ≤ usd.stabstr
  · exact ⟨_, if_pos horder⟩
  · rw [if_neg horder]
    rw [BitVec.not_le] at horder
    have hlast : usd.stabstr ≤ usd.stabstrEnd - 1 ∧ usd.stabstrEnd - 1 < usd.stabstrEnd := by
      rw [BitVec.lt_def] at horder
      have := usd.stabstrEnd.isLt
      rw [BitVec.le_def, BitVec.lt_def, BitVec.toNat_sub, show (1 : Word).toNat = 1 from rfl]
      omega
    obtain ⟨last, hbyte⟩ := Option.isSome_iff_exists.mp (hstrings _ hlast.1 hlast.2)
    rw [hbyte]
    dsimp only [Option.bind_eq_bind, Option.bind_some]
    by_cases hnul : last ≠ 0
    · exact ⟨_, if_pos hnul⟩
    · rw [if_neg hnul]
      rw [not_not] at hnul
      subst hnul
      rcases hreads with hempty | hreads
      · -- the search has nothing to look at
        obtain ⟨res, hsearch, hres⟩ := @stabBinsearch_within stabs (fun _ => ⟨0, 0, 0, 0⟩) 0
          (usd.count.toInt - 1) (fun i hi hi' => by omega) nSo addr
        have hnone : res = (0, 0 - 1) := hres.resolve_right (by omega)
        rw [hsearch, hnone]
        exact ⟨_, rfl⟩
      · obtain ⟨⟨lfile, rfile⟩, hsearch, hres⟩ :=
          stabBinsearch_within (hreads.mono (by omega) (Int.le_refl _) : Reads stabs st 0 _) nSo
            addr
        rw [hsearch]
        dsimp only [Option.bind_some]
        by_cases hzero : lfile = 0
        · exact ⟨_, if_pos hzero⟩
        · rw [if_neg hzero]
          have hbounds : -1 ≤ lfile ∧ lfile ≤ rfile ∧ rfile ≤ usd.count.toInt - 1 := by
            rcases hres with heq | ⟨-, hlow, hle, hhigh⟩
            · cases heq
              exact absurd rfl hzero
            · dsimp only at hlow hle hhigh
              omega
          obtain ⟨f, hf, hwithin⟩ := @findFunction_total usd stabs st byte lfile rfile addr info
            usd.count.toInt hreads hstrings horder hbyte hinfo hbounds.1 hbounds.2.1 (by omega)
          rw [hf]
          exact findLine_total hreads hwithin hbounds.1

end Lookup

/-! ### Tables that make a lookup read everything -/

section Unread

variable {usd : UserStabData} {stabs : Int → Option Stab} {type : Byte} {L R : Int} {addr : Word}
  {byte : Word → Option Byte} {info : Eipdebuginfo}

/-- A scan that finds nothing reads every entry. -/
theorem scanDown_unread {n : Nat} {l m : Int} (hlm : l ≤ m + 1) (hn : n = (m - l + 1).toNat)
    (h : ∀ i, l ≤ i → i ≤ m → ∀ stab, stabs i = some stab → stab.type ≠ type) :
    scanDown stabs type l n m = none ∨
      scanDown stabs type l n m = some (l - 1) ∧ ∀ i, l ≤ i → i ≤ m → stabs i ≠ none := by
  induction n generalizing m with
  | zero =>
      refine .inr ⟨?_, fun i hi hi' => by omega⟩
      rw [show m = l - 1 by omega]
      rfl
  | succ n ih =>
      have hm : ¬m < l := by omega
      rw [scanDown, if_neg hm]
      cases hread : stabs m with
      | none => exact .inl rfl
      | some stab =>
          have htype := h m (by omega) (Int.le_refl _) stab hread
          dsimp only [Option.bind_eq_bind, Option.bind_some]
          rw [if_neg htype]
          rcases @ih (m - 1) (by omega) (by omega) fun i hi hi' => h i hi (by omega) with
            hscan | ⟨hscan, hall⟩
          · exact .inl hscan
          · refine .inr ⟨hscan, fun i hi hi' => ?_⟩
            by_cases him : i = m
            · rw [him, hread]
              exact Option.some_ne_none stab
            · exact hall i hi (by omega)

/-- If no entry has the type, the search reads all of them. -/
theorem stabBinsearch_unread {j : Int} (hj : L ≤ j) (hj' : j ≤ R) (hnone : stabs j = none)
    (h : ∀ i, L ≤ i → i ≤ R → ∀ stab, stabs i = some stab → stab.type ≠ type) :
    stabBinsearch stabs L R type addr = none := by
  have hloop : ∀ n (s : Search), L ≤ s.l → s.l ≤ j → s.r = R →
      searchLoop stabs type n s = none := by
    intro n
    induction n with
    | zero => exact fun _ _ _ _ => rfl
    | succ n ih =>
        intro s hL hl hr
        have hlr : s.l ≤ s.r := by omega
        obtain ⟨hmid, hmid'⟩ := Search.trueM_bounds hlr
        rw [searchLoop, if_pos hlr, Search.step]
        rcases @scanDown_unread stabs type _ s.l s.trueM (by omega) rfl
          (fun i hi hi' => h i (by omega) (by omega)) with hscan | ⟨hscan, hall⟩
        · rw [hscan]
          rfl
        · have hlt : s.l - 1 < s.l := by omega
          rw [hscan]
          dsimp only [Option.bind_eq_bind, Option.bind_some]
          rw [if_pos hlt]
          refine ih _ (by dsimp only; omega) ?_ hr
          by_contra hge
          exact hall j hl (by dsimp only at hge; omega) hnone
  rw [stabBinsearch, hloop _ _ (Int.le_refl L) hj rfl]
  rfl

/-- If all entries have the type and lie above the address, both bounds come before them. -/
theorem stabBinsearch_above {st : Int → Stab} (hreads : Reads stabs st L R) (hLR : L ≤ R)
    (h : ∀ i, L ≤ i → i ≤ R → (st i).type = type ∧ addr < (st i).value) :
    stabBinsearch stabs L R type addr = some (L - 1, L - 1) := by
  -- the right bound is the right end, which moves down to the left end
  obtain ⟨s, hrun, hend, hl, -, hleft, hright, hany⟩ := @stabBinsearch_run stabs st type L R
    (fun s => s.l = L ∧ (s.r ≤ R ∧ s.addr = addr) ∧ s.left = L ∧ (L - 1 ≤ s.r ∧ s.right = s.r) ∧
      (s.r = R ∨ s.anyMatches = true)) addr hreads
    (fun s hs => ⟨by omega, hs.2.1.1⟩)
    (fun s s' hs hlr hround => by
      obtain ⟨hl, ⟨hr, haddr⟩, hleft, ⟨hlow, hright⟩, hany⟩ := hs
      obtain ⟨hmid, hmid'⟩ := Search.trueM_bounds hlr
      cases hround with
      | none hnone => exact absurd (h s.l (by omega) (by omega)).1 (hnone _ (Int.le_refl _) hmid)
      | @below m hm hv =>
          have := (h m (by have := hm.low; omega) (by have := hm.high; omega)).2
          rw [haddr, BitVec.lt_def] at hv
          rw [BitVec.lt_def] at this
          omega
      | @exact m hm hv =>
          have := (h m (by have := hm.low; omega) (by have := hm.high; omega)).2
          rw [hv, haddr, BitVec.lt_def] at this
          omega
      | @above m hm hv =>
          have := hm.low
          have := hm.high
          exact ⟨hl, ⟨by dsimp only; omega, haddr⟩, hleft, ⟨by dsimp only; omega, rfl⟩, .inr rfl⟩)
    ⟨rfl, ⟨Int.le_refl _, rfl⟩, rfl, ⟨by dsimp only; omega, rfl⟩, .inl rfl⟩
  have hmatched : s.anyMatches = true := hany.resolve_left (by omega)
  have hzero : (s.right - s.left).toNat = 0 := by omega
  rw [hrun, Search.finish, if_pos hmatched, hzero, show s.right = L - 1 by omega]
  rfl

/-- A table of source files that all begin above the address 5, with a function and a line before
it. No name is in the string table. -/
def hostile (i : Int) : Stab :=
  if 0 ≤ i then ⟨0xFFFFFFFF, nSo, 0, 6⟩
  else if i = -1 then ⟨0xFFFFFFFF, nFun, 0, 6⟩
  else ⟨0xFFFFFFFF, nSline, 0, 4⟩

/-- A lookup in that table reads the three entries before it. -/
theorem lookup_hostile {j : Int} (horder : usd.stabstr < usd.stabstrEnd)
    (hnul : byte (usd.stabstrEnd - 1) = some 0) (hcount : 0 < usd.count.toInt)
    (hstabs : ∀ i, -3 ≤ i → i < usd.count.toInt → stabs i = none ∨ stabs i = some (hostile i))
    (htable : ∀ i, 0 ≤ i → i < usd.count.toInt → stabs i ≠ none) (hj : -3 ≤ j) (hj' : j < 0)
    (hnone : stabs j = none) : lookup usd stabs byte 5 info = none := by
  have hread : ∀ i, -3 ≤ i → i < 0 → stabs i ≠ none → Reads stabs hostile i i := by
    intro i hlow hhigh hi k hk hk'
    obtain rfl : k = i := Int.le_antisymm hk' hk
    exact (hstabs k hlow (by omega)).resolve_left hi
  have hsearch : stabBinsearch stabs 0 (usd.count.toInt - 1) nSo 5 = some (-1, -1) := by
    refine @stabBinsearch_above stabs nSo 0 _ 5 hostile (fun i hi hi' => ?_) (by omega)
      fun i hi hi' => ?_
    · exact (hstabs i (by omega) (by omega)).resolve_left (htable i hi (by omega))
    · rw [hostile, if_pos hi]
      exact ⟨rfl, by decide⟩
  have hnotle : ¬usd.stabstrEnd ≤ usd.stabstr := BitVec.not_le.mpr horder
  rw [lookup, if_neg hnotle, hnul]
  dsimp only [Option.bind_eq_bind, Option.bind_some]
  rw [if_neg (by decide), hsearch]
  dsimp only [Option.bind_some]
  rw [if_neg (by decide), findFunction]
  by_cases hfirst : stabs (-1) = none
  · rw [stabBinsearch_unread (Int.le_refl _) (Int.le_refl _) hfirst fun i hi hi' stab hstab => ?_]
    · rfl
    · obtain rfl : i = -1 := by omega
      rw [hfirst] at hstab
      cases hstab
  · rw [@stabBinsearch_above stabs nFun (-1) (-1) 5 hostile
      (hread _ (by decide) (by decide) hfirst) (Int.le_refl _) fun i hi hi' => ?_]
    · dsimp only [Option.bind_eq_bind, Option.bind_some]
      rw [if_pos (by decide)]
      by_cases hsecond : stabs (-1 - 1) = none
      · rw [hsecond]
        rfl
      · have hthird : stabs (-1 - 1 - 1) = none := by
          have hj1 : j ≠ -1 := by
            rintro rfl
            exact hfirst hnone
          have hj2 : j ≠ -1 - 1 := by
            rintro rfl
            exact hsecond hnone
          rw [show (-1 - 1 - 1 : Int) = j by omega]
          exact hnone
        have hline : stabBinsearch stabs (-1 - 1) (-1 - 1) nSline (5 - (hostile (-1 - 1)).value) =
            some (-1 - 1 - 1, -1 - 1 - 1) := by
          refine @stabBinsearch_above stabs nSline _ _ _ hostile
            (hread _ (by decide) (by decide) hsecond) (Int.le_refl _) fun i hi hi' => ?_
          obtain rfl : i = -1 - 1 := by omega
          decide
        rw [(hstabs _ (by decide) (by omega)).resolve_left hsecond]
        dsimp only [Option.bind_some]
        generalize nameLength byte _ = len
        cases len with
        | none => rfl
        | some len =>
            dsimp only [Option.bind_some]
            rw [findLine, hline]
            dsimp only [Option.bind_eq_bind, Option.bind_some]
            rw [if_pos (Int.le_refl _), hthird]
            rfl
    · obtain rfl : i = -1 := by omega
      decide

end Unread

/-! ### What has been checked -/

/-- The page of `a` is one of those that `user_mem_check` visits for the range. -/
def Visited (range : Word × Word) (a : Word) : Prop :=
  rounddown range.1 ≤ rounddown a ∧ rounddown a < roundup (range.1 + range.2)

instance (range : Word × Word) (a : Word) : Decidable (Visited range a) :=
  inferInstanceAs (Decidable (_ ∧ _))

namespace UserStabData

/-- One of the checks covers the byte at `a`. -/
def Covers (usd : UserStabData) (a : Word) : Prop := ∃ range ∈ usd.ranges, Visited range a

/-- The checks cover the entry at `a`. -/
def CoversEntry (usd : UserStabData) (a : Word) : Prop :=
  ∀ i < 12, usd.Covers (a + BitVec.ofNat 32 i)

instance (usd : UserStabData) : DecidablePred usd.Covers :=
  fun a => inferInstanceAs (Decidable (∃ range ∈ usd.ranges, Visited range a))

instance (usd : UserStabData) : DecidablePred usd.CoversEntry :=
  fun a => inferInstanceAs (Decidable (∀ i < 12, usd.Covers (a + BitVec.ofNat 32 i)))

/-- The address of an entry. -/
def entry (usd : UserStabData) (i : Int) : Word := usd.stabs + BitVec.ofInt 32 (12 * i)

/-- A table fits in the address space, but a length that is no multiple of 12 can give a count
that no table has. -/
theorem count_cases (usd : UserStabData) :
    usd.count.toInt ≤ 178956970 ∨ 1252698795 ≤ usd.count.toInt := by
  have hlt := @BitVec.toInt_lt 32 (usd.stabEnd - usd.stabs)
  have hge := @BitVec.le_toInt 32 (usd.stabEnd - usd.stabs)
  -- the shifted length as a number of entries and a rest
  obtain ⟨n, r, hn, hr⟩ : ∃ n r, (usd.stabEnd - usd.stabs).toInt / 4 = 3 * n + r ∧ 0 ≤ r ∧ r < 3 :=
    ⟨(usd.stabEnd - usd.stabs).toInt / 4 / 3, (usd.stabEnd - usd.stabs).toInt / 4 % 3, by omega⟩
  have hmul : -1431655765 * (3 * n + r) = n - 1431655765 * r + ((2 ^ 32 : Nat) : Int) * -n := by
    omega
  rw [count, BitVec.toInt_mul, BitVec.toInt_sshiftRight, Int.shiftRight_eq_div_pow,
    show ((2 ^ 2 : Nat) : Int) = 4 from rfl, show (0xAAAAAAAB : Word).toInt = -1431655765 from rfl,
    hn, hmul, Int.bmod_def, Int.add_mul_emod_self_left]
  obtain rfl | rfl | rfl : r = 0 ∨ r = 1 ∨ r = 2 := by omega
  all_goals omega

/-- The entries of a table, and the three before it, are at different places. -/
theorem entry_inj (usd : UserStabData) (hcount : usd.count.toInt ≤ 178956970) {i j : Int}
    (hi : -3 ≤ i) (hi' : i < usd.count.toInt) (hj : -3 ≤ j) (hj' : j < usd.count.toInt)
    (h : usd.entry i = usd.entry j) : i = j := by
  have heq := congrArg BitVec.toInt ((BitVec.add_right_inj usd.stabs).mp h)
  rw [BitVec.toInt_ofInt, BitVec.toInt_ofInt] at heq
  have hrange : ∀ k : Int, -3 ≤ k → k < usd.count.toInt →
      (12 * k).bmod (2 ^ 32) = 12 * k ∨ (12 * k).bmod (2 ^ 32) = 12 * k - 4294967296 := by
    intro k hk hk'
    rw [Int.bmod_def]
    omega
  have := hrange i hi hi'
  have := hrange j hj hj'
  omega

end UserStabData

/-- `user_mem_check(curenv, va, len, PTE_U) == 0`. -/
def checked (p : Phys) (pgdir : Nat) (va len : Word) : Bool :=
  match userMemCheck pgdir va len pteU p with
  | .ret none _ => true
  | _ => false

/-- Reading `f`, where only what `P` allows may be read. -/
def guarded {α : Type} (P : Word → Prop) [DecidablePred P] (f : Word → α) (a : Word) : Option α :=
  if P a then some (f a) else none

/-- Whatever is in the table and in the string table, and for every user address, every entry and
every byte that `debuginfo_eip` reads has been checked. -/
def OnlyValidated (p : Phys) (pgdir : Nat) (usd : UserStabData) : Prop :=
  ∀ (kernel : UserStabData) (stab : Word → Stab) (byte : Word → Byte) (addr : Word),
    addr < ulim → debuginfoEip (checked p pgdir) kernel usd (guarded usd.CoversEntry stab)
      (guarded usd.Covers byte) addr ≠ none

section Validated

variable {p : Phys} {pgdir : Nat} {usd : UserStabData} {a : Word}

theorem checked_iff {va len : Word} : checked p pgdir va len = true ↔
    ∀ a : Word, a.toNat % 4096 = 0 → rounddown va ≤ a → a < roundup (va + len) →
      p.PageGranted pgdir (pteU ||| pteP ||| pteU) a := by
  refine Iff.trans ?_ (userMemCheck_none_iff p pgdir va len pteU)
  unfold checked
  constructor
  · intro h
    split at h
    · rename_i q hrun
      exact ⟨q, hrun⟩
    · cases h
  · rintro ⟨q, hrun⟩
    simp only [hrun]

/-- A byte that has been checked lies below `ULIM` and is mapped, so reading it does not fault. -/
theorem Covers.mapped (hchecks : ∀ range ∈ usd.ranges, checked p pgdir range.1 range.2 = true)
    (h : usd.Covers a) : rounddown a < ulim ∧ p.translate pgdir a ≠ none := by
  obtain ⟨range, hrange, hlow, hhigh⟩ := h
  obtain ⟨hulim, hpde, -, hpte⟩ :=
    checked_iff.mp (hchecks range hrange) (rounddown a) (rounddown_le a).2.2 hlow hhigh
  rw [pdx_rounddown, ptx_rounddown] at hpte
  rw [pdx_rounddown] at hpde
  have hpresent := and_ne_zero_of_subset hpte (show (pteU ||| pteP ||| pteU) &&& pteP ≠ 0 by decide)
  refine ⟨hulim, ?_⟩
  rw [Phys.translate, if_neg hpde, if_neg hpresent]
  exact Option.some_ne_none _

/-- A table that is covered fits in the address space: a larger one goes around it. -/
theorem count_le (hchecks : ∀ range ∈ usd.ranges, checked p pgdir range.1 range.2 = true)
    (h : ∀ i, 0 ≤ i → i < usd.count.toInt → usd.CoversEntry (usd.entry i)) :
    usd.count.toInt ≤ 178956970 := by
  refine usd.count_cases.resolve_right fun hlarge => ?_
  have hstabs := usd.stabs.isLt
  -- the entry that begins in the last 12 bytes of the address space
  obtain ⟨i, hi, hi'⟩ : ∃ i : Nat, 8589934580 ≤ usd.stabs.toNat + 12 * i ∧
      usd.stabs.toNat + 12 * i < 8589934592 :=
    ⟨(8589934591 - usd.stabs.toNat) / 12, by omega, by omega⟩
  have hulim := (Covers.mapped hchecks (h i (by omega) (by omega) 0 (by decide))).1
  have hentry : (usd.entry i).toNat = usd.stabs.toNat + 12 * i - 4294967296 := by
    rw [UserStabData.entry, BitVec.toNat_add, show (12 * (i : Int)) = ((12 * i : Nat) : Int) by omega,
      BitVec.ofInt_natCast, BitVec.toNat_ofNat]
    omega
  rw [BitVec.add_zero, BitVec.lt_def, rounddown_toNat, hentry,
    show ulim.toNat = 4018143232 from rfl] at hulim
  omega

/-- There the last byte of the string table is not covered. -/
theorem not_covers_end (hchecks : ∀ range ∈ usd.ranges, checked p pgdir range.1 range.2 = true)
    (hend : ¬usd.stabstrEnd < 0xFFFFF000) : ¬usd.Covers (usd.stabstrEnd - 1) := by
  intro h
  have hulim := (Covers.mapped hchecks h).1
  have hmax := usd.stabstrEnd.isLt
  rw [BitVec.lt_def, show (0xFFFFF000 : Word).toNat = 4294963200 from rfl] at hend
  rw [BitVec.lt_def, rounddown_toNat, BitVec.toNat_sub, show (1 : Word).toNat = 1 from rfl,
    show ulim.toNat = 4018143232 from rfl] at hulim
  omega

/-- The run of `debuginfo_eip` on a user address whose checks pass. -/
theorem debuginfoEip_run {kernel : UserStabData} {stab : Word → Option Stab}
    {byte : Word → Option Byte} {addr : Word} (haddr : addr < ulim)
    (hchecks : ∀ range ∈ usd.ranges, checked p pgdir range.1 range.2 = true) :
    debuginfoEip (checked p pgdir) kernel usd stab byte addr =
      lookup usd (fun i => stab (usd.entry i)) byte addr (Eipdebuginfo.init addr) := by
  have hlow : ¬addr ≥ ulim := BitVec.not_le.mpr haddr
  have hall : (usd.ranges.all fun range => checked p pgdir range.1 range.2) = true :=
    List.all_eq_true.mpr hchecks
  rw [debuginfoEip]
  dsimp only
  rw [if_neg hlow, if_pos hall]
  rfl

/-- Without the guard `debuginfo_eip` returns always. -/
theorem debuginfoEip_returns (check : Word → Word → Bool) (kernel usd : UserStabData)
    (stab : Word → Stab) (byte : Word → Byte) (addr : Word) :
    ∃ r, debuginfoEip check kernel usd (fun a => some (stab a)) (fun a => some (byte a)) addr =
      some r := by
  have htotal : ∀ usd : UserStabData, ∃ r,
      lookup usd (fun i => some (stab (usd.entry i))) (fun a => some (byte a)) addr
        (Eipdebuginfo.init addr) = some r :=
    fun usd => @lookup_total usd _ (fun i => stab (usd.entry i)) _ addr _ (fun _ _ _ => rfl)
      (.inr fun _ _ _ => rfl) rfl
  rw [debuginfoEip]
  dsimp only
  split
  · exact htotal kernel
  · split
    · exact htotal usd
    · exact ⟨_, rfl⟩

/-- The contents of a table that make the lookup read the three entries before it. -/
def hostileAt (usd : UserStabData) (a : Word) : Stab :=
  if a = usd.entry (-1) then hostile (-1)
  else if a = usd.entry (-2) ∨ a = usd.entry (-3) then hostile (-2)
  else hostile 0

theorem hostileAt_entry {i : Int} (hi : -3 ≤ i) (hi' : i < usd.count.toInt)
    (hcount : 0 < usd.count.toInt) (hfits : usd.count.toInt ≤ 178956970) : hostileAt usd (usd.entry i) = hostile i := by
  have hinj : ∀ j, -3 ≤ j → j < 0 → (usd.entry i = usd.entry j ↔ i = j) := fun j hj hj' =>
    ⟨usd.entry_inj hfits hi hi' hj (by omega), congrArg usd.entry⟩
  simp only [hostileAt, hinj (-1) (by decide) (by decide), hinj (-2) (by decide) (by decide),
    hinj (-3) (by decide) (by decide)]
  split
  · rename_i heq
    rw [heq]
  · split
    · rename_i heq
      rcases heq with heq | heq
      · rw [heq]
      · rw [heq]
        rfl
    · rw [hostile, hostile, if_pos (Int.le_refl 0), if_pos (by omega)]

/-- An entry of a table that is not covered, or one of the three before it, can be read. -/
theorem OnlyValidated.covers (h : OnlyValidated p pgdir usd)
    (hchecks : ∀ range ∈ usd.ranges, checked p pgdir range.1 range.2 = true)
    (horder : usd.stabstr < usd.stabstrEnd) :
    usd.stabstrEnd < 0xFFFFF000 ∧ (usd.count.toInt ≤ 0 ∨
      ∀ i, -3 ≤ i → i < usd.count.toInt → usd.CoversEntry (usd.entry i)) := by
  -- the lookup of the address 5, with the string table all zero
  have hrun : ∀ stab : Word → Stab, lookup usd (fun i => guarded usd.CoversEntry stab (usd.entry i))
      (guarded usd.Covers fun _ => 0) 5 (Eipdebuginfo.init 5) ≠ none := by
    intro stab
    rw [← @debuginfoEip_run p pgdir usd usd _ _ 5 (by decide) hchecks]
    exact h usd stab (fun _ => 0) 5 (by decide)
  have hnotle : ¬usd.stabstrEnd ≤ usd.stabstr := BitVec.not_le.mpr horder
  have hlast : usd.Covers (usd.stabstrEnd - 1) := by
    by_contra hnot
    refine hrun (fun _ => ⟨0, 0, 0, 0⟩) ?_
    rw [lookup, if_neg hnotle, guarded, if_neg hnot]
    rfl
  have hnul : guarded usd.Covers (fun _ => (0 : Byte)) (usd.stabstrEnd - 1) = some 0 := if_pos hlast
  refine ⟨by_contra fun hend => not_covers_end hchecks hend hlast, ?_⟩
  by_cases hcount : usd.count.toInt ≤ 0
  · exact .inl hcount
  have hinside : ∀ i, 0 ≤ i → i < usd.count.toInt → usd.CoversEntry (usd.entry i) := by
    intro i hi hi'
    by_contra hnot
    refine hrun (fun _ => ⟨0, 0, 0, 0⟩) ?_
    rw [lookup, if_neg hnotle, hnul]
    dsimp only [Option.bind_eq_bind, Option.bind_some]
    rw [if_neg (by decide), stabBinsearch_unread hi (by omega) (if_neg hnot)]
    · rfl
    · intro k _ _ stab hstab
      rw [guarded] at hstab
      split at hstab
      · obtain rfl := Option.some.inj hstab
        decide
      · cases hstab
  have hfits := count_le hchecks hinside
  refine .inr fun i hi hi' => ?_
  by_contra hnot
  by_cases hneg : i < 0
  · refine hrun (hostileAt usd) (lookup_hostile horder hnul (by omega) (fun k hk hk' => ?_)
      (fun k hk hk' => ?_) hi hneg (if_neg hnot))
    · rw [guarded, hostileAt_entry hk hk' (by omega) hfits]
      split
      · exact .inr rfl
      · exact .inl rfl
    · rw [guarded, if_pos (hinside k hk hk')]
      exact nofun
  · exact hnot (hinside i (by omega) hi')

end Validated

/-- A directory in page 1 that maps page 3 at `USTABDATA`, through the page table 2. -/
def onePage : Phys :=
  ((Phys.blank 4).setWord 1 (pdx ustabdata) (mkPte 2 pteU)).setWord 2 (ptx ustabdata) (mkPte 3 pteU)

end Jos.Kdebug
