import Jos.Kernel.Kdebug
import Mathlib.Data.Int.LeastGreatest

/-!
# The contract of `stab_binsearch`

The search goes on behind an exact match with the next address, to find the right end of the
region. Where an entry has this address too, the search takes it for another exact match, unless
the bisection has cut it off before it came to the first match. And where all entries of the type
are above the address, the left bound is not moved behind the right one.
-/

namespace Jos.Kdebug

/-- The entries of the type are in increasing order by their values. -/
def Sorted (st : Int → Stab) (type : Byte) (L R : Int) : Prop :=
  ∀ i j, L ≤ i → i ≤ j → j ≤ R → (st i).type = type → (st j).type = type →
    (st i).value ≤ (st j).value

/-- The bounds enclose `addr`: the left one is the last entry of the type that is not above it,
and the right one comes before the next entry of the type. -/
structure Brackets (st : Int → Stab) (type : Byte) (L R : Int) (addr : Word) (left right : Int) :
    Prop where
  order : left ≤ right
  low : L ≤ left
  high : left ≤ R
  type_eq : (st left).type = type
  value : (st left).value ≤ addr
  last : ∀ i, left < i → i ≤ R → (st i).type = type → addr < (st i).value
  between : ∀ i, left < i → i ≤ right → (st i).type ≠ type
  next : right = R ∨ right < R ∧ (st (right + 1)).type = type

/-- What the comment above `stab_binsearch` says. -/
def Contract (st : Int → Stab) (type : Byte) (L R : Int) (addr : Word) (res : Int × Int) : Prop :=
  Brackets st type L R addr res.1 res.2 ∨
    res.2 < res.1 ∧ ∀ i, L ≤ i → i ≤ R → (st i).type = type → addr < (st i).value

/-- The first entry of the type with the value `w`. -/
structure First (st : Int → Stab) (type : Byte) (L R : Int) (w : Word) (i : Int) : Prop where
  low : L ≤ i
  high : i ≤ R
  type_eq : (st i).type = type
  value : (st i).value = w
  before : ∀ j, L ≤ j → j < i → (st j).type = type → (st j).value ≠ w

/-- Among the entries from `a` to `b`, a bisection of the interval from `l` to `r` looks at the
entry `m` first, when the right end is `r'`. -/
inductive Looks (st : Int → Stab) (type : Byte) (a b : Int) : Int → Int → Int → Int → Prop
  | here {l r m : Int} (hlr : l ≤ r) (h : Latest st type l ((l + r).tdiv 2) m) (ha : a ≤ m)
      (hb : m ≤ b) : Looks st type a b l r m r
  | right {l r m r' : Int} (hlr : l ≤ r)
      (h : ∀ i, l ≤ i → i ≤ (l + r).tdiv 2 → (st i).type = type → i < a)
      (rest : Looks st type a b ((l + r).tdiv 2 + 1) r m r') : Looks st type a b l r m r'
  | left {l r k m r' : Int} (hlr : l ≤ r) (h : Latest st type l ((l + r).tdiv 2) k) (hb : b < k)
      (rest : Looks st type a b l (k - 1) m r') : Looks st type a b l r m r'

/-- Where `addr` and `addr + 1` both occur, the bisection looks at the first entry with the value
`addr + 1` before it looks at any with `addr`. At the end of the address space there is another
way: the second match wraps the address to zero and the right bound comes before that match. -/
def Separated (st : Int → Stab) (type : Byte) (L R : Int) (addr : Word) : Prop :=
  ∀ a b, First st type L R addr a → First st type L R (addr + 1) b →
    ∃ m r, Looks st type a b L R m r ∧
      (m = b ∨ addr + 1 = 0xFFFFFFFF ∧ (st (b - 1)).type = type ∧
        ∃ r', Looks st type b R m r b r')

/-- There is no entry of the type, or there is one that is not above `addr`, and `addr` is
separated from the next address. -/
def Findable (st : Int → Stab) (type : Byte) (L R : Int) (addr : Word) : Prop :=
  (∀ i, L ≤ i → i ≤ R → (st i).type ≠ type) ∨
    (∃ i, L ≤ i ∧ i ≤ R ∧ (st i).type = type ∧ (st i).value ≤ addr) ∧
      Separated st type L R addr

section Search

variable {st : Int → Stab} {type : Byte} {L R : Int} {addr : Word} {s s' : Search}

theorem Sorted.lt (hs : Sorted st type L R) {i j : Int} (hi' : i ≤ R) (hj : L ≤ j)
    (ti : (st i).type = type) (tj : (st j).type = type)
    (hv : (st i).value < (st j).value) : i < j := by
  by_contra hle
  have := hs j i hj (by omega) hi' tj ti
  rw [BitVec.le_def] at this
  rw [BitVec.lt_def] at hv
  omega

theorem First.le {w : Word} {i j : Int} (h : First st type L R w i) (hj : L ≤ j)
    (tj : (st j).type = type) (hv : (st j).value = w) : i ≤ j := by
  by_contra hlt
  exact h.before j hj (by omega) tj hv

theorem First.unique {w : Word} {i j : Int} (h : First st type L R w i)
    (h' : First st type L R w j) : i = j :=
  Int.le_antisymm (h.le h'.low h'.type_eq h'.value) (h'.le h.low h.type_eq h.value)

theorem First.exists {w : Word} {i : Int} (hi : L ≤ i) (hi' : i ≤ R) (ti : (st i).type = type)
    (hv : (st i).value = w) : ∃ j, First st type L R w j := by
  obtain ⟨j, ⟨hj, hj', tj, hvj⟩, hleast⟩ := @Int.exists_least_of_bdd
    (fun j => L ≤ j ∧ j ≤ R ∧ (st j).type = type ∧ (st j).value = w)
    ⟨L, fun _ h => h.1⟩ ⟨i, hi, hi', ti, hv⟩
  refine ⟨j, hj, hj', tj, hvj, fun k hk hkj tk hvk => ?_⟩
  have := hleast k ⟨hk, by omega, tk, hvk⟩
  omega

theorem Latest.unique {l m i j : Int} (h : Latest st type l m i) (h' : Latest st type l m j) :
    i = j := by
  rcases Int.lt_trichotomy i j with hlt | heq | hlt
  · exact absurd h'.type_eq (h.after j hlt h'.high)
  · exact heq
  · exact absurd h.type_eq (h'.after i hlt h.high)

/-- The bisection looks at one entry first. -/
theorem Looks.unique {a b l r m m' k k' : Int} (hab : a ≤ b) (h : Looks st type a b l r m k)
    (h' : Looks st type a b l r m' k') : m = m' ∧ k = k' := by
  induction h with
  | here hlr hm ha hb =>
      cases h' with
      | here _ hm' => exact ⟨hm.unique hm', rfl⟩
      | right _ hnone => exact absurd (hnone _ hm.low hm.high hm.type_eq) (by omega)
      | left _ hk hlt => exact absurd (hm.unique hk) (by omega)
  | right hlr hnone _ ih =>
      cases h' with
      | here _ hm' ha => exact absurd (hnone _ hm'.low hm'.high hm'.type_eq) (by omega)
      | right _ _ rest => exact ih rest
      | left _ hk hlt => exact absurd (hnone _ hk.low hk.high hk.type_eq) (by omega)
  | left hlr hk hlt _ ih =>
      cases h' with
      | here _ hm' ha hb => exact absurd (hm'.unique hk) (by omega)
      | right _ hnone => exact absurd (hnone _ hk.low hk.high hk.type_eq) (by omega)
      | left _ hk' _ rest =>
          obtain rfl := hk.unique hk'
          exact ih rest

/-! ### The phases of the search -/

/-- As long as the search has not gone beyond `addr`: the entries behind the interval are above
`addr`, and the right bound comes before the first of them. -/
structure Cut (st : Int → Stab) (type : Byte) (L R : Int) (addr : Word) (s : Search) : Prop where
  low : L ≤ s.l
  high : s.r ≤ R
  above : ∀ i, s.r < i → i ≤ R → (st i).type = type → addr < (st i).value
  right : s.r ≤ s.right
  between : ∀ i, s.r < i → i ≤ s.right → (st i).type ≠ type
  next : s.right = R ∨ s.right < R ∧ (st (s.right + 1)).type = type

/-- The left bound is the last entry of the type before the interval. -/
structure LastBelow (st : Int → Stab) (type : Byte) (L : Int) (addr : Word) (s : Search) :
    Prop where
  low : L ≤ s.left
  type_eq : (st s.left).type = type
  value : (st s.left).value ≤ addr
  between : ∀ i, s.left < i → i < s.l → (st i).type ≠ type

/-- No entry with the value `addr` has been found. -/
structure Searching (st : Int → Stab) (type : Byte) (L R : Int) (addr : Word) (s : Search) :
    Prop where
  cut : Cut st type L R addr s
  addr_eq : s.addr = addr
  below : ∀ i, L ≤ i → i < s.l → (st i).type = type → (st i).value < addr
  left : s.left = L ∧ (∀ i, L ≤ i → i < s.l → (st i).type ≠ type) ∨
    LastBelow st type L addr s ∧ s.left < s.l
  unmatched : s.anyMatches = false →
    s.left = L ∧ ∀ i, L ≤ i → i ≤ R → i < s.l ∨ s.r < i → (st i).type ≠ type
  matched : s.anyMatches = true → ∃ i, L ≤ i ∧ i ≤ R ∧ (st i).type = type
  looks : ∀ a b, First st type L R addr a → First st type L R (addr + 1) b →
    s.r < b ∧ (∃ r', Looks st type a b L R b r') ∨
      b ≤ s.r ∧ ∀ m r', Looks st type a b s.l s.r m r' → Looks st type a b L R m r'

/-- An entry with the value `addr` has been found, and none with the next value is left. -/
structure Closing (st : Int → Stab) (type : Byte) (L R : Int) (addr : Word) (s : Search) :
    Prop where
  cut : Cut st type L R addr s
  last : LastBelow st type L addr s
  addr_eq : s.addr = addr + 1
  matched : s.anyMatches = true
  left : s.left ≤ s.l
  gone : ∀ i, s.l ≤ i → i ≤ s.r → (st i).type = type → (st i).value ≠ addr + 1
  separated : Separated st type L R addr

/-- An entry with the value `addr` has been found, and the first one with the next value, `b`,
is still in the interval. -/
structure Overrunning (st : Int → Stab) (type : Byte) (L R : Int) (addr : Word) (a b e r : Int)
    (s : Search) : Prop where
  low : L ≤ s.l
  high : s.r ≤ R
  right : s.r ≤ s.right
  addr_eq : s.addr = addr + 1
  matched : s.anyMatches = true
  left : s.left ≤ s.l
  left_low : L ≤ s.left
  type_eq : (st s.left).type = type
  value : (st s.left).value ≤ addr
  first : First st type L R addr a
  second : First st type L R (addr + 1) b
  inside : s.l ≤ b ∧ b ≤ s.r
  looks : Looks st type a b L R e r
  ne : e ≠ b
  track : addr + 1 = 0xFFFFFFFF → ∀ m r', Looks st type b R s.l s.r m r' →
    Looks st type b R e r m r'

/-- The left bound is an entry above `addr`. -/
structure Overrun (st : Int → Stab) (type : Byte) (L R : Int) (addr : Word) (s : Search) :
    Prop where
  low : L ≤ s.left
  high : s.r ≤ R
  right : s.r ≤ s.right
  matched : s.anyMatches = true
  left : s.left ≤ s.l
  order : s.left ≤ s.r
  type_eq : (st s.left).type = type
  above : addr < (st s.left).value
  below : (st s.left).value < s.addr
  lost : ¬Findable st type L R addr

/-- The address has been wrapped to zero by a match at the end of the address space. Both bounds
will be the entry before that match. -/
structure Wrapped (st : Int → Stab) (type : Byte) (L R : Int) (addr : Word) (s : Search) :
    Prop where
  low : L ≤ s.l
  high : s.r ≤ R
  inside : s.l ≤ R
  addr_eq : s.addr = 0
  matched : s.anyMatches = true
  left : s.left = s.l
  type_eq : (st s.l).type = type
  value : (st s.l).value = 0xFFFFFFFF
  right : s.l ≤ s.r ∨ s.right = s.l - 1
  outcome :
    (¬Findable st type L R addr ∧ ∃ i, L ≤ i ∧ i < s.l ∧ (st i).type = type ∧
      addr < (st i).value) ∨
    addr + 1 = 0xFFFFFFFF ∧ ∃ a b e r r', First st type L R addr a ∧
      First st type L R (addr + 1) b ∧ Looks st type a b L R e r ∧ e ≠ b ∧
      Looks st type b R e r s.l r'

/-- The state of the search after any number of rounds. -/
inductive Phase (st : Int → Stab) (type : Byte) (L R : Int) (addr : Word) (s : Search) : Prop
  | searching (h : Searching st type L R addr s)
  | closing (h : Closing st type L R addr s)
  | overrunning {a b e r : Int} (h : Overrunning st type L R addr a b e r s)
  | overrun (h : Overrun st type L R addr s)
  | wrapped (h : Wrapped st type L R addr s)

theorem Phase.bounds (h : Phase st type L R addr s) : L ≤ s.l ∧ s.r ≤ R := by
  cases h with
  | searching h => exact ⟨h.cut.low, h.cut.high⟩
  | closing h => exact ⟨h.cut.low, h.cut.high⟩
  | overrunning h => exact ⟨h.low, h.high⟩
  | overrun h => exact ⟨Int.le_trans h.low h.left, h.high⟩
  | wrapped h => exact ⟨h.low, h.high⟩

/-- The right end has not moved. -/
theorem Cut.keep (h : Cut st type L R addr s) (hl : L ≤ s'.l) (hr : s'.r = s.r)
    (hright : s'.right = s.right) : Cut st type L R addr s' := by
  obtain ⟨-, high, above, right, between, next⟩ := h
  exact ⟨hl, hr ▸ high, hr ▸ above, by omega, by rw [hr, hright]; exact between, hright ▸ next⟩

/-- The right end has moved before an entry above `addr`. -/
theorem Cut.move (hs : Sorted st type L R) {m : Int} (hl : L ≤ s'.l) (hm : L ≤ m) (hm' : m ≤ R)
    (tm : (st m).type = type) (hv : addr < (st m).value) (hr : s'.r = m - 1)
    (hright : s'.right = m - 1) : Cut st type L R addr s' := by
  refine ⟨hl, by omega, fun i hi hi' ti => ?_, by omega, fun i hi hi' => by omega, .inr ?_⟩
  · have := hs m i hm (by omega) hi' tm ti
    rw [BitVec.lt_def] at hv ⊢
    rw [BitVec.le_def] at this
    omega
  · rw [hright]
    exact ⟨by omega, by rwa [show m - 1 + 1 = m by omega]⟩

theorem toNat_succ (haddr : addr.toNat < 4294967295) : (addr + 1).toNat = addr.toNat + 1 := by
  rw [BitVec.toNat_add, show (1 : Word).toNat = 1 from rfl]
  omega

/-- A match begins the second half of the search. -/
theorem Searching.found (hs : Sorted st type L R) (haddr : addr.toNat < 4294967295)
    (h : Searching st type L R addr s) (hlr : s.l ≤ s.r) {m : Int}
    (hm : Latest st type s.l s.trueM m) (hv : (st m).value = s.addr) :
    Phase st type L R addr
      { s with anyMatches := true, left := m, l := m, addr := s.addr + 1 } := by
  have hnext := toNat_succ haddr
  obtain ⟨hmid, hmid'⟩ := Search.trueM_bounds hlr
  have hlow := h.cut.low
  have hhigh := h.cut.high
  have hml := hm.low
  have hmr := hm.high
  have hvm : (st m).value = addr := hv.trans h.addr_eq
  have hcut : Cut st type L R addr
      { s with anyMatches := true, left := m, l := m, addr := s.addr + 1 } :=
    h.cut.keep (by dsimp only; omega) rfl rfl
  by_cases hgone : ∀ i, m ≤ i → i ≤ s.r → (st i).type = type → (st i).value ≠ addr + 1
  · -- no entry has the next address, so there will not be another match
    refine .closing ⟨hcut, ?_, congrArg (· + 1) h.addr_eq, rfl, Int.le_refl _, hgone, ?_⟩
    · exact ⟨by dsimp only; omega, hm.type_eq, hvm ▸ BitVec.le_refl _,
        fun i hi hi' => absurd hi (by dsimp only at hi' ⊢; omega)⟩
    · intro a b ha hb
      rcases h.looks a b ha hb with ⟨-, r', hlooks⟩ | ⟨hbr, -⟩
      · exact ⟨b, r', hlooks, .inl rfl⟩
      · have hmb : m < b := by
          refine hs.lt (by omega) hb.low hm.type_eq hb.type_eq ?_
          rw [hvm, hb.value, BitVec.lt_def]
          omega
        exact absurd hb.value (hgone b (by omega) hbr hb.type_eq)
  · push Not at hgone
    obtain ⟨i, hmi, hir, ti, hvi⟩ := hgone
    obtain ⟨a, ha⟩ : ∃ a, First st type L R addr a :=
      First.exists (by omega) (by omega) hm.type_eq hvm
    obtain ⟨b, hb⟩ : ∃ b, First st type L R (addr + 1) b :=
      First.exists (by omega) (by omega) ti hvi
    have hmb : m < b := by
      refine hs.lt (by omega) hb.low hm.type_eq hb.type_eq ?_
      rw [hvm, hb.value, BitVec.lt_def]
      omega
    have hbi := hb.le (by omega) ti hvi
    have ham := ha.le (by omega) hm.type_eq hvm
    have hlooks : Looks st type a b L R m s.r := by
      rcases h.looks a b ha hb with ⟨hrb, -⟩ | ⟨-, hlooks⟩
      · omega
      · exact hlooks m s.r (.here hlr hm ham (by omega))
    exact .overrunning (a := a) (b := b) (e := m) (r := s.r)
      ⟨by dsimp only; omega, hhigh, h.cut.right, congrArg (· + 1) h.addr_eq, rfl, Int.le_refl _,
        by dsimp only; omega, hm.type_eq, hvm ▸ BitVec.le_refl _, ha, hb,
        ⟨by dsimp only; omega, by dsimp only; omega⟩, hlooks, by omega, fun _ _ _ h => h⟩

theorem Searching.round (hs : Sorted st type L R) (haddr : addr.toNat < 4294967295)
    (h : Searching st type L R addr s) (hlr : s.l ≤ s.r) (hr : Round st type s s') :
    Phase st type L R addr s' := by
  obtain ⟨hmid, hmid'⟩ := Search.trueM_bounds hlr
  have hnext := toNat_succ haddr
  have hlow := h.cut.low
  have hhigh := h.cut.high
  cases hr with
  | exact hm hv => exact h.found hs haddr hlr hm hv
  | none hnone =>
      have hsplit : ∀ i, i < s.trueM + 1 → ¬i < s.l → (st i).type ≠ type :=
        fun i hi hi' => hnone i (by omega) (by omega)
      refine .searching ⟨h.cut.keep (by dsimp only; omega) rfl rfl, h.addr_eq, ?_, ?_, ?_,
        h.matched, ?_⟩
      · intro i hi hi' ti
        by_cases hil : i < s.l
        · exact h.below i hi hil ti
        · exact absurd ti (hsplit i hi' hil)
      · rcases h.left with ⟨heq, hnone'⟩ | ⟨⟨hleft, tl, hvl, hbetween⟩, hlt⟩
        · refine .inl ⟨heq, fun i hi hi' => ?_⟩
          by_cases hil : i < s.l
          · exact hnone' i hi hil
          · exact hsplit i hi' hil
        · refine .inr ⟨⟨hleft, tl, hvl, fun i hi hi' => ?_⟩, by dsimp only; omega⟩
          by_cases hil : i < s.l
          · exact hbetween i hi hil
          · exact hsplit i hi' hil
      · intro hany
        obtain ⟨heq, hnone'⟩ := h.unmatched hany
        refine ⟨heq, fun i hi hi' hout => ?_⟩
        by_cases hil : i < s.l
        · exact hnone' i hi hi' (.inl hil)
        · rcases hout with hout | hout
          · exact hsplit i hout hil
          · exact hnone' i hi hi' (.inr hout)
      · intro a b ha hb
        refine (h.looks a b ha hb).imp id fun ⟨hbr, hlooks⟩ => ⟨hbr, fun m r' hrest => ?_⟩
        exact hlooks m r' (.right hlr (fun i hi hi' ti => absurd ti (hnone i hi hi')) hrest)
  | @below m hm hv =>
      have hml := hm.low
      have hmr := hm.high
      have tm := hm.type_eq
      have hvm : (st m).value < addr := h.addr_eq ▸ hv
      have hsplit : ∀ i, m < i → i < s.trueM + 1 → (st i).type ≠ type :=
        fun i hi hi' => hm.after i hi (by omega)
      refine .searching ⟨h.cut.keep (by dsimp only; omega) rfl rfl, h.addr_eq, ?_,
        .inr ⟨⟨?_, tm, ?_, hsplit⟩, ?_⟩, nofun, fun _ => ⟨m, by omega, by omega, tm⟩, ?_⟩
      · intro i hi hi' ti
        have him : i ≤ m := by
          by_contra hlt
          exact hsplit i (by omega) hi' ti
        have hle := hs i m hi him (by omega) ti tm
        rw [BitVec.lt_def] at hvm ⊢
        rw [BitVec.le_def] at hle
        omega
      · dsimp only
        omega
      · exact BitVec.le_of_lt hvm
      · dsimp only
        omega
      · intro a b ha hb
        refine (h.looks a b ha hb).imp id fun ⟨hbr, hlooks⟩ => ⟨hbr, fun k r' hrest => ?_⟩
        refine hlooks k r' (.right hlr (fun i hi (hi' : i ≤ s.trueM) ti => ?_) hrest)
        refine hs.lt (by omega) ha.low ti ha.type_eq ?_
        have him : i ≤ m := by
          by_contra hlt
          exact hsplit i (by omega) (Int.lt_add_one_of_le hi') ti
        have hle := hs i m (by omega) him (by omega) ti tm
        rw [ha.value]
        rw [BitVec.lt_def] at hvm ⊢
        rw [BitVec.le_def] at hle
        omega
  | @above m hm hv =>
      have hml := hm.low
      have hmr := hm.high
      have tm := hm.type_eq
      have hvm : addr < (st m).value := h.addr_eq ▸ hv
      have hleft := h.left.imp id fun (⟨⟨hlow, tl, hvl, hbetween⟩, hlt⟩) =>
        (⟨⟨hlow, tl, hvl, hbetween⟩, hlt⟩ : LastBelow st type L addr
          { s with anyMatches := true, right := m - 1, r := m - 1 } ∧ s.left < s.l)
      refine .searching ⟨?_, h.addr_eq, h.below, hleft, nofun,
        fun _ => ⟨m, by omega, by omega, tm⟩, ?_⟩
      · exact Cut.move hs hlow (by omega) (by omega) tm hvm rfl rfl
      · intro a b ha hb
        have hab : a < b := by
          refine hs.lt ha.high hb.low ha.type_eq hb.type_eq ?_
          rw [ha.value, hb.value, BitVec.lt_def]
          omega
        rcases h.looks a b ha hb with ⟨hrb, hlooks⟩ | ⟨hbr, hlooks⟩
        · exact .inl ⟨by dsimp only; omega, hlooks⟩
        · rcases Int.lt_trichotomy m b with hlt | rfl | hlt
          · -- an entry between `addr` and the first one with the next value
            have hle := hs m b (by omega) (by omega) hb.high tm hb.type_eq
            refine absurd (BitVec.eq_of_toNat_eq ?_) (hb.before m (by omega) hlt tm)
            rw [hb.value, BitVec.le_def] at hle
            rw [BitVec.lt_def] at hvm
            omega
          · refine .inl ⟨by dsimp only; omega, s.r, ?_⟩
            exact hlooks m s.r (.here hlr hm (by omega) (Int.le_refl _))
          · refine .inr ⟨by dsimp only; omega, fun k r' hrest => ?_⟩
            exact hlooks k r' (.left hlr hm hlt hrest)

theorem Closing.round (hs : Sorted st type L R) (haddr : addr.toNat < 4294967295)
    (h : Closing st type L R addr s) (hlr : s.l ≤ s.r) (hr : Round st type s s') :
    Closing st type L R addr s' := by
  obtain ⟨hmid, hmid'⟩ := Search.trueM_bounds hlr
  have hnext := toNat_succ haddr
  obtain ⟨cut, ⟨hleft, tl, hvl, hbetween⟩, haddr', hany, hll, hgone, hsep⟩ := h
  have hlow := cut.low
  have hhigh := cut.high
  cases hr with
  | exact hm hv =>
      exact absurd (hv.trans haddr') (hgone _ hm.low (by have := hm.high; omega) hm.type_eq)
  | none hnone =>
      refine ⟨cut.keep (by dsimp only; omega) rfl rfl, ⟨hleft, tl, hvl, fun i hi hi' => ?_⟩, haddr',
        hany, by dsimp only; omega, fun i hi => hgone i (by dsimp only at hi; omega), hsep⟩
      by_cases hil : i < s.l
      · exact hbetween i hi hil
      · exact hnone i (by omega) (Int.le_of_lt_add_one hi')
  | @below m hm hv =>
      have hml := hm.low
      have hmr := hm.high
      have hvm : (st m).value ≤ addr := by
        rw [haddr', BitVec.lt_def] at hv
        rw [BitVec.le_def]
        omega
      exact ⟨cut.keep (by dsimp only; omega) rfl rfl,
        ⟨by dsimp only; omega, hm.type_eq, hvm, fun i hi hi' => hm.after i hi
          (Int.le_of_lt_add_one hi')⟩, haddr', rfl, by dsimp only; omega,
        fun i hi => hgone i (by dsimp only at hi; omega), hsep⟩
  | @above m hm hv =>
      have hml := hm.low
      have hmr := hm.high
      have hvm : addr < (st m).value := by
        rw [haddr', BitVec.lt_def] at hv
        rw [BitVec.lt_def]
        omega
      exact ⟨Cut.move hs hlow (by omega) (by omega) hm.type_eq hvm rfl rfl,
        ⟨hleft, tl, hvl, hbetween⟩, haddr', rfl, hll,
        fun i hi hi' => hgone i hi (by dsimp only at hi'; omega), hsep⟩

/-- A search that finds an entry with the value `addr` first has lost, but for the end of the
address space. -/
theorem Overrunning.lost {a b e r : Int} (h : Overrunning st type L R addr a b e r s)
    (hs : Sorted st type L R) (haddr : addr.toNat < 4294967294) :
    ¬Findable st type L R addr := by
  have hnext := @toNat_succ addr (by omega)
  rintro (hnone | ⟨-, hsep⟩)
  · exact hnone a h.first.low h.first.high h.first.type_eq
  · have hab : a < b := by
      refine hs.lt h.first.high h.second.low h.first.type_eq h.second.type_eq ?_
      rw [h.first.value, h.second.value, BitVec.lt_def]
      omega
    obtain ⟨m, r', hlooks, hm | ⟨hmax, -⟩⟩ := hsep a b h.first h.second
    · exact h.ne ((h.looks.unique (Int.le_of_lt hab) hlooks).1.trans hm)
    · rw [hmax, show (0xFFFFFFFF : Word).toNat = 4294967295 from rfl] at hnext
      omega

theorem Overrunning.round {a b e r : Int} (hs : Sorted st type L R)
    (haddr : addr.toNat < 4294967295) (h : Overrunning st type L R addr a b e r s)
    (hlr : s.l ≤ s.r) (hr : Round st type s s') : Phase st type L R addr s' := by
  obtain ⟨hmid, hmid'⟩ := Search.trueM_bounds hlr
  have hnext := toNat_succ haddr
  have hlost := h.lost hs
  obtain ⟨hlow, hhigh, hright, haddr', hany, hll, hleft, tl, hvl, ha, hb, ⟨hbl, hbr⟩, hlooks, hne,
    htrack⟩ := h
  have hvb : (st b).value.toNat = addr.toNat + 1 := by rw [hb.value, hnext]
  cases hr with
  | none hnone =>
      have hbm : s.trueM < b := by
        by_contra hle
        exact hnone b hbl (by omega) hb.type_eq
      refine .overrunning ⟨by dsimp only; omega, hhigh, hright, haddr', hany, by dsimp only; omega,
        hleft, tl, hvl, ha, hb, ⟨by dsimp only; omega, hbr⟩, hlooks, hne, fun hmax m r' hrest => ?_⟩
      exact htrack hmax m r' (.right hlr (fun i hi hi' ti => absurd ti (hnone i hi hi')) hrest)
  | @below m hm hv =>
      have hml := hm.low
      have hmr := hm.high
      have tm := hm.type_eq
      have hvm : (st m).value.toNat ≤ addr.toNat := by
        rw [haddr', BitVec.lt_def] at hv
        omega
      have hmb : m < b := by
        refine hs.lt (by omega) hb.low tm hb.type_eq ?_
        rw [BitVec.lt_def]
        omega
      have hbm : s.trueM < b := by
        by_contra hle
        exact hm.after b hmb (by omega) hb.type_eq
      refine .overrunning ⟨by dsimp only; omega, hhigh, hright, haddr', rfl, by dsimp only; omega,
        by dsimp only; omega, tm, BitVec.le_def.mpr hvm, ha, hb, ⟨by dsimp only; omega, hbr⟩,
        hlooks, hne, fun hmax k r' hrest => ?_⟩
      refine htrack hmax k r' (.right hlr (fun i hi (hi' : i ≤ s.trueM) ti => ?_) hrest)
      omega
  | @above m hm hv =>
      have hml := hm.low
      have hmr := hm.high
      have tm := hm.type_eq
      have hvm : addr.toNat + 1 < (st m).value.toNat := by
        rw [haddr', BitVec.lt_def] at hv
        omega
      have hbm : b < m := by
        refine hs.lt hb.high (by omega) hb.type_eq tm ?_
        rw [BitVec.lt_def]
        omega
      refine .overrunning ⟨hlow, by dsimp only; omega, Int.le_refl _, haddr', rfl, hll, hleft, tl,
        hvl, ha, hb, ⟨hbl, by dsimp only; omega⟩, hlooks, hne, fun hmax k r' hrest => ?_⟩
      rw [hmax, show (0xFFFFFFFF : Word).toNat = 4294967295 from rfl] at hnext
      have := (st m).value.isLt
      omega
  | @exact m hm hv =>
      have hml := hm.low
      have hmr := hm.high
      have tm := hm.type_eq
      have hvm : (st m).value = addr + 1 := hv.trans haddr'
      have hbm := hb.le (by omega) tm hvm
      by_cases hmax : addr + 1 = 0xFFFFFFFF
      · -- the address is wrapped to zero
        refine .wrapped ⟨by dsimp only; omega, hhigh, by dsimp only; omega, ?_, rfl, rfl, tm,
          hvm.trans hmax, .inl (by dsimp only; omega), .inr ⟨hmax, a, b, e, r, s.r, ha, hb, hlooks,
            hne, ?_⟩⟩
        · dsimp only
          rw [haddr', hmax]
          rfl
        · exact htrack hmax m s.r (.here hlr hm hbm (by omega))
      · have hlt : addr.toNat + 1 < 4294967295 := by
          have hne' : (addr + 1).toNat ≠ 4294967295 := fun heq =>
            hmax (BitVec.eq_of_toNat_eq heq)
          omega
        refine .overrun ⟨by dsimp only; omega, hhigh, hright, rfl, Int.le_refl _,
          by dsimp only; omega, tm, ?_, ?_, hlost (by omega)⟩
        · rw [hvm, BitVec.lt_def]
          omega
        · dsimp only
          rw [hvm, haddr', BitVec.lt_def, @toNat_succ (addr + 1) (by omega)]
          omega

theorem Overrun.round (hs : Sorted st type L R) (h : Overrun st type L R addr s)
    (hlr : s.l ≤ s.r) (hr : Round st type s s') : Phase st type L R addr s' := by
  obtain ⟨hmid, hmid'⟩ := Search.trueM_bounds hlr
  obtain ⟨hlow, hhigh, hright, hany, hll, horder, tl, habove, hbelow, hlost⟩ := h
  -- every entry that is looked at is above `addr` too
  have hvalue : ∀ {m}, Latest st type s.l s.trueM m → addr < (st m).value := by
    intro m hm
    have hle := hs _ _ hlow (by have := hm.low; omega) (by have := hm.high; omega) tl hm.type_eq
    rw [BitVec.le_def] at hle
    rw [BitVec.lt_def] at habove ⊢
    omega
  cases hr with
  | none hnone =>
      exact .overrun ⟨hlow, hhigh, hright, hany, by dsimp only; omega, horder, tl, habove, hbelow,
        hlost⟩
  | @below m hm hv =>
      have hml := hm.low
      have hmr := hm.high
      exact .overrun ⟨by dsimp only; omega, hhigh, hright, rfl, by dsimp only; omega,
        by dsimp only; omega, hm.type_eq, hvalue hm, hv, hlost⟩
  | @above m hm hv =>
      have hml := hm.low
      have hmr := hm.high
      have hne : s.left ≠ m := by
        rintro heq
        rw [← heq, BitVec.lt_def] at hv
        rw [BitVec.lt_def] at hbelow
        omega
      exact .overrun ⟨hlow, by dsimp only; omega, Int.le_refl _, rfl, hll, by dsimp only; omega, tl,
        habove, hbelow, hlost⟩
  | @exact m hm hv =>
      have hml := hm.low
      have hmr := hm.high
      by_cases hmax : s.addr = 0xFFFFFFFF
      · have hne : s.left ≠ m := by
          rintro heq
          rw [← hv, ← heq, BitVec.lt_def] at hbelow
          omega
        refine .wrapped ⟨by dsimp only; omega, hhigh, by dsimp only; omega, ?_, rfl, rfl,
          hm.type_eq, hv.trans hmax, .inl (by dsimp only; omega),
          .inl ⟨hlost, s.left, hlow, by dsimp only; omega, tl, habove⟩⟩
        dsimp only
        rw [hmax]
        rfl
      · have hlt : s.addr.toNat < 4294967295 := by
          have hne' : s.addr.toNat ≠ 4294967295 := fun heq => hmax (BitVec.eq_of_toNat_eq heq)
          have := s.addr.isLt
          omega
        refine .overrun ⟨by dsimp only; omega, hhigh, hright, rfl, Int.le_refl _,
          by dsimp only; omega, hm.type_eq, hvalue hm, ?_, hlost⟩
        dsimp only
        rw [hv, BitVec.lt_def, toNat_succ hlt]
        omega

theorem Wrapped.round (hs : Sorted st type L R) (h : Wrapped st type L R addr s)
    (hlr : s.l ≤ s.r) (hr : Round st type s s') : Wrapped st type L R addr s' := by
  obtain ⟨hmid, hmid'⟩ := Search.trueM_bounds hlr
  obtain ⟨hlow, hhigh, hinside, haddr', hany, hleft, tl, hvl, hright, hout⟩ := h
  -- all entries of the type in the interval have the greatest value
  have hvalue : ∀ {m}, Latest st type s.l s.trueM m → (st m).value.toNat = 4294967295 := by
    intro m hm
    have hle := hs _ _ hlow hm.low (by have := hm.high; omega) tl hm.type_eq
    rw [hvl, BitVec.le_def, show (0xFFFFFFFF : Word).toNat = 4294967295 from rfl] at hle
    have := (st m).value.isLt
    omega
  cases hr with
  | none hnone => exact absurd tl (hnone _ (Int.le_refl _) hmid)
  | @below m hm hv =>
      rw [haddr', BitVec.lt_def, show (0 : Word).toNat = 0 from rfl] at hv
      omega
  | @above m hm hv =>
      have hml := hm.low
      have hmr := hm.high
      refine ⟨hlow, by dsimp only; omega, hinside, haddr', rfl, hleft, tl, hvl, ?_, hout⟩
      dsimp only
      omega
  | @exact m hm hv =>
      have hval := hvalue hm
      rw [hv, haddr', show (0 : Word).toNat = 0 from rfl] at hval
      omega

theorem Phase.round (hs : Sorted st type L R) (haddr : addr.toNat < 4294967295)
    (h : Phase st type L R addr s) (hlr : s.l ≤ s.r) (hr : Round st type s s') :
    Phase st type L R addr s' := by
  cases h with
  | searching h => exact h.round hs haddr hlr hr
  | closing h => exact .closing (h.round hs haddr hlr hr)
  | overrunning h => exact h.round hs haddr hlr hr
  | overrun h => exact h.round hs hlr hr
  | wrapped h => exact .wrapped (h.round hs hlr hr)

/-! ### The end of the search -/

variable {stabs : Int → Option Stab} {res : Int × Int}

/-- Bounds that begin with an entry of the type at or below `addr` are right. -/
theorem Cut.brackets (h : Cut st type L R addr s) (hend : s.r < s.l)
    (hlast : LastBelow st type L addr s) (hleft : s.left ≤ R)
    (hresult : s.Matched st type res) :
    Brackets st type L R addr res.1 res.2 := by
  obtain ⟨hlow, hhigh, habove, hright, hbetween, hnext⟩ := h
  obtain ⟨hleftL, tl, hvl, hempty⟩ := hlast
  obtain ⟨hres, hfirst⟩ := hresult
  -- the left bound is not behind the interval, where the entries are above `addr`
  have hlr : ¬s.r < s.left := by
    intro hlt
    have := habove _ hlt hleft tl
    rw [BitVec.lt_def] at this
    rw [BitVec.le_def] at hvl
    omega
  have heq : res.1 = s.left := by
    rcases hfirst with ⟨hlt, -⟩ | ⟨hge, hle, -, heq | ht⟩
    · omega
    · exact heq
    · by_contra hne
      by_cases hil : res.1 < s.l
      · exact hempty _ (by omega) hil ht
      · exact hbetween _ (by omega) hle ht
  rw [heq, hres]
  refine ⟨by omega, hleftL, by omega, tl, hvl, fun i hi hi' ti => ?_, fun i hi hi' => ?_, hnext⟩
  · exact habove i (by by_contra hle; exact hempty i hi (by omega) ti) hi' ti
  · by_cases hil : i < s.l
    · exact hempty i hi hil
    · exact hbetween i (by omega) hi'

/-- Bounds that begin at or behind an entry above `addr` are wrong. -/
theorem not_contract (hs : Sorted st type L R) {i : Int} (hi : L ≤ i) (ti : (st i).type = type)
    (hv : addr < (st i).value) (hfirst : i ≤ res.1) (horder : res.1 ≤ res.2) :
    ¬Contract st type L R addr res := by
  rintro (h | ⟨hlt, -⟩)
  · have hle := hs i res.1 hi hfirst h.high ti h.type_eq
    have hval := h.value
    rw [BitVec.le_def] at hle hval
    rw [BitVec.lt_def] at hv
    omega
  · omega

theorem Searching.contract_iff (h : Searching st type L R addr s) (hend : s.r < s.l)
    (hleft : s.anyMatches = true → s.left ≤ R)
    (hres : s.anyMatches = false ∧ res = (s.left, s.left - 1) ∨
      s.anyMatches = true ∧ s.Matched st type res) :
    Contract st type L R addr res ↔ Findable st type L R addr := by
  -- no entry has the value `addr`
  have hsplit : ∀ i, L ≤ i → i ≤ R → (st i).type = type → (st i).value ≠ addr := by
    rintro i hi hi' ti heq
    by_cases hil : i < s.l
    · have := h.below i hi hil ti
      rw [heq, BitVec.lt_def] at this
      omega
    · have := h.cut.above i (by omega) hi' ti
      rw [heq, BitVec.lt_def] at this
      omega
  rcases hres with ⟨hany, rfl⟩ | ⟨hany, hmatched⟩
  · have hnone : ∀ i, L ≤ i → i ≤ R → (st i).type ≠ type :=
      fun i hi hi' => (h.unmatched hany).2 i hi hi' (by omega)
    refine iff_of_true (.inr ⟨Int.sub_one_lt_of_le (Int.le_refl _), fun i hi hi' ti => ?_⟩)
      (.inl hnone)
    exact absurd ti (hnone i hi hi')
  · have hleft' : s.left ≤ R := hleft hany
    rcases h.left with ⟨heq, hempty⟩ | ⟨hlast, hlt⟩
    · -- all entries of the type are above `addr`
      have habove : ∀ i, L ≤ i → i ≤ R → (st i).type = type → addr < (st i).value := by
        intro i hi hi' ti
        refine h.cut.above i ?_ hi' ti
        by_contra hle
        exact hempty i hi (by omega) ti
      refine iff_of_false ?_ ?_
      · rintro (hb | ⟨hlt, -⟩)
        · have hv := habove _ hb.low hb.high hb.type_eq
          have hv' := hb.value
          rw [BitVec.lt_def] at hv
          rw [BitVec.le_def] at hv'
          omega
        · obtain ⟨hsnd, ⟨-, hfst⟩ | ⟨-, hle, -⟩⟩ := hmatched
          · omega
          · omega
      · rintro (hnone | ⟨⟨i, hi, hi', ti, hv⟩, -⟩)
        · obtain ⟨i, hi, hi', ti⟩ := h.matched hany
          exact hnone i hi hi' ti
        · have hv' := habove i hi hi' ti
          rw [BitVec.lt_def] at hv'
          rw [BitVec.le_def] at hv
          omega
    · refine iff_of_true (.inl (h.cut.brackets hend hlast hleft' hmatched))
        (.inr ⟨⟨s.left, hlast.low, hleft', hlast.type_eq, hlast.value⟩, ?_⟩)
      exact fun a b ha => absurd ha.value (hsplit a ha.low ha.high ha.type_eq)

theorem Closing.contract_iff (h : Closing st type L R addr s) (hend : s.r < s.l)
    (hleft : s.left ≤ R) (hmatched : s.Matched st type res) :
    Contract st type L R addr res ↔ Findable st type L R addr :=
  iff_of_true (.inl (h.cut.brackets hend h.last hleft hmatched))
    (.inr ⟨⟨s.left, h.last.low, hleft, h.last.type_eq, h.last.value⟩, h.separated⟩)

theorem Overrun.contract_iff (hs : Sorted st type L R) (h : Overrun st type L R addr s)
    (hmatched : s.Matched st type res) :
    Contract st type L R addr res ↔ Findable st type L R addr := by
  have horder := h.order
  have hright := h.right
  obtain ⟨hsnd, ⟨hlt, -⟩ | ⟨hge, hle, -⟩⟩ := hmatched
  · omega
  · exact iff_of_false (not_contract hs h.low h.type_eq h.above hge (by omega)) h.lost

theorem Wrapped.contract_iff (hs : Sorted st type L R) (haddr : addr.toNat < 4294967295)
    (h : Wrapped st type L R addr s) (hend : s.r < s.l) (hmatched : s.Matched st type res) :
    Contract st type L R addr res ↔ Findable st type L R addr := by
  have hnext := toNat_succ haddr
  obtain ⟨hlow, hhigh, hinside, -, -, hleft, tl, hvl, hright, hout⟩ := h
  have hfst : res.1 = s.l - 1 ∧ res.2 = s.l - 1 := by
    clear hout
    obtain ⟨hsnd, ⟨-, hfst⟩ | ⟨hge, hle, -⟩⟩ := hmatched
    · omega
    · omega
  rcases hout with ⟨hlost, i, hi, hil, ti, hvi⟩ |
    ⟨hmax, a, b, e, r, r', ha, hb, hlooks, hne, hlooks'⟩
  · exact iff_of_false (not_contract hs hi ti hvi (by omega) (by omega)) hlost
  have hab : a < b := by
    refine hs.lt ha.high hb.low ha.type_eq hb.type_eq ?_
    rw [ha.value, hb.value, BitVec.lt_def]
    omega
  constructor
  · rintro (hbr | ⟨hlt, -⟩)
    · have hbl : b = s.l := by
        have hle := hb.le hlow tl (hvl.trans hmax.symm)
        rcases Int.lt_or_eq_of_le hle with hlt | heq
        · have hval := hs b res.1 hb.low (by omega) hbr.high hb.type_eq hbr.type_eq
          have hval' := hbr.value
          rw [hb.value, BitVec.le_def] at hval
          rw [BitVec.le_def] at hval'
          omega
        · exact heq
      refine .inr ⟨⟨res.1, hbr.low, hbr.high, hbr.type_eq, hbr.value⟩, fun a' b' ha' hb' => ?_⟩
      obtain rfl := ha.unique ha'
      obtain rfl := hb.unique hb'
      refine ⟨e, r, hlooks, .inr ⟨hmax, ?_, r', hbl ▸ hlooks'⟩⟩
      rw [hbl, ← hfst.1]
      exact hbr.type_eq
    · omega
  · rintro (hnone | ⟨-, hsep⟩)
    · exact absurd ha.type_eq (hnone a ha.low ha.high)
    · obtain ⟨m, k, hm, heq | ⟨-, tb, k', hk⟩⟩ := hsep a b ha hb
      · exact absurd ((hlooks.unique (Int.le_of_lt hab) hm).1.trans heq) hne
      · obtain ⟨rfl, rfl⟩ := hlooks.unique (Int.le_of_lt hab) hm
        have hbl : b = s.l := (hk.unique hb.high hlooks').1
        have hbr : Brackets st type L R addr (b - 1) (b - 1) := by
          have hle := hs (b - 1) b (by have := ha.low; omega) (by omega) hb.high tb hb.type_eq
          have hne := hb.before (b - 1) (by have := ha.low; omega) (by omega) tb
          refine ⟨Int.le_refl _, by have := ha.low; omega, by have := hb.high; omega, tb, ?_,
            fun i hi hi' ti => ?_, fun i hi hi' => by omega, .inr ⟨by have := hb.high; omega, ?_⟩⟩
          · rw [hb.value, BitVec.le_def] at hle
            have hne' : (st (b - 1)).value.toNat ≠ (addr + 1).toNat :=
              fun heq => hne (BitVec.eq_of_toNat_eq heq)
            rw [BitVec.le_def]
            omega
          · have hval := hs b i hb.low (by omega) hi' hb.type_eq ti
            rw [hb.value, BitVec.le_def] at hval
            rw [BitVec.lt_def]
            omega
          · rw [show b - 1 + 1 = b by omega]
            exact hb.type_eq
        refine .inl ?_
        rw [hfst.1, hfst.2, ← hbl]
        exact hbr

/-- At the end of the search the bounds are right exactly if the entry could be found. -/
theorem Phase.contract_iff (hs : Sorted st type L R) (haddr : addr.toNat < 4294967295)
    (h : Phase st type L R addr s) (hend : s.r < s.l) (hleft : s.anyMatches = true → s.left ≤ R)
    (hres : s.anyMatches = false ∧ res = (s.left, s.left - 1) ∨
      s.anyMatches = true ∧ s.Matched st type res) :
    Contract st type L R addr res ↔ Findable st type L R addr := by
  have hmatched : s.anyMatches = true → s.Matched st type res ∧ s.left ≤ R := by
    intro hany
    rcases hres with ⟨hany', -⟩ | ⟨-, hmatched⟩
    · rw [hany] at hany'
      cases hany'
    · exact ⟨hmatched, hleft hany⟩
  cases h with
  | searching h => exact h.contract_iff hend hleft hres
  | closing h => exact h.contract_iff hend (hmatched h.matched).2 (hmatched h.matched).1
  | overrunning h =>
      have := h.inside
      omega
  | overrun h => exact h.contract_iff hs (hmatched h.matched).1
  | wrapped h => exact h.contract_iff hs haddr hend (hmatched h.matched).1

theorem Phase.start : Phase st type L R addr ⟨L, R, L, R, false, addr⟩ := by
  have hcut : Cut st type L R addr ⟨L, R, L, R, false, addr⟩ :=
    ⟨Int.le_refl _, Int.le_refl _, fun i hi hi' => by dsimp only at hi; omega, Int.le_refl _,
      fun i hi hi' => by dsimp only at hi hi'; omega, .inl rfl⟩
  refine .searching ⟨hcut, rfl, fun i hi hi' => by dsimp only at hi'; omega,
    .inl ⟨rfl, fun i hi hi' => by dsimp only at hi'; omega⟩,
    fun _ => ⟨rfl, fun i hi hi' hout => by dsimp only at hout; omega⟩, nofun, fun a b ha hb => ?_⟩
  exact .inr ⟨hb.high, fun _ _ h => h⟩

end Search

/-- `stab_binsearch` meets its contract on a sorted table exactly if the entry can be found. -/
theorem stab_binsearch_iff (st : Int → Stab) (type : Byte) (L R : Int) (addr : Word)
    (hs : Sorted st type L R) (haddr : addr.toNat < 4294967295) :
    (∃ res, stabBinsearch (fun i => some (st i)) L R type addr = some res ∧
      Contract st type L R addr res) ↔ Findable st type L R addr := by
  have hreads : Reads (fun i => some (st i)) st L R := fun _ _ _ => rfl
  obtain ⟨s, hrun, hend, hphase, hwithin⟩ := @stabBinsearch_run (fun i => some (st i)) st type L R
    (fun s => Phase st type L R addr s ∧ s.Within L R) addr hreads
    (fun s hinv => hinv.1.bounds)
    (fun s s' hinv hlr hround => ⟨hinv.1.round hs haddr hlr hround, hinv.2.round hlr hround⟩)
    ⟨Phase.start, .start L R addr⟩
  obtain ⟨res, hres, hspec⟩ := @finish_spec _ st type L R s hreads hwithin.left_low
    hwithin.right_high
  have hiff := hphase.contract_iff hs haddr hend (fun hany => (hwithin.matched hany).2.1) hspec
  rw [hrun, hres, ← hiff]
  simp

/-- Two functions, at 10 and at `second`. -/
def twoFunctions (second : Word) (i : Int) : Stab :=
  if i = 0 then ⟨0, nFun, 0, 10⟩ else ⟨0, nFun, 0, second⟩

theorem twoFunctions_sorted {second : Word} (h : 10 ≤ second) :
    Sorted (twoFunctions second) nFun 0 1 := by
  intro i j hi hij hj _ _
  rw [twoFunctions, twoFunctions]
  split
  · split
    · exact BitVec.le_refl _
    · exact h
  · rw [if_neg (by omega)]
    exact BitVec.le_refl _

/-- The address 15 is found in the first of two functions at 10 and 20. -/
theorem stab_binsearch_iff_between :
    ∃ res, stabBinsearch (fun i => some (twoFunctions 20 i)) 0 1 nFun 15 = some res ∧
      Contract (twoFunctions 20) nFun 0 1 15 res := by
  refine (stab_binsearch_iff (twoFunctions 20) nFun 0 1 15
    (twoFunctions_sorted (by decide)) (by decide)).mpr
    (.inr ⟨⟨0, by decide, by decide, by decide, by decide⟩, fun a b ha => ?_⟩)
  have hvalue := ha.value
  rw [twoFunctions] at hvalue
  split at hvalue
  all_goals exact absurd hvalue (by decide)

/-- Where one function is at 10 and the next one at 11, the address 10 is found in the second. -/
theorem stab_binsearch_overruns :
    ¬∀ (st : Int → Stab) (type : Byte) (L R : Int) (addr : Word), Sorted st type L R →
      addr.toNat < 4294967295 → ∃ res,
        stabBinsearch (fun i => some (st i)) L R type addr = some res ∧
          Contract st type L R addr res := by
  intro h
  obtain ⟨res, hres, hcontract⟩ := h (twoFunctions 11) nFun 0 1 10
    (twoFunctions_sorted (by decide)) (by decide)
  have hrun : stabBinsearch (fun i => some (twoFunctions 11 i)) 0 1 nFun 10 = some (1, 1) := by
    decide +kernel
  obtain rfl := Option.some.inj (hrun.symm.trans hres)
  rcases hcontract with hb | ⟨hlt, -⟩
  · exact absurd hb.value (by decide)
  · exact absurd hlt (by decide)

end Jos.Kdebug
