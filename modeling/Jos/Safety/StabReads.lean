import Jos.Kernel.Kdebug
import Mathlib.Logic.Relation

/-!
# Termination of `stab_binsearch`

Whatever a program puts into its table, the search ends, and it reads the entries of its range
only.
-/

namespace Jos.Kdebug

section Runs

variable {stabs : Int → Option Stab} {st : Int → Stab} {type : Byte} {L R : Int} {s s' : Search}

/-- The entries from `L` to `R`, and no others. -/
def entriesIn (st : Int → Stab) (L R i : Int) : Option Stab :=
  if L ≤ i ∧ i ≤ R then some (st i) else none

theorem entriesIn_reads : Reads (entriesIn st L R) st L R := fun _ hi hi' => if_pos ⟨hi, hi'⟩

/-- What the entries from `L` to `R` give, any table with these entries gives. -/
theorem entriesIn_some (h : Reads stabs st L R) {i : Int} {stab : Stab}
    (hi : entriesIn st L R i = some stab) : stabs i = some stab := by
  rw [entriesIn] at hi
  split at hi
  · rename_i hin
    rw [h i hin.1 hin.2, hi]
  · contradiction

theorem scanDown_mono (h : Reads stabs st L R) {n : Nat} {l m k : Int}
    (hrun : scanDown (entriesIn st L R) type l n m = some k) :
    scanDown stabs type l n m = some k := by
  induction n generalizing m with
  | zero => exact hrun
  | succ n ih =>
      rw [scanDown] at hrun ⊢
      split
      · rwa [if_pos (by assumption)] at hrun
      · rw [if_neg (by assumption), Option.bind_eq_bind, Option.bind_eq_some_iff] at hrun
        obtain ⟨stab, hread, hrest⟩ := hrun
        rw [entriesIn_some h hread]
        dsimp only [Option.bind_eq_bind, Option.bind_some]
        split
        · rwa [if_pos (by assumption)] at hrest
        · rw [if_neg (by assumption)] at hrest
          exact ih hrest

theorem step_mono (h : Reads stabs st L R) (hrun : s.step (entriesIn st L R) type = some s') :
    s.step stabs type = some s' := by
  rw [Search.step, Option.bind_eq_bind, Option.bind_eq_some_iff] at hrun
  obtain ⟨m, hm, hrest⟩ := hrun
  rw [Search.step, scanDown_mono h hm]
  dsimp only [Option.bind_eq_bind, Option.bind_some] at hrest ⊢
  split
  · rwa [if_pos (by assumption)] at hrest
  · rw [if_neg (by assumption), Option.bind_eq_some_iff] at hrest
    obtain ⟨stab, hread, hrest⟩ := hrest
    rw [entriesIn_some h hread]
    exact hrest

theorem searchLoop_mono (h : Reads stabs st L R) {n : Nat}
    (hrun : searchLoop (entriesIn st L R) type n s = some s') :
    searchLoop stabs type n s = some s' := by
  induction n generalizing s with
  | zero => contradiction
  | succ n ih =>
      rw [searchLoop] at hrun ⊢
      split
      · rw [if_pos (by assumption), Option.bind_eq_bind, Option.bind_eq_some_iff] at hrun
        obtain ⟨t, ht, hrest⟩ := hrun
        rw [step_mono h ht]
        exact ih hrest
      · rwa [if_neg (by assumption)] at hrun

/-- A search that gets on with the entries from `L` to `R` reads no others. -/
theorem stabBinsearch_mono (h : Reads stabs st L R) {left right : Int} {addr : Word}
    {res : Int × Int} (hrun : stabBinsearch (entriesIn st L R) left right type addr = some res) :
    stabBinsearch stabs left right type addr = some res := by
  rw [stabBinsearch, Option.bind_eq_bind, Option.bind_eq_some_iff] at hrun
  obtain ⟨s, hs, hrest⟩ := hrun
  rw [stabBinsearch, searchLoop_mono h hs]
  dsimp only [Option.bind_eq_bind, Option.bind_some]
  rw [Search.finish] at hrest ⊢
  split
  · rw [if_pos (by assumption), Option.bind_eq_bind, Option.bind_eq_some_iff] at hrest
    obtain ⟨l, hl, hrest⟩ := hrest
    rw [scanDown_mono h hl]
    exact hrest
  · rwa [if_neg (by assumption)] at hrest

/-- The search goes on from `s` with `s'`. -/
def Search.Next (stabs : Int → Option Stab) (type : Byte) (s s' : Search) : Prop :=
  s.l ≤ s.r ∧ s.step stabs type = some s'

theorem Search.Within.run (h : Reads stabs st L R) (hs : s.Within L R)
    (hrun : Relation.ReflTransGen (Search.Next stabs type) s s') : s'.Within L R := by
  induction hrun with
  | refl => exact hs
  | tail _ hnext ih =>
      obtain ⟨hlr, hstep⟩ := hnext
      obtain ⟨t, ht, hround⟩ := step_round (h.mono ih.low ih.high) hlr
      obtain rfl := Option.some.inj (ht.symm.trans hstep)
      exact ih.round hlr hround

end Runs

/-- `stab_binsearch` ends, whatever is in the table, with the same result for all tables with
the entries from `left` to `right`, be there others or not. The sum of its bounds is an `int`. -/
theorem stab_binsearch_terminates (st : Int → Stab) (left right : Int) (type : Byte) (addr : Word)
    (hleft : 0 ≤ left) (hright : right < 1073741824) :
    (∃ res, ∀ stabs, Reads stabs st left right →
      stabBinsearch stabs left right type addr = some res) ∧
    ∀ stabs, Reads stabs st left right → ∀ s,
      Relation.ReflTransGen (Search.Next stabs type) ⟨left, right, left, right, false, addr⟩ s →
      s.l ≤ s.r → 0 ≤ s.l ∧ s.l + s.r < 2147483648 := by
  constructor
  · obtain ⟨res, hres, -⟩ := stabBinsearch_within (@entriesIn_reads st left right) type addr
    exact ⟨res, fun stabs hreads => stabBinsearch_mono hreads hres⟩
  · intro stabs hreads s hrun hlr
    have hwithin := Search.Within.run hreads (.start left right addr) hrun
    have hlow := hwithin.low
    have hhigh := hwithin.high
    omega

/-- Four entries with the last address, which the search for it wraps. -/
theorem stab_binsearch_terminates_wrap :
    (∃ res, ∀ stabs, Reads stabs (fun _ => ⟨0, nFun, 0, 0xFFFFFFFF⟩) 0 3 →
      stabBinsearch stabs 0 3 nFun 0xFFFFFFFF = some res) ∧
    ∀ stabs, Reads stabs (fun _ => ⟨0, nFun, 0, 0xFFFFFFFF⟩) 0 3 → ∀ s,
      Relation.ReflTransGen (Search.Next stabs nFun) ⟨0, 3, 0, 3, false, 0xFFFFFFFF⟩ s →
      s.l ≤ s.r → 0 ≤ s.l ∧ s.l + s.r < 2147483648 :=
  stab_binsearch_terminates (fun _ => ⟨0, nFun, 0, 0xFFFFFFFF⟩) 0 3 nFun 0xFFFFFFFF (by decide)
    (by decide)

end Jos.Kdebug
