import Mathlib.Data.List.Basic
import Mathlib.Data.Nat.Find

/-!
# Maximal runs

The positions below `n` are blank or not; a run is a longest interval of positions that are not.
`Scanned` is what a scan from the left knows of the runs.
-/

/-- The positions from `a` to `b` are a maximal run. -/
structure IsRun (blank : Nat → Prop) (n a b : Nat) : Prop where
  nonempty : a < b
  bound : b ≤ n
  inside : ∀ k, a ≤ k → k < b → ¬blank k
  left : a = 0 ∨ blank (a - 1)
  right : b = n ∨ blank b

/-- `runs` are the maximal runs, in their order. -/
structure MaximalRuns (blank : Nat → Prop) (n : Nat) (runs : List (Nat × Nat)) : Prop where
  mem_iff : ∀ a b, (a, b) ∈ runs ↔ IsRun blank n a b
  sorted : runs.Pairwise fun x y => x.2 ≤ y.1

/-- `runs` are the runs before `i`, and `i` is not inside a run. -/
structure Scanned (blank : Nat → Prop) (n i : Nat) (runs : List (Nat × Nat)) : Prop where
  bound : i ≤ n
  mem_iff : ∀ a b, (a, b) ∈ runs ↔ IsRun blank n a b ∧ b ≤ i
  outside : ∀ a b, IsRun blank n a b → b ≤ i ∨ i ≤ a
  edge : i = 0 ∨ blank (i - 1) ∨ i = n ∨ blank i
  sorted : runs.Pairwise fun x y => x.2 ≤ y.1

namespace Scanned

variable {blank : Nat → Prop} {n i j : Nat} {runs : List (Nat × Nat)}

theorem start : Scanned blank n 0 [] := by
  refine ⟨Nat.zero_le n, fun a b => ?_, fun a b _ => .inr (Nat.zero_le a), .inl rfl, .nil⟩
  constructor
  · intro h
    simp at h
  · rintro ⟨h, hb⟩
    have := h.nonempty
    omega

/-- Blanks are not in a run. -/
theorem gap (h : Scanned blank n i runs) (hij : i ≤ j) (hj : j ≤ n)
    (hgap : ∀ k, i ≤ k → k < j → blank k) (hend : j = n ∨ ¬blank j) :
    Scanned blank n j runs ∧ (j < n → j = 0 ∨ blank (j - 1)) := by
  have hside : ∀ a b, IsRun blank n a b → b ≤ i ∨ j ≤ a := by
    intro a b hrun
    rcases h.outside a b hrun with hb | ha
    · exact .inl hb
    · by_cases haj : j ≤ a
      · exact .inr haj
      · exact absurd (hgap a ha (by omega)) (hrun.inside a (Nat.le_refl a) hrun.nonempty)
  have hleft : j < n → j = 0 ∨ blank (j - 1) := by
    intro hjn
    rcases Nat.eq_or_lt_of_le hij with rfl | hlt
    · rcases h.edge with h0 | hprev | hn | hi
      · exact .inl h0
      · exact .inr hprev
      · omega
      · rcases hend with hn | hnot
        · omega
        · exact absurd hi hnot
    · exact .inr (hgap (j - 1) (by omega) (by omega))
  refine ⟨⟨hj, fun a b => ?_, fun a b hrun => ?_, ?_, h.sorted⟩, hleft⟩
  · rw [h.mem_iff]
    constructor
    · rintro ⟨hrun, hb⟩
      exact ⟨hrun, by omega⟩
    · rintro ⟨hrun, hb⟩
      refine ⟨hrun, ?_⟩
      rcases hside a b hrun with hbi | hja
      · exact hbi
      · have := hrun.nonempty
        omega
  · rcases hside a b hrun with hb | ha
    · exact .inl (by omega)
    · exact .inr ha
  · rcases Nat.eq_or_lt_of_le hj with heq | hlt
    · exact .inr (.inr (.inl heq))
    · rcases hleft hlt with h0 | hprev
      · exact .inl h0
      · exact .inr (.inl hprev)

/-- A run that begins at `i` is the next one. -/
theorem run (h : Scanned blank n i runs) (hleft : i = 0 ∨ blank (i - 1)) (hij : i < j)
    (hj : j ≤ n) (hin : ∀ k, i ≤ k → k < j → ¬blank k) (hend : j = n ∨ blank j) :
    IsRun blank n i j ∧ Scanned blank n j (runs ++ [(i, j)]) := by
  have hnew : IsRun blank n i j := ⟨hij, hj, hin, hleft, hend⟩
  -- no other run meets the interval
  have hside : ∀ a b, IsRun blank n a b → b ≤ i ∨ (a = i ∧ b = j) ∨ j ≤ a := by
    intro a b hrun
    rcases h.outside a b hrun with hb | ha
    · exact .inl hb
    · refine .inr ?_
      by_cases haj : j ≤ a
      · exact .inr haj
      · have hai : a = i := by
          by_contra hne
          rcases hrun.left with h0 | hprev
          · omega
          · exact hin (a - 1) (by omega) (by omega) hprev
        have hbj : b = j := by
          rcases Nat.lt_trichotomy b j with hlt | heq | hlt
          · rcases hrun.right with hn | hblank
            · omega
            · have := hrun.nonempty
              exact absurd hblank (hin b (by omega) hlt)
          · exact heq
          · rcases hend with hn | hblank
            · have := hrun.bound
              omega
            · exact absurd hblank (hrun.inside j (by omega) hlt)
        exact .inl ⟨hai, hbj⟩
  refine ⟨hnew, hj, fun a b => ?_, fun a b hrun => ?_, ?_, ?_⟩
  · rw [List.mem_append, h.mem_iff, List.mem_singleton, Prod.mk.injEq]
    constructor
    · rintro (⟨hrun, hb⟩ | ⟨rfl, rfl⟩)
      · exact ⟨hrun, by omega⟩
      · exact ⟨hnew, Nat.le_refl _⟩
    · rintro ⟨hrun, hb⟩
      rcases hside a b hrun with hbi | heq | hja
      · exact .inl ⟨hrun, hbi⟩
      · exact .inr heq
      · have := hrun.nonempty
        omega
  · rcases hside a b hrun with hbi | ⟨rfl, rfl⟩ | hja
    · exact .inl (by omega)
    · exact .inl (Nat.le_refl _)
    · exact .inr hja
  · rcases hend with hn | hblank
    · exact .inr (.inr (.inl hn))
    · exact .inr (.inr (.inr hblank))
  · refine List.pairwise_append.mpr ⟨h.sorted, List.pairwise_singleton _ _, ?_⟩
    rintro ⟨a, b⟩ hx y hy
    obtain rfl := List.mem_singleton.mp hy
    exact ((h.mem_iff a b).mp hx).2

/-- At the end all runs are known. -/
theorem maximalRuns (h : Scanned blank n n runs) : MaximalRuns blank n runs := by
  refine ⟨fun a b => ?_, h.sorted⟩
  rw [h.mem_iff]
  exact ⟨fun hab => hab.1, fun hrun => ⟨hrun, hrun.bound⟩⟩

/-- The next position from `i` on with a property, or the end. -/
theorem exists_next (P : Nat → Prop) (hi : i ≤ n) :
    ∃ j, i ≤ j ∧ j ≤ n ∧ (∀ k, i ≤ k → k < j → ¬P k) ∧ (j = n ∨ P j) := by
  classical
  have hex : ∃ j, i ≤ j ∧ (j = n ∨ P j) := ⟨n, hi, .inl rfl⟩
  obtain ⟨hij, hend⟩ := Nat.find_spec hex
  refine ⟨Nat.find hex, hij, Nat.find_min' hex ⟨hi, .inl rfl⟩, fun k hik hk hP => ?_, hend⟩
  exact Nat.find_min hex hk ⟨hik, .inr hP⟩

/-- The scan can go on to the end. -/
theorem exists_complete (h : Scanned blank n i runs) :
    ∃ more, MaximalRuns blank n (runs ++ more) := by
  generalize hm : n - i = m
  induction m using Nat.strong_induction_on generalizing i runs with
  | _ m ih =>
      obtain ⟨j, hij, hj, hgap, hend⟩ := @exists_next n i (fun k => ¬blank k) h.bound
      obtain ⟨hscan, hleft⟩ := h.gap hij hj (fun k hik hk => not_not.mp (hgap k hik hk)) hend
      rcases Nat.eq_or_lt_of_le hj with rfl | hjn
      · exact ⟨[], by rw [List.append_nil]; exact hscan.maximalRuns⟩
      · have hnot : ¬blank j := hend.resolve_left (by omega)
        obtain ⟨l, hjl, hl, hin, hend'⟩ := @exists_next n (j + 1) blank hjn
        have hin' : ∀ k, j ≤ k → k < l → ¬blank k := by
          intro k hjk hk
          rcases Nat.eq_or_lt_of_le hjk with rfl | hlt
          · exact hnot
          · exact hin k hlt hk
        obtain ⟨-, hscan'⟩ := hscan.run (hleft hjn) hjl hl hin' hend'
        obtain ⟨more, hmore⟩ := ih (n - l) (by omega) hscan' rfl
        exact ⟨(j, l) :: more, by rw [List.append_cons]; exact hmore⟩

end Scanned
