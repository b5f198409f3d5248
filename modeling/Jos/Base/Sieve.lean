import Mathlib.Data.Nat.Nth
import Mathlib.Data.Nat.PrimeFin
import Mathlib.Data.List.Nodup

/-!
# The numbers that pass a sieve

A stage of the sieve keeps what the first number that it has got does not divide. The numbers
from 2 on then come to the stage `j` as a list whose first entry is the prime number `j`, counted
from 0.
-/

namespace Sieve

open Nat

/-- The numbers from 2 to `k + 1` that the first `j` prime numbers do not divide. -/
noncomputable def stage (j k : ℕ) : List ℕ :=
  (List.range' 2 k).filter fun x => ∀ i < j, ¬ nth Nat.Prime i ∣ x

/-- What may have come to the stage `j`. -/
def Sifted (j : ℕ) (l : List ℕ) : Prop := ∃ k, l = stage j k

variable {j k p n : ℕ} {l l' : List ℕ}

theorem mem_stage : n ∈ stage j k ↔ (2 ≤ n ∧ n < 2 + k) ∧ ∀ i < j, ¬ nth Nat.Prime i ∣ n := by
  simp [stage, List.mem_range'_1]

/-- Nothing has been filtered yet. -/
theorem Sifted.range (k : ℕ) : Sifted 0 (List.range' 2 k) := by
  refine ⟨k, ?_⟩
  rw [stage, List.filter_eq_self.mpr]
  simp

theorem Sifted.of_append (h : Sifted j (l ++ l')) : Sifted j l := by
  obtain ⟨k, hk⟩ := h
  obtain ⟨l₁, l₂, hrange, hleft, -⟩ := List.filter_eq_append_iff.mp hk.symm
  obtain ⟨k', -, rfl, -⟩ := List.range'_eq_append_iff.mp hrange
  exact ⟨k', hleft.symm⟩

/-- The least number that is left is the next prime number. -/
theorem Sifted.head (h : Sifted j (p :: l)) : p = nth Nat.Prime j := by
  obtain ⟨k, hk⟩ := h
  obtain ⟨l₁, l₂, hrange, hbefore, hkept, -⟩ := List.filter_eq_cons_iff.mp hk.symm
  have hp : 2 ≤ p ∧ ∀ i < j, ¬ nth Nat.Prime i ∣ p :=
    (mem_stage.mp (hk ▸ List.mem_cons_self)).imp (·.1) id
  -- what is less has been filtered
  have hless : ∀ x, 2 ≤ x → x < p → ∃ i < j, nth Nat.Prime i ∣ x := by
    intro x hx hlt
    obtain ⟨m, hm, rfl, hrest⟩ := List.range'_eq_append_iff.mp hrange
    obtain ⟨hp', -⟩ := List.range'_eq_cons_iff.mp hrest.symm
    have hmem : x ∈ List.range' 2 m := List.mem_range'_1.mpr ⟨hx, by omega⟩
    simpa using hbefore x hmem
  have hprime : p.Prime := by
    have hfac : p.minFac.Prime := minFac_prime (by omega)
    obtain hlt | heq := (minFac_le (by omega : 0 < p)).lt_or_eq
    · obtain ⟨i, hi, hdvd⟩ := hless _ hfac.two_le hlt
      exact absurd (hdvd.trans (minFac_dvd p)) (hp.2 i hi)
    · rwa [heq] at hfac
  obtain hlt | heq | hgt := lt_trichotomy (count Nat.Prime p) j
  · exact absurd (by rw [nth_count hprime]) (hp.2 _ hlt)
  · rw [← heq, nth_count hprime]
  · have hj : (nth Nat.Prime j).Prime := nth_mem_of_infinite infinite_setOfPred_prime j
    have hsmaller : nth Nat.Prime j < p := nth_lt_of_lt_count hgt
    obtain ⟨i, hi, hdvd⟩ := hless _ hj.two_le hsmaller
    have hi' : (nth Nat.Prime i).Prime := nth_mem_of_infinite infinite_setOfPred_prime i
    have hsame := (prime_dvd_prime_iff_eq hi' hj).mp hdvd
    exact absurd (nth_injective infinite_setOfPred_prime hsame) hi.ne

/-- What a stage keeps goes to the next one. -/
theorem Sifted.filter (h : Sifted j (p :: l)) :
    Sifted (j + 1) (l.filter fun x => ¬ p ∣ x) := by
  have hp := h.head
  obtain ⟨k, hk⟩ := h
  refine ⟨k, ?_⟩
  have hself : (p :: l).filter (fun x => ¬ p ∣ x) = l.filter fun x => ¬ p ∣ x :=
    List.filter_cons_of_neg (by simp)
  rw [← hself, hk, stage, List.filter_filter, stage]
  refine List.filter_congr fun x _ => ?_
  rw [← Bool.decide_and, hp]
  refine decide_eq_decide.mpr ⟨fun ⟨hnext, hfirst⟩ i hi => ?_, fun h => ⟨h j (by omega), ?_⟩⟩
  · obtain hlt | rfl := Nat.lt_succ_iff_lt_or_eq.mp hi
    · exact hfirst i hlt
    · exact hnext
  · exact fun i hi => h i (by omega)

/-- There are at most `k` prime numbers below `k`. -/
theorem length_le_of_primes (h : l = (List.range n).map (nth Nat.Prime))
    (bound : ∀ p ∈ l, p < k) : n ≤ k := by
  subst h
  cases n with
  | zero => exact Nat.zero_le k
  | succ n =>
      have hle : n ≤ nth Nat.Prime n := (nth_strictMono infinite_setOfPred_prime).le_apply
      have hlt : nth Nat.Prime n < k := bound _ (List.mem_map_of_mem (by simp))
      omega

end Sieve
