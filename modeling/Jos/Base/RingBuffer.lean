import Mathlib.Data.List.Basic
import Mathlib.Logic.Function.Basic

/-!
# Cyclic buffers

A buffer of `n` cells with a position to read from and a position to write to. It is empty
when they are equal, so it holds at most `n - 1` elements. As long as there are not more,
it is a queue.
-/

/-- `n` cells with the two positions. -/
structure RingBuffer (α : Type*) (n : Nat) where
  buf : Nat → α
  rpos : Nat
  wpos : Nat

namespace RingBuffer

variable {α : Type*} {n : Nat}

/-- The position after `i`. -/
def next (n i : Nat) : Nat := if i + 1 = n then 0 else i + 1

def push (r : RingBuffer α n) (a : α) : RingBuffer α n :=
  { r with buf := Function.update r.buf r.wpos a, wpos := next n r.wpos }

def pop (r : RingBuffer α n) : Option (α × RingBuffer α n) :=
  if r.rpos ≠ r.wpos then some (r.buf r.rpos, { r with rpos := next n r.rpos }) else none

theorem next_eq {i : Nat} (hi : i < n) : next n i = (i + 1) % n := by
  rw [next]
  split
  · rename_i hlast
    rw [hlast, Nat.mod_self]
  · rw [Nat.mod_eq_of_lt (by omega)]

/-- Positions less than `n` apart are different. -/
theorem add_mod_ne {k i j : Nat} (hij : i < j) (hj : j < n) : (k + i) % n ≠ (k + j) % n := by
  intro heq
  have hdvd : n ∣ k + j - (k + i) := Nat.dvd_of_mod_eq_zero (Nat.sub_mod_eq_zero_of_mod_eq heq.symm)
  have hzero := Nat.eq_zero_of_dvd_of_lt hdvd (by omega)
  omega

/-- The ring holds the queue `l`. -/
structure Holds (r : RingBuffer α n) (l : List α) : Prop where
  rpos : r.rpos < n
  room : l.length < n
  wpos : r.wpos = (r.rpos + l.length) % n
  cells : ∀ (i : Nat) (hi : i < l.length), r.buf ((r.rpos + i) % n) = l[i]

namespace Holds

variable {r : RingBuffer α n} {l : List α} {a : α}

theorem wpos_lt (h : r.Holds l) : r.wpos < n := by
  rw [h.wpos]
  exact Nat.mod_lt _ (Nat.zero_lt_of_lt h.rpos)

theorem push (h : r.Holds l) (room : l.length + 1 < n) (a : α) : (r.push a).Holds (l ++ [a]) := by
  refine ⟨h.rpos, by rwa [List.length_append, List.length_singleton], ?_, fun i hi => ?_⟩
  · rw [RingBuffer.push, next_eq h.wpos_lt, h.wpos, Nat.mod_add_mod, List.length_append,
      List.length_singleton, Nat.add_assoc]
  · rw [List.length_append, List.length_singleton] at hi
    rw [RingBuffer.push]
    dsimp only
    by_cases hlast : i = l.length
    · subst hlast
      rw [h.wpos, Function.update_self, List.getElem_concat_length rfl]
    · have hlt : i < l.length := by omega
      rw [Function.update_of_ne, h.cells i hlt, List.getElem_append_left hlt]
      rw [h.wpos]
      exact add_mod_ne hlt h.room

theorem pop_nil (h : r.Holds []) : r.pop = none := by
  have hw := h.wpos
  rw [List.length_nil, Nat.add_zero, Nat.mod_eq_of_lt h.rpos] at hw
  rw [RingBuffer.pop, if_neg (not_not.mpr hw.symm)]

theorem pop_cons (h : r.Holds (a :: l)) : ∃ r', r.pop = some (a, r') ∧ r'.Holds l := by
  have hroom := h.room
  rw [List.length_cons] at hroom
  have hrpos := Nat.mod_eq_of_lt h.rpos
  have hne : r.rpos ≠ r.wpos := by
    have hapart := add_mod_ne (k := r.rpos) (Nat.succ_pos l.length) hroom
    rw [Nat.add_zero, hrpos] at hapart
    rwa [h.wpos]
  have hfirst := h.cells 0 (Nat.succ_pos _)
  rw [Nat.add_zero, hrpos, List.getElem_cons_zero] at hfirst
  have hnext := next_eq h.rpos
  refine ⟨{ r with rpos := next n r.rpos }, ?_, ?_, Nat.lt_of_succ_lt hroom, ?_, fun i hi => ?_⟩
  · rw [RingBuffer.pop, if_pos hne, hfirst]
  · rw [hnext]
    exact Nat.mod_lt _ (Nat.zero_lt_of_lt h.rpos)
  · rw [hnext, Nat.mod_add_mod, h.wpos, List.length_cons, Nat.add_assoc, Nat.add_comm 1]
  · have hcell := h.cells (i + 1) (Nat.succ_lt_succ hi)
    rw [List.getElem_cons_succ] at hcell
    rw [hnext, Nat.mod_add_mod, Nat.add_assoc, Nat.add_comm 1, hcell]

/-- Several pushes. -/
theorem pushes (h : r.Holds l) {as : List α} (room : l.length + as.length < n) :
    (as.foldl RingBuffer.push r).Holds (l ++ as) := by
  induction as generalizing r l with
  | nil =>
      rw [List.append_nil]
      exact h
  | cons a as ih =>
      rw [List.length_cons] at room
      have hrest := ih (h.push (by omega) a) (by
        rw [List.length_append, List.length_singleton]
        omega)
      rwa [List.append_assoc] at hrest

end Holds

/-- A ring with both positions at 0 is empty. -/
theorem holds_nil (hn : 0 < n) (buf : Nat → α) : (⟨buf, 0, 0⟩ : RingBuffer α n).Holds [] :=
  ⟨hn, hn, (Nat.zero_mod n).symm, fun i hi => absurd hi (Nat.not_lt_zero i)⟩

end RingBuffer
