import Mathlib.Algebra.Group.Nat.Defs
import Mathlib.Tactic.Common

/-!
# Bytes and words

A memory of bytes with 32-bit addresses, read and written by little-endian words.
Addresses wrap around. Words need not be aligned, so two of them may overlap in part;
the rules that move a read over a write ask that they do not.
-/

/-- The contents of an address space. -/
abbrev Bytes := BitVec 32 → BitVec 8

namespace Bytes

variable (m : Bytes) (a b : BitVec 32) (w : BitVec 32)

/-- The word at `a`. -/
def load : BitVec 32 := m (a + 3) ++ m (a + 2) ++ m (a + 1) ++ m a

/-- The byte at `b` belongs to the word at `a`. -/
def InWord : Prop := (b - a).toNat < 4

instance : Decidable (InWord a b) := Nat.decLt _ _

/-- Write a word at `a`. -/
def store : Bytes := fun b =>
  if InWord a b then w.extractLsb' (8 * (b - a).toNat) 8 else m b

variable {m a b w}

theorem store_of_not_inWord (h : ¬ InWord a b) : m.store a w b = m b := if_neg h

theorem add_sub_self_nat {i : Nat} (hi : i < 4) : (a + BitVec.ofNat 32 i - a).toNat = i := by
  rw [BitVec.add_comm, BitVec.add_sub_cancel, BitVec.toNat_ofNat]
  omega

theorem store_byte {i : Nat} (hi : i < 4) :
    m.store a w (a + BitVec.ofNat 32 i) = w.extractLsb' (8 * i) 8 := by
  rw [store, if_pos (by rw [InWord, add_sub_self_nat hi]; exact hi), add_sub_self_nat hi]

@[simp] theorem load_store_self : (m.store a w).load a = w := by
  have h₀ : m.store a w a = w.extractLsb' 0 8 := by
    rw [store, if_pos (by simp [InWord]), BitVec.sub_self]
    rfl
  have h₁ : m.store a w (a + 1) = w.extractLsb' 8 8 := store_byte (i := 1) (by decide)
  have h₂ : m.store a w (a + 2) = w.extractLsb' 16 8 := store_byte (i := 2) (by decide)
  have h₃ : m.store a w (a + 3) = w.extractLsb' 24 8 := store_byte (i := 3) (by decide)
  rw [load, h₀, h₁, h₂, h₃, BitVec.extractLsb'_append_extractLsb'_eq_extractLsb' (by decide),
    BitVec.extractLsb'_append_extractLsb'_eq_extractLsb' (by decide),
    BitVec.extractLsb'_append_extractLsb'_eq_extractLsb' (by decide)]
  exact BitVec.extractLsb'_eq_self

/-- The words at `a` and `b` have no byte in common. -/
def Apart (a b : BitVec 32) : Prop := 4 ≤ (b - a).toNat ∧ 4 ≤ (a - b).toNat

instance : Decidable (Apart a b) := instDecidableAnd

/-- A read that agrees byte by byte. -/
theorem load_congr {m' : Bytes} (h : ∀ b, InWord a b → m' b = m b) : m'.load a = m.load a := by
  have hin : ∀ i < 4, InWord a (a + BitVec.ofNat 32 i) := by
    intro i hi
    rw [InWord, add_sub_self_nat hi]
    exact hi
  have h₀ : m' a = m a := h a (by simp [InWord])
  rw [load, load, h₀, h (a + 1) (hin 1 (by decide)), h (a + 2) (hin 2 (by decide)),
    h (a + 3) (hin 3 (by decide))]

theorem load_store_of_apart (h : Apart a b) : (m.store a w).load b = m.load b := by
  refine load_congr fun b' hb => store_of_not_inWord fun ha => ?_
  rw [InWord] at ha hb
  have h₁ := h.1
  have h₂ := h.2
  rw [BitVec.toNat_sub] at ha hb h₁ h₂
  omega

/-- Write consecutive words. -/
def stores (m : Bytes) : BitVec 32 → List (BitVec 32) → Bytes
  | _, [] => m
  | a, w :: ws => (m.store a w).stores (a + 4) ws

/-- Bytes behind the words, or before them, stay. -/
theorem stores_of_le {ws : List (BitVec 32)} (fits : 4 * ws.length ≤ 2 ^ 32)
    (h : 4 * ws.length ≤ (b - a).toNat) : m.stores a ws b = m b := by
  induction ws generalizing m a with
  | nil => rfl
  | cons w ws ih =>
      rw [List.length_cons] at fits h
      have hnext : (b - (a + 4)).toNat = (b - a).toNat - 4 := by
        rw [← BitVec.sub_sub, BitVec.toNat_sub_of_le]
        · rfl
        · rw [BitVec.le_def]
          exact Nat.le_trans (by decide : (4 : BitVec 32).toNat ≤ 4) (by omega)
      rw [stores, ih (by omega) (by omega), store_of_not_inWord]
      rw [InWord]
      omega

theorem load_stores {ws : List (BitVec 32)} (fits : 4 * ws.length ≤ 2 ^ 32) {i : Nat}
    (hi : i < ws.length) : (m.stores a ws).load (a + BitVec.ofNat 32 (4 * i)) = ws[i] := by
  induction ws generalizing m a i with
  | nil => simp at hi
  | cons w ws ih =>
      rw [List.length_cons] at fits hi
      cases i with
      | zero =>
          -- the words behind do not touch the first one
          rw [Nat.mul_zero, BitVec.add_zero, stores]
          refine (load_congr (m := m.store a w) fun b hb => ?_).trans load_store_self
          refine stores_of_le (by omega) ?_
          rw [InWord] at hb
          have hnat : (b - (a + 4)).toNat = (b - a).toNat + 2 ^ 32 - 4 := by
            rw [← BitVec.sub_sub, BitVec.toNat_sub]
            have h4 : (4 : BitVec 32).toNat = 4 := rfl
            omega
          omega
      | succ i =>
          have haddr : a + BitVec.ofNat 32 (4 * (i + 1)) = a + 4 + BitVec.ofNat 32 (4 * i) := by
            rw [Nat.mul_succ, Nat.add_comm, BitVec.ofNat_add, ← BitVec.add_assoc]
            rfl
          rw [haddr, stores]
          exact ih (by omega) (by omega)

end Bytes
