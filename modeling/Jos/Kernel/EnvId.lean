import Jos.Kernel.Env

/-!
# Environment ids

An id has the slot in its low ten bits and a generation from bit 12 on. Each
allocation of a slot advances the generation, from 1 to `2^19 - 1` and then from
1 again, so that an id is a positive `int32_t` and comes back after `2^19 - 1`
allocations of its slot.
-/

namespace Jos

variable (old : Word) (e : EnvIdx)

/-- Clearing the ten bits of the slot. -/
theorem and_not_mask (x : Word) : (x &&& ~~~1023#32).toNat = x.toNat / 1024 * 1024 := by
  have hsplit : x &&& ~~~1023#32 ||| x &&& 1023#32 = x := by
    rw [← BitVec.and_or_distrib_left, show ~~~1023#32 ||| 1023#32 = BitVec.allOnes 32 by decide,
      BitVec.and_allOnes]
  have hdisjoint : (x &&& ~~~1023#32) &&& (x &&& 1023#32) = 0#32 := by
    rw [BitVec.and_assoc, BitVec.and_comm x 1023#32, ← BitVec.and_assoc (~~~1023#32),
      show ~~~1023#32 &&& 1023#32 = 0#32 by decide, BitVec.zero_and, BitVec.and_zero]
  have hmask : (x &&& 1023#32).toNat = x.toNat % 1024 := by
    rw [BitVec.toNat_and]
    exact Nat.and_two_pow_sub_one_eq_mod x.toNat 10
  have hlow : (x &&& ~~~1023#32).toNat + x.toNat % 1024 < 2 ^ 32 := by
    have hle : (x &&& ~~~1023#32).toNat ≤ (~~~1023#32 : Word).toNat := by
      rw [BitVec.toNat_and]
      exact Nat.and_le_right
    have hval : (~~~1023#32 : Word).toNat = 4294966272 := by decide
    omega
  have hsum := congrArg BitVec.toNat ((BitVec.add_eq_or_of_and_eq_zero _ _ hdisjoint).trans hsplit)
  rw [BitVec.toNat_add, hmask, Nat.mod_eq_of_lt hlow] at hsum
  omega

/-- Putting the slot back in. -/
theorem or_slot {g : Word} (h : g &&& 1023#32 = 0#32) :
    (g ||| BitVec.ofNat 32 e).toNat = g.toNat + e := by
  have hlt : e.val < 1024 := e.isLt
  have he : (BitVec.ofNat 32 e.val).toNat = e.val := by
    rw [BitVec.toNat_ofNat]
    omega
  have hmask : BitVec.ofNat 32 e.val = 1023#32 &&& BitVec.ofNat 32 e.val := by
    apply BitVec.eq_of_toNat_eq
    rw [BitVec.toNat_and, he, Nat.and_comm]
    exact ((Nat.and_two_pow_sub_one_eq_mod e.val 10).trans (Nat.mod_eq_of_lt hlt)).symm
  have hdisjoint : g &&& BitVec.ofNat 32 e.val = 0#32 := by
    rw [hmask, ← BitVec.and_assoc, h, BitVec.zero_and]
  have hle : g.toNat ≤ 4294966272 := by
    have hsplit : g = g &&& ~~~1023#32 := by
      have hall : g &&& (1023#32 ||| ~~~1023#32) = g := by
        rw [show 1023#32 ||| ~~~1023#32 = BitVec.allOnes 32 by decide, BitVec.and_allOnes]
      rw [BitVec.and_or_distrib_left, h, BitVec.zero_or] at hall
      exact hall.symm
    rw [hsplit, BitVec.toNat_and]
    exact Nat.and_le_right
  rw [← BitVec.add_eq_or_of_and_eq_zero _ _ hdisjoint, BitVec.toNat_add, he]
  omega

/-- The generation of the next id, as a number in the high bits. -/
def nextGeneration (old : Word) : Word :=
  if ((old + 0x1000#32) &&& ~~~1023#32).sle 0 then 0x1000#32
  else (old + 0x1000#32) &&& ~~~1023#32

theorem nextEnvId_eq : nextEnvId old e = nextGeneration old ||| BitVec.ofNat 32 e := rfl

theorem nextGeneration_mask : nextGeneration old &&& 1023#32 = 0#32 := by
  rw [nextGeneration]
  split
  · decide
  · rw [BitVec.and_assoc, show ~~~1023#32 &&& 1023#32 = 0#32 by decide, BitVec.and_zero]

/-- A generation is a positive number, with room for the slot below it. -/
theorem nextGeneration_bounds :
    0 < (nextGeneration old).toNat ∧ (nextGeneration old).toNat + 1024 ≤ 2147483648 := by
  rw [nextGeneration]
  split
  · decide
  · rename_i hpos
    generalize hg : (old + 0x1000#32) &&& ~~~1023#32 = g at hpos
    have hmul : g.toNat % 1024 = 0 := by
      rw [← hg, and_not_mask]
      exact Nat.mul_mod_left _ _
    rw [BitVec.sle_iff_toInt_le, BitVec.toInt_eq_toNat_cond] at hpos
    have hzero : BitVec.toInt (0 : Word) = 0 := by decide
    rw [hzero] at hpos
    split at hpos <;> omega

theorem nextEnvId_toNat_eq : (nextEnvId old e).toNat = (nextGeneration old).toNat + e := by
  rw [nextEnvId_eq, or_slot e (nextGeneration_mask old)]

/-- Every id is positive as a signed number. -/
theorem nextEnvId_pos : 0 < (nextEnvId old e).toInt := by
  have hlt : e.val < 1024 := e.isLt
  have hbounds := nextGeneration_bounds old
  rw [BitVec.toInt_eq_toNat_cond, nextEnvId_toNat_eq]
  split <;> omega

theorem nextEnvId_not_neg : (nextEnvId old e).slt 0 = false := by
  have hpos := nextEnvId_pos old e
  rw [Bool.eq_false_iff, ne_eq, BitVec.slt_iff_toInt_lt]
  have hzero : BitVec.toInt (0 : Word) = 0 := by decide
  rw [hzero]
  omega

theorem nextEnvId_ne_zero : nextEnvId old e ≠ 0 := by
  intro h
  have hpos := nextEnvId_pos old e
  rw [h] at hpos
  exact absurd hpos (by decide)

/-- `ENVX` of an id is the slot it was made for. -/
theorem envx_nextEnvId : envx (nextEnvId old e) = e := by
  have hlt : e.val < 1024 := e.isLt
  have hgen : (nextGeneration old).toNat % 1024 = 0 := by
    have hmask := congrArg BitVec.toNat (nextGeneration_mask old)
    rw [BitVec.toNat_and] at hmask
    exact (Nat.and_two_pow_sub_one_eq_mod _ 10).symm.trans hmask
  apply Fin.ext
  have hmask : ∀ n : Nat, n &&& 1023 = n % 1024 := fun n => Nat.and_two_pow_sub_one_eq_mod n 10
  change (nextEnvId old e &&& 1023#32).toNat = e.val
  rw [BitVec.toNat_and, nextEnvId_toNat_eq]
  change ((nextGeneration old).toNat + e.val) &&& 1023 = e.val
  rw [hmask]
  omega

/-- From generation `n` the next one is `n + 1`, and 1 after the last. -/
theorem nextEnvId_of_generation {n : Nat} (hn : n ≤ 524287) (old : Word)
    (hold : old.toNat / 4096 = n) (hlow : old.toNat % 4096 < 1024) :
    (nextEnvId old e).toNat = (if n = 524287 then 1 else n + 1) * 4096 + e := by
  have hadd : (old + 0x1000#32).toNat = old.toNat + 4096 := by
    rw [BitVec.toNat_add]
    change (old.toNat + 4096) % 2 ^ 32 = _
    omega
  have hmask : ((old + 0x1000#32) &&& ~~~1023#32).toNat = (n + 1) * 4096 := by
    rw [and_not_mask, hadd]
    omega
  rw [nextEnvId_toNat_eq, nextGeneration]
  have hzero : BitVec.toInt (0 : Word) = 0 := by decide
  have hsle : ((old + 0x1000#32) &&& ~~~1023#32).sle 0 = true ↔ n = 524287 := by
    rw [BitVec.sle_iff_toInt_le, BitVec.toInt_eq_toNat_cond, hmask, hzero]
    split <;> omega
  by_cases hlast : n = 524287
  · rw [if_pos (hsle.mpr hlast), if_pos hlast]
    rfl
  · rw [if_neg fun h => hlast (hsle.mp h), if_neg hlast, hmask]

/-- The id of the `n`-th environment in a slot, counted from 1. -/
def envIdAt (n : Nat) : Word := (fun id => nextEnvId id e)^[n] 0

theorem envIdAt_succ (n : Nat) : envIdAt e (n + 1) = nextEnvId (envIdAt e n) e := by
  rw [envIdAt, Function.iterate_succ_apply']
  rfl

/-- The generations of a slot go round. -/
theorem envIdAt_toNat (n : Nat) :
    (envIdAt e (n + 1)).toNat = (n % 524287 + 1) * 4096 + e := by
  have hlt : e.val < 1024 := e.isLt
  induction n with
  | zero =>
      exact nextEnvId_of_generation e (n := 0) (by decide) 0 (by decide) (by decide)
  | succ n ih =>
      rw [envIdAt_succ, nextEnvId_of_generation e (n := n % 524287 + 1) (by omega) _
        (by omega) (by omega)]
      split <;> omega

/-- Ids of one slot that are less than `2^19 - 1` allocations apart differ. -/
theorem envIdAt_ne {i j : Nat} (hij : i < j) (hnear : j < i + 524287) :
    envIdAt e (i + 1) ≠ envIdAt e (j + 1) := by
  intro h
  have hval := congrArg BitVec.toNat h
  rw [envIdAt_toNat, envIdAt_toNat] at hval
  omega

end Jos
