import Jos.Pmap.Remove
import Jos.Safety.Frames

/-!
# Unmapping what is not mapped

The contract of `page_remove` and of `sys_page_unmap`, which only calls it, and
the hole of the first environment for which both break it.
-/

namespace Jos

open Prog

/-- `page_lookup`, `page_remove` and `sys_page_unmap` do what they should at `va` of the
page directory `d`; `D` are the page directories in use. -/
structure UnmapCorrect (D : Set Nat) (d : Nat) (va : Word) (p : Phys) : Prop where
  remove : RemoveCorrect D d va p
  unmap : p.translate d va = none → ∀ (k : Kernel) cur envid e, k.phys = p →
    k.envid2env cur envid true = some e → (k.envs e).pgdir = some d → vaOk va →
    sysPageUnmap cur envid va k = .ret 0 k

/-- They do exactly where there is no page table for `va`, or where its entry is present and
may be removed. -/
theorem unmap_correct_iff (D : Set Nat) (d : Nat) (va : Word) (p : Phys) :
    UnmapCorrect D d va p ↔ p.word d (pdx va) &&& pteP = 0 ∨ p.Removable D d va := by
  refine ⟨fun h => removeCorrect_iff.mp h.remove, fun h => ?_⟩
  have hremove := removeCorrect_iff.mpr h
  refine ⟨hremove, fun hnone k cur envid e hphys target hpgdir hva => ?_⟩
  subst hphys
  have hrun : pmap (pageRemove d va) k = .ret () k := pmap_ret (hremove.unmapped hnone).2
  rw [sysPageUnmap, bind_ret _ (envid2env_run target)]
  dsimp only
  rw [if_neg (not_not.mpr hva), bind_ret _ (pgdirOf_run hpgdir), bind_ret _ hrun]
  rfl

/-- The first environment has a hole at `0x801000`. -/
theorem unmap_hole_incorrect : ∃ k₀ k d, Booted qemu [intProgram] k₀ ∧ Run SafeStep k₀ k ∧
    k.Executes 0 0 d ∧ k.phys.translate d 0x801000 = none ∧
    ¬ UnmapCorrect {d} d 0x801000 k.phys := by
  obtain ⟨k₀, k, d, L, hbooted, hrun, hruns, -, hmem⟩ := qemu_runs
  obtain ⟨t, holes⟩ := hruns.holes hmem
  have hempty : k.phys.word (pgnum (k.phys.word d (pdx 0x801000))) (ptx 0x801000) &&& pteP = 0 := by
    rw [holes.table, holes.first]
    decide
  refine ⟨k₀, k, d, hbooted, hrun, hruns.executes, Phys.translate_of_hole hempty, fun h => ?_⟩
  refine not_removeCorrect_of_hole holes.present ?_ hempty h.remove
  rw [holes.table]
  exact holes.table_lt

end Jos
