import Jos.Kernel.Printfmt
import Jos.Safety.Frames
import Jos.User.FaultRecord

/-!
# `sys_cputs` at the edge of what is mapped

The first environment prints an empty string where nothing is mapped, and the last byte of
its page after it has stored a NUL there.
-/

namespace Jos

open Prog

variable {k : Kernel} {c d : Nat} {e : EnvIdx} {va len perm : Word}

theorem userMemAssert_run (hd : k.dirs e = some d)
    (granted : userMemCheck d va len (perm ||| pteU) k.phys = .ret none k.phys) :
    userMemAssert c e va len perm k = .ret () k := by
  rw [userMemAssert, bind_ret _ (pgdirOf_run hd), bind_ret _ (pmap_ret granted)]
  rfl

/-- The check of an empty range looks at no page. -/
theorem userMemCheck_empty (p : Phys) (haligned : va.toNat % 4096 = 0) :
    userMemCheck d va 0 perm p = .ret none p := by
  have hround : roundup (va + 0) = va := by
    rw [roundup]
    apply BitVec.eq_of_toNat_eq
    rw [rounddown_toNat, BitVec.toNat_sub, BitVec.toNat_add, BitVec.toNat_add]
    have hlt := va.isLt
    change (4294967296 - 1 + ((va.toNat + 0) % 4294967296 + 4096) % 4294967296) % 4294967296 /
      4096 * 4096 = va.toNat
    omega
  have hdown : rounddown va = va := by
    apply BitVec.eq_of_toNat_eq
    rw [rounddown_toNat]
    omega
  rw [userMemCheck, hround, hdown, userMemScan, if_neg (BitVec.lt_irrefl va)]
  rfl

/-- The first environment prints the empty string at `0x801000`: the check has nothing to look
at, and the kernel reads the byte behind it. -/
theorem sys_cputs_faults : ∃ k₀ k d, Booted qemu [intProgram] k₀ ∧ Run SafeStep k₀ k ∧
    k.Executes 0 0 d ∧ userMemAssert 0 0 0x801000 0 pteU k = .ret () k ∧
    sysCputs 0 0 0x801000 0 k = .panic .kernelFault ∧ ¬ CputsSafe k 0 0 0x801000 0 := by
  obtain ⟨k₀, k, d, L, hbooted, hrun, hruns, -, hmem⟩ := qemu_runs
  obtain ⟨t, holes⟩ := hruns.holes hmem
  have hempty : k.phys.word (pgnum (k.phys.word d (pdx 0x801000))) (ptx 0x801000) &&& pteP = 0 := by
    rw [holes.table, holes.first]
    decide
  have hcr3 : (k.cpus 0).cr3 = d := by rw [hruns.executes.cpu]
  have hbyte : k.phys.byteAt (k.cpus 0).cr3 0x801000 = none := by
    rw [hcr3, Phys.byteAt, Phys.translate_of_hole hempty]
    rfl
  have accepted : userMemAssert 0 0 0x801000 0 pteU k = .ret () k :=
    userMemAssert_run hruns.executes.pgdir (userMemCheck_empty _ (by decide))
  have hfault : (printString (k.phys.byteAt (k.cpus 0).cr3) 0x801000 0).fault = true := by
    rw [printString, if_neg (by decide), stringLoop, hbyte]
  have hpanic : sysCputs 0 0 0x801000 0 k = .panic .kernelFault := by
    rw [sysCputs_run accepted, if_pos hfault]
  exact ⟨k₀, k, d, hbooted, hrun, hruns.executes, accepted, hpanic, fun h => h.2 hpanic⟩

/-- The walk to a page below `UTOP`: its directory entry restricts nothing. -/
theorem MemInv.page_walk {L : Layout} {f : Nat} (h : MemInv L k) (hd : k.dirs e = some d)
    (hva : va < utop) (hf : k.phys.target k.dirs (.pte e (pdx va) (ptx va)) = some f) :
    let pde := k.phys.word d (pdx va)
    k.phys.translate d va = some (pde, k.phys.pteAt k.dirs e (pdx va) (ptx va)) ∧
      pde &&& pteP ≠ 0 ∧ (pde &&& pteU ≠ 0 ∧ pde &&& pteW ≠ 0) ∧ pgnum pde < k.phys.npages ∧
      k.phys.word (pgnum pde) (ptx va) = k.phys.pteAt k.dirs e (pdx va) (ptx va) := by
  obtain ⟨t, ht, hentry⟩ := Phys.table_of_page hf
  obtain ⟨hp, hnum, hlt⟩ := h.phys.table_walk hd ht
  have hpde := h.phys.tables.userPde e (pdx va) (by rw [ht]; simp)
  rw [Phys.pdeAt_of_dir hd ((pdx_lt_iff va).mpr hva)] at hpde
  have hpresent : k.phys.word t (ptx va) &&& pteP ≠ 0 := by
    rw [entryFrame] at hentry
    split at hentry
    · assumption
    · simp at hentry
  dsimp only
  rw [Phys.translate_of_present hp (by rwa [hnum]), hnum, Phys.pteAt_of_table ht]
  exact ⟨rfl, hp, hpde, hlt, rfl⟩

/-- The first environment has stored a NUL into the last byte of its page, and prints this
byte. -/
theorem sys_cputs_safe_iff_last : ∃ k₀ k d, Booted qemu [intProgram] k₀ ∧ Run SafeStep k₀ k ∧
    k.Executes 0 0 d ∧ userMemAssert 0 0 0x800FFF 1 pteU k = .ret () k ∧
    CputsSafe k 0 0 0x800FFF 1 := by
  obtain ⟨k₀, k, d, L, hbooted, hrun, hruns, -, hmem⟩ := qemu_runs
  have hd : k.dirs 0 = some d := hruns.executes.pgdir
  have hcr3 : (k.cpus 0).cr3 = d := by rw [hruns.executes.cpu]
  -- the page of the program is mapped and writable
  obtain ⟨f, hf, hentry, -⟩ := hruns.mapped (pdx 0x800FFF) (ptx 0x800FFF) (by decide)
  have htarget : k.phys.target k.dirs (.pte 0 (pdx 0x800FFF) (ptx 0x800FFF)) = some f := by
    rw [Phys.target, hentry, entryFrame_mkPte hf (by decide)]
  have hwalk := hmem.page_walk hd (by decide) htarget
  dsimp only at hwalk
  rw [hentry] at hwalk
  obtain ⟨walk, hp, hpde, hlt, hword⟩ := hwalk
  have hpte : mkPte f (pteU ||| pteW) &&& pteU ≠ 0 ∧ mkPte f (pteU ||| pteW) &&& pteW ≠ 0 := by
    constructor
    all_goals
      rw [mkPte_and f _ (by decide)]
      decide
  have hplain : k.phys.Plain d (pgnum (mkPte f (pteU ||| pteW))) := by
    rw [pgnum_mkPte hf (by decide)]
    exact hmem.plain hd htarget
  set k₁ : Kernel := { k with
    phys := k.phys.setByte (pgnum (mkPte f (pteU ||| pteW))) (pgoff 0x800FFF) 0 }
  have hstep : Step k (.store 0 0x800FFF 0) k₁ := by
    refine .store (by rw [Kernel.mode, hruns.executes.cpu]) (by rw [hcr3]; exact walk)
      ⟨hpde.1, hpte.1⟩ ⟨hpde.2, hpte.2⟩
  have hrun' : Run SafeStep k₀ k₁ :=
    hrun.tail ⟨_, .of_calls fun call hc => absurd hc.1 (by decide), hstep⟩
  have hstores : Phys.Stores (· = pgoff 0x800FFF) d k.phys k₁.phys := .setByte hplain _ 0
  have hnul : k₁.phys.byteAt (k₁.cpus 0).cr3 0x800FFF = some 0 := by
    rw [show (k₁.cpus 0).cr3 = d from hcr3]
    exact Phys.byteAt_setByte walk hplain 0
  have hexec : k₁.Executes 0 0 d :=
    ⟨hruns.executes.unlocked, hruns.executes.cpu, hruns.executes.running, hruns.executes.pgdir⟩
  have hchecked : ∃ q, userMemCheck d 0x800FFF 1 (pteU ||| pteU) k₁.phys = .ret none q := by
    refine (userMemCheck_none_iff _ _ _ _ _).mpr fun a haligned hlow hhigh => ?_
    have ha : a = 0x800000 := by
      have hlow' : 8388608 ≤ a.toNat := BitVec.le_def.mp hlow
      have hhigh' : a.toNat < 8392704 := BitVec.lt_def.mp hhigh
      apply BitVec.eq_of_toNat_eq
      change a.toNat = 8388608
      omega
    have hidx' : pdx 0x800000 = pdx 0x800FFF ∧ ptx 0x800000 = ptx 0x800FFF := by decide
    rw [ha, Phys.PageGranted, hidx'.1, hidx'.2, hstores.word_dir, hstores.word_table hp, hword,
      hstores.npages, mkPte_and f _ (by decide)]
    exact ⟨by decide, hp, hlt, by decide⟩
  have accepted : userMemAssert 0 0 0x800FFF 1 pteU k₁ = .ret () k₁ := by
    obtain ⟨q, hq⟩ := hchecked
    have htables : ∀ i, k₁.phys.word d i &&& pteP ≠ 0 →
        pgnum (k₁.phys.word d i) < k₁.phys.npages := by
      intro i hi
      rw [hstores.word_dir] at hi ⊢
      rw [hstores.npages]
      exact hmem.table_lt hd hi
    obtain ⟨r, hr⟩ := userMemCheck_ret 0x800FFF 1 (pteU ||| pteU) htables
    cases hr.symm.trans hq
    exact userMemAssert_run hruns.executes.pgdir hr
  refine ⟨k₀, k₁, d, hbooted, hrun', hexec, accepted,
    (sys_cputs_safe_iff accepted).mpr (.inr ⟨0, by decide, ?_, hnul⟩)⟩
  exact fun j hj => absurd hj (Nat.not_lt_zero j)

end Jos
