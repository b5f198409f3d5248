import Jos.Boot.KernelMap

/-!
# The environments above `UTOP`

In a booted kernel the first page of `envs[]` is mapped at `UTOP`, below the page tables that
all address spaces share. Self tests, local APICs and the loading of programs leave the entry
alone.
-/

namespace Jos

open Prog

namespace KernTree

variable {m : Machine} {n : Nat} {l : List Nat} {p q : Phys} {entries : Nat → Word}

/-- The tests only use free pages. -/
theorem selfTest_entries (h : KernTree m.toHardware n l p) (test : SelfTest p q)
    (hM : KernEntries m.toHardware entries p) : KernEntries m.toHardware entries q := by
  have hmem : ∀ f, f ∉ l → q.mem f = p.mem f := fun f hf =>
    test.mem f fun hlinked => hf (h.free.linked_iff.mp hlinked)
  have hdir : ∀ i, q.word m.kernPgdir i = p.word m.kernPgdir i :=
    fun i => p.word_congr (hmem _ h.kern_not_mem)
  refine ⟨fun i j hlow hi => ?_, fun i hi hp => ?_⟩
  · rw [← hM.entry i j hlow hi, Phys.entryOf, Phys.entryOf, hdir]
    by_cases hp : p.word m.kernPgdir i &&& pteP = 0
    · rw [if_pos hp, if_pos hp]
    · rw [if_neg hp, if_neg hp]
      exact p.word_congr (hmem _ (h.table i hi hp).2)
  · rw [hdir] at hp ⊢
    exact hM.pde i hi hp

/-- The registers of the local APICs are mapped from `MMIOBASE` on. -/
theorem lapicInits_entries (h : KernTree m.toHardware n l p)
    (hM : KernEntries m.toHardware entries p) (hn : 69 ≤ n) {k : Nat} {base next : Word}
    (hbase : 4018143232 ≤ base.toNat) (haligned : base.toNat % 4096 = 0)
    (hfit : base.toNat ≤ 4022337536) (run : Jos.lapicInits m.toHardware k base p = .ret next q) :
    ∃ l' entries', KernTree m.toHardware n l' q ∧ KernEntries m.toHardware entries' q ∧
      ∀ pn < 980992, entries' pn = entries pn := by
  induction k generalizing base p l entries with
  | zero =>
      rw [Jos.lapicInits, pure_run] at run
      obtain ⟨-, rfl⟩ := Outcome.ret.inj run
      exact ⟨l, entries, h, hM, fun _ _ => rfl⟩
  | succ k ih =>
      rw [Jos.lapicInits] at run
      cases hl : m.lapicaddr with
      | none =>
          have hnone : lapicInit m.toHardware base p = .ret base p := by
            rw [lapicInit, hl]
            rfl
          rw [bind_ret _ hnone] at run
          exact ih h hM hbase haligned hfit run
      | some a =>
          by_cases hone : base.toNat + 1 * 4096 ≤ 4022337536
          · obtain ⟨r, l', hrun, hr, hMr⟩ := h.mmioRegion hM hn base hbase haligned hone a
            have hsome : lapicInit m.toHardware base p =
                .ret (base + BitVec.ofNat 32 (1 * 4096)) r := by
              rw [lapicInit, hl]
              exact hrun
            have hsum := mmio_next hone
            rw [bind_ret _ hsome] at run
            obtain ⟨l'', E, hq, hE, hsame⟩ :=
              ih hr hMr (by omega) (by omega) (by omega) run
            refine ⟨l'', E, hq, hE, fun pn hpn => ?_⟩
            rw [hsame pn hpn, Region.overlay]
            exact if_neg fun hc => by
              have hlow := hc.1
              rw [Region.first] at hlow
              dsimp only at hlow
              omega
          · have hover : base + BitVec.ofNat 32 (1 * 4096) > mmiolim := by
              have hlim : mmiolim.toNat = 4022337536 := by decide
              rw [gt_iff_lt, BitVec.lt_def, BitVec.toNat_add, BitVec.toNat_ofNat]
              omega
            have hpanic : lapicInit m.toHardware base p = .panic .mmioLimit := by
              rw [lapicInit, hl]
              dsimp only
              rw [Jos.mmioMapRegion, if_pos hover]
              rfl
            rw [bind_panic _ hpanic] at run
            cases run

end KernTree

variable {m : Machine} {binaries : List Binary} {k : Kernel}

/-- The kernel's half before the first program is loaded. -/
theorem Booted.kernEntries (h : Booted m binaries k) (room : m.firstFree + 68 ≤ m.npages) :
    ∃ n l p entries, KernTree m.toHardware n l p ∧ KernEntries m.toHardware entries p ∧
      (∀ pn < 980992, entries pn = Region.overlays (fun _ => 0) m.mappings pn) ∧
      envCreates binaries (envInit m.toHardware p) = .ret () k := by
  obtain ⟨p₁, p₂, p₃, p₄, p₅, base, next, hstart, htest, hrest, htest', hlapic, hcreate⟩ := h
  obtain ⟨q₁, l₁, hrun₁, h₁, hfree, hzero⟩ := KernTree.start m
  obtain ⟨-, rfl⟩ := Outcome.ret.inj (hrun₁.symm.trans hstart)
  have hlen := m.length_free hfree
  have hM₁ := KernTree.empty_entries (m := m) fun i hi => by rw [hzero i hi]; decide
  have hM₂ := h₁.selfTest_entries htest hM₁
  obtain ⟨l₂, h₂, -⟩ := h₁.count_self.selfTest htest
  obtain ⟨q₃, l₃, hrun₃, h₃, hM₃⟩ := h₂.checkMmio_entries hM₂ (by omega)
  obtain ⟨q₄, l₄, hrun₄, h₄, hM₄⟩ := h₃.mapKernel_entries hM₃ (by omega)
  have hrun : memInitRest m.toHardware p₂ = .ret (mmiobase + 12288) q₄ := by
    rw [memInitRest, bind_ret _ hrun₃, bind_ret _ hrun₄]
    rfl
  obtain ⟨rfl, rfl⟩ := Outcome.ret.inj (hrun.symm.trans hrest)
  have hM₅ := h₄.selfTest_entries htest' hM₄
  obtain ⟨l₅, h₅, -⟩ := h₄.selfTest htest'
  obtain ⟨l₆, E, h₆, hE, hsame⟩ :=
    h₅.lapicInits_entries hM₅ (by omega) (by decide) (by decide) (by decide) hlapic
  exact ⟨_, l₆, p₅, E, h₆, hE, hsame, hcreate⟩

/-- The first page of `envs[]` is mapped at `UTOP`, for users to read. -/
theorem Booted.envs_mapped (h : Booted m binaries k) (room : m.firstFree + 68 ≤ m.npages) :
    k.phys.word m.kernPgdir (pdx utop) &&& pteP ≠ 0 ∧
      k.phys.word (pgnum (k.phys.word m.kernPgdir (pdx utop))) (ptx utop) =
        mkPte m.envsAlloc.1 (pteU ||| pteP) := by
  obtain ⟨n, l, p, E, htree, hE, hsame, hcreate⟩ := h.kernEntries room
  obtain ⟨-, -, -, -, -, -, hidle⟩ := envInit_spec m.toHardware p
  obtain ⟨hmem, -⟩ := (wp_ret hcreate).mp
    (htree.memInv.envCreates (X := fun _ _ => False) hidle binaries)
  -- what is not free when the programs are loaded stays as it is
  have hword : ∀ f i, f ∉ l → k.phys.word f i = p.word f i := fun f i hf =>
    p.word_congr (hmem.phys.tables.frozen f hf)
  have hcovers : m.envsRegion.Covers (pgnum utop) := by
    simp only [Region.Covers, Region.first, Hardware.envsRegion]
    decide
  have hfirst : m.envsRegion.first = pgnum utop := by
    change uenvs.toNat / 4096 = pgnum utop
    decide
  have hentry : E (pgnum utop) = mkPte m.envsAlloc.1 (pteU ||| pteP) := by
    rw [hsame _ (by decide), m.memlayout_entry (m.mem_memlayout.mpr (.inr (.inl rfl))) hcovers,
      Region.entry, hfirst, Nat.sub_self]
    rfl
  have hpn : pageNumber (pdx utop) (ptx utop) = pgnum utop := by decide
  have hwalk := hE.entry (pdx utop) (ptx utop) (by decide) (by decide)
  rw [hpn, hentry, Phys.entryOf] at hwalk
  rw [hword _ _ htree.kern_not_mem]
  have hp : p.word m.kernPgdir (pdx utop) &&& pteP ≠ 0 := by
    intro hnone
    rw [if_pos hnone] at hwalk
    exact mkPte_present m.envsAlloc.1 (pteU ||| pteP) (by rw [← hwalk]; decide)
  rw [if_neg hp] at hwalk
  exact ⟨hp, (hword _ _ (htree.table _ (by decide) hp).2).trans hwalk⟩

end Jos
