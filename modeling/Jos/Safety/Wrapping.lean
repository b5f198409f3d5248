import Jos.Safety.Frames
import Jos.Safety.References

/-!
# The 65536th reference

`pp_ref` has 16 bits, and one page can be mapped far more often below `UTOP`. As long as
no `sys_page_map` maps a page for the 65536th time, `pp_ref` is the number of entries that
map the page, and no page that is mapped is on the free list. The program at the end maps
its page until the count is 0.
-/

namespace Jos

open Prog

section Steps

/-- `sys_page_map` maps a page that is mapped 65535 times at one more place, if there is memory
for a page table. -/
def Kernel.Overflows (k : Kernel) (cur : EnvIdx) (tf : Trapframe) : Prop :=
  tf.Calls .pageMap ∧ ∃ src dst f, k.envid2env cur tf.regs.edx true = some src ∧
    k.envid2env cur tf.regs.ebx true = some dst ∧ vaOk tf.regs.ecx ∧ vaOk tf.regs.edi ∧
    permOk tf.regs.esi ∧ k.pageAt src tf.regs.ecx = some f ∧
    (tf.regs.esi &&& pteW ≠ 0 → k.entryAt src tf.regs.ecx &&& pteW ≠ 0) ∧
    k.pageAt dst tf.regs.edi ≠ some f ∧ k.phys.ref f = 65535

/-- `sys_page_unmap`, or `sys_page_map` for reading, of an address where there is a page table but
no page. -/
def Kernel.MeetsHole (k : Kernel) (cur : EnvIdx) (tf : Trapframe) : Prop :=
  (tf.Calls .pageUnmap ∨ tf.Calls .pageMap ∧ tf.regs.esi &&& pteW = 0) ∧
    ∃ e, k.envid2env cur tf.regs.edx true = some e ∧ vaOk tf.regs.ecx ∧ k.HoleAt e tf.regs.ecx

/-- Pages are mapped and unmapped, among other things. -/
structure MapStep (k : Kernel) (ev : Event) : Prop where
  calls : ∀ call, ev.frame.Calls call →
    call ∉ [SysCall.envSetStatus, .envDestroy, .ipcTrySend]
  present : ∀ cur, k.Enters ev.cpu cur → ¬ k.MeetsHole cur ev.frame
  fits : ∀ cur, k.Enters ev.cpu cur → ¬ k.Overflows cur ev.frame

theorem MapStep.safe {k : Kernel} {ev : Event} (h : MapStep k ev) : SafeStep k ev := by
  refine ⟨.of_calls h.calls, fun cur enters => ⟨fun e call target hva hhole => ?_,
    fun src dst call hsrc hdst hva hva' hperm => ⟨fun hhole hread => ?_, fun f hf hwrite => ?_⟩,
    fun _ call => absurd (by decide) (h.calls _ call)⟩⟩
  · exact h.present cur enters ⟨.inl call, e, target, hva, hhole⟩
  · exact h.present cur enters ⟨.inr ⟨call, hread⟩, src, hsrc, hva, hhole⟩
  · refine ⟨hva'.1, ?_⟩
    by_contra hmore
    rw [not_or, not_not] at hmore
    exact h.fits cur enters
      ⟨call, src, dst, f, hsrc, hdst, hva, hva', hperm, hf, hwrite, hmore.1, hmore.2⟩

end Steps

/-- `pp_ref` of every page is the number of page table entries that map it, but for page tables,
page directories and what the kernel keeps since `k₀`; and what is mapped is not free. -/
structure CountsExact (k₀ k : Kernel) : Prop where
  mapped : ∀ f, (k.mappings f).Nonempty → (k.phys.ref f).toNat = (k.mappings f).ncard
  unmapped : ∀ f, k.mappings f = ∅ → k.phys.ref f = 0 ∨ (k.tableEntries f).Nonempty ∨
    k.IsDirectory f ∨ k.phys.pages f = k₀.phys.pages f
  freed : ∀ f, k.phys.Listed f → k.mappings f = ∅

theorem MemInv.countsExact {L : Layout} {k₀ k : Kernel} (h₀ : MemInv L k₀) (h : MemInv L k) :
    CountsExact k₀ k := by
  classical
  refine ⟨fun f hf => ?_, fun f hnone => ?_, fun f hlisted => ?_⟩
  · obtain ⟨⟨e, i, j⟩, hf⟩ := hf
    rw [Kernel.mem_mappings] at hf
    have hplain := h.phys.tables.unshared.page_not_structural hf
    have htables : k.tableEntries f = ∅ := by
      rw [Set.eq_empty_iff_forall_notMem]
      rintro ⟨e', i'⟩ ht
      exact hplain (.inr ⟨e', i', Kernel.mem_tableEntries.mp ht⟩)
    have hdir : ¬ k.IsDirectory f := fun ⟨e', _, hd⟩ => hplain (.inl ⟨e', hd⟩)
    rw [h.ref_eq (h.phys.tables.owned _ f hf), htables, if_neg hdir, Set.ncard_empty,
      Nat.add_zero]
  · by_cases howned : L.owned f
    · by_cases htables : (k.tableEntries f).Nonempty
      · exact .inr (.inl htables)
      · by_cases hdir : k.IsDirectory f
        · exact .inr (.inr (.inl hdir))
        · left
          rw [Set.not_nonempty_iff_eq_empty] at htables
          have href := h.ref_eq howned
          rw [hnone, htables, if_neg hdir, Set.ncard_empty, Set.ncard_empty] at href
          exact BitVec.eq_of_toNat_eq href
    · refine .inr (.inr (.inr ?_))
      rw [h.phys.counts.frozen f howned, h₀.phys.counts.frozen f howned]
  · rw [Set.eq_empty_iff_forall_notMem]
    rintro ⟨e, i, j⟩ hf
    exact h.phys.listed_fresh hlisted _ (Kernel.mem_mappings.mp hf)

variable {m : Machine} {binaries : List Binary} {k₀ k₁ k : Kernel}

/-- In every run, from any state that a safe run reaches. -/
theorem reference_counts_exact (booted : Booted m binaries k₀) (before : Run SafeStep k₀ k₁)
    (run : Run MapStep k₁ k) : CountsExact k₀ k := by
  obtain ⟨L, -, h₀, h, -⟩ := booted.run (before.trans (run.mono fun _ _ h => h.safe))
  exact h₀.countsExact h

/-! ### Mapping a page 65536 times -/

/-- `page_insert` where nothing is mapped. A new page table costs a free page. -/
theorem Phys.Inv.insertNew {L : Layout} {dirs : EnvIdx → Option Nat} {p : Phys} {e : EnvIdx}
    {d pp n : Nat} {va perm : Word} (h : p.Inv L dirs none) (hd : dirs e = some d)
    (hva : va < utop) (hpp : Phys.Mappable L dirs p pp)
    (hnone : p.target dirs (.pte e (pdx va) (ptx va)) = none)
    (room : p.FreePages (if p.target dirs (.pde e (pdx va)) = none then n + 1 else n)) :
    ∃ q, pageInsert d pp va perm p = .ret 0 q ∧
      Phys.Edits dirs p q e (pdx va) (ptx va) (mkPte pp perm) ∧ q.ref pp = p.ref pp + 1 ∧
      q.FreePages n := by
  have hwalk : ∃ q t, pgdirWalk d va true p = .ret (some ⟨t, ptx va⟩) q ∧ q.Inv L dirs none ∧
      q.target dirs (.pde e (pdx va)) = some t ∧ Phys.Keeps dirs p q ∧ q.FreePages n := by
    cases ht : p.target dirs (.pde e (pdx va)) with
    | some t =>
        rw [ht, if_neg (by simp)] at room
        obtain ⟨hp, hnum, hlt⟩ := h.table_walk hd ht
        refine ⟨p, t, ?_, h, ht, .refl dirs p, room⟩
        rw [pgdirWalk_found hp (by rwa [hnum]), hnum]
    | none =>
        rw [ht, if_pos rfl] at room
        rcases h.walk hd hva with ⟨q, t, hwalk, hq, htab, hkeeps, hfree⟩ | ⟨-, head⟩
        · exact ⟨q, t, hwalk, hq, htab, hkeeps, hfree n room⟩
        · obtain ⟨f, hf⟩ := room.head
          rw [head] at hf
          simp at hf
  obtain ⟨q, t, hwalk, hq, ht, hkeeps, hfree⟩ := hwalk
  have hempty : q.word t (ptx va) &&& pteP = 0 := by
    rw [← Phys.pteAt_of_table ht, hkeeps.pteAt]
    exact target_pte_eq_none.mp hnone
  refine ⟨_, pageInsert_empty hwalk hempty, Phys.Inv.edits hkeeps hq.tables.unshared ht rfl, ?_,
    (hfree.congr (q := q.setWord t (ptx va) (mkPte pp perm)) rfl rfl).setRef _⟩
  rw [Phys.setRef_ref_self, hkeeps.ref pp hpp.unlisted]

/-- The place of the `n`th alias. -/
def aliasVa (n : Nat) : Word :=
  pgaddr (Fin.ofNat 1024 (3 + n / 1024)) (Fin.ofNat 1024 (n % 1024))

theorem aliasVa_number {n : Nat} (h : n < 65536) :
    pageNumber (pdx (aliasVa n)) (ptx (aliasVa n)) = 3072 + n := by
  simp only [aliasVa, pdx_pgaddr, ptx_pgaddr, pageNumber, Fin.ofNat]
  omega

theorem aliasVa_ok {n : Nat} (h : n < 65536) : vaOk (aliasVa n) := by
  refine ⟨(pdx_lt_iff _).mp ?_, ?_⟩
  · simp only [aliasVa, pdx_pgaddr, Fin.ofNat]
    omega
  · rw [pgoff_eq, aliasVa, pgaddr_toNat]
    omega

/-- It is mapped there. -/
def aliasEvent (n : Nat) : Event :=
  .trap 0 (callFrame .pageMap 0 0x800000 0 (aliasVa n) (pteU ||| pteP)) 0 0

theorem aliasEvent_calls (n : Nat) : (aliasEvent n).frame.Calls .pageMap :=
  callFrame_calls .pageMap 0 0x800000 0 (aliasVa n) (pteU ||| pteP)

/-- The environment 0 has mapped its page `f` at `n` more places. There were `r` references to it
before. -/
structure Aliased (L : Layout) (d f r n : Nat) (k : Kernel) : Prop where
  executes : k.Executes 0 0 d
  mem : MemInv L k
  page_lt : f < 1048576
  page : k.entryAt 0 0x800000 = mkPte f (pteU ||| pteW)
  ref : (k.phys.ref f).toNat = r + n
  free : k.phys.FreePages (65 - (n + 1023) / 1024)
  table : n % 1024 ≠ 0 → k.phys.target k.dirs (.pde 0 (pdx (aliasVa n))) ≠ none
  rest : ∀ i j, 3072 + n ≤ pageNumber i j → i.val < 954 → k.phys.pteAt k.dirs 0 i j = 0

namespace Aliased

variable {L : Layout} {d f r n : Nat} {k : Kernel}

theorem pageAt (h : Aliased L d f r n k) : k.pageAt 0 0x800000 = some f := by
  have hentry : k.phys.pteAt k.dirs 0 (pdx 0x800000) (ptx 0x800000) = mkPte f (pteU ||| pteW) :=
    h.page
  rw [Kernel.pageAt, Phys.target, hentry, entryFrame_mkPte h.page_lt (by decide)]

/-- The next alias: the count grows, or becomes 0. -/
theorem next (h : Aliased L d f r n k) (hn : n < 65536) :
    ∃ k', Step k (aliasEvent n) k' ∧ k'.phys.ref f = k.phys.ref f + 1 ∧
      k'.pageAt 0 0x800000 = some f ∧ k'.pageAt 0 (aliasVa n) = some f ∧
      (r + n < 65535 → Aliased L d f r (n + 1) k') := by
  have hva := aliasVa_ok hn
  have hnum := aliasVa_number hn
  have hd : k.dirs 0 = some d := h.executes.pgdir
  have hmap := h.mem.mappable h.pageAt
  have hempty : k.phys.pteAt k.dirs 0 (pdx (aliasVa n)) (ptx (aliasVa n)) = 0 := by
    refine h.rest _ _ (by omega) ?_
    rw [pageNumber] at hnum
    omega
  have hnone : k.phys.target k.dirs (.pte 0 (pdx (aliasVa n)) (ptx (aliasVa n))) = none := by
    rw [Phys.target, hempty]
    exact entryFrame_zero
  -- every 1024th alias costs a page table
  have room : k.phys.FreePages (if k.phys.target k.dirs (.pde 0 (pdx (aliasVa n))) = none
      then 65 - (n + 1 + 1023) / 1024 + 1 else 65 - (n + 1 + 1023) / 1024) := by
    obtain ⟨l, hl, hlen⟩ := h.free
    refine ⟨l, hl, ?_⟩
    split
    · rename_i htable
      have hfirst : n % 1024 = 0 := by
        by_contra hne
        exact h.table hne htable
      omega
    · omega
  obtain ⟨q, hrun, hedit, href, hfree⟩ : ∃ q, pageInsert d f (aliasVa n) (pteU ||| pteP) k.phys =
      .ret 0 q ∧ _ := h.mem.phys.insertNew hd hva.1 hmap hnone room
  have hpage : q.pteAt k.dirs 0 (pdx 0x800000) (ptx 0x800000) = mkPte f (pteU ||| pteW) := by
    rw [hedit.pteAt_of_ne, ← h.page, Kernel.entryAt]
    rintro ⟨-, hpdx, hptx⟩
    rw [← hpdx, ← hptx] at hnum
    have hold : pageNumber (pdx 0x800000) (ptx 0x800000) = 2048 := by decide
    omega
  -- the system call
  generalize htf : callFrame .pageMap 0 0x800000 0 (aliasVa n) (pteU ||| pteP) = tf
  have hlive : k.status 0 ≠ .free := by
    rw [h.executes.running]
    decide
  have hlookup : lookupIn 0 0x800000 (k.setTf 0 tf) =
      .ret (some (f, mkPte f (pteU ||| pteW))) (k.setTf 0 tf) := by
    have hpage' : (k.setTf 0 tf).pageAt 0 0x800000 = some f := by
      rw [Kernel.pageAt_setTf, h.pageAt]
    have hlive' : (k.setTf 0 tf).status 0 ≠ .free := by rwa [Kernel.setTf_status]
    rw [h.mem.setTf.lookupIn_page hlive' (by decide) hpage', Kernel.entryAt_setTf, h.page]
  have hinsert : insertInto 0 f (aliasVa n) (pteU ||| pteP) (k.setTf 0 tf) =
      .ret 0 { k.setTf 0 tf with phys := q } :=
    insertInto_ret (Kernel.setTf_pgdir h.executes.pgdir) hrun
  have hsys := sysPageMap_run (Kernel.envid2env_zero true) (Kernel.envid2env_zero true)
    ⟨show vaOk 0x800000 by decide, hva⟩ hlookup (fun hw => hw.1 (by decide)) (by decide) hinsert
  rw [if_neg (by decide)] at hsys
  have hcall : syscall 0 0 0 (SysCall.pageMap).number 0 0x800000 0 (aliasVa n) (pteU ||| pteP)
      (k.setTf 0 (callFrame .pageMap 0 0x800000 0 (aliasVa n) (pteU ||| pteP))) =
      .ret 0 { k.setTf 0 (callFrame .pageMap 0 0x800000 0 (aliasVa n) (pteU ||| pteP)) with
        phys := q } := by
    rw [syscall, SysCall.ofNumber_number, htf]
    exact hsys
  obtain ⟨k', hstep, hlike⟩ := h.executes.memory hcall
  have hdirs : k'.dirs = k.dirs := hlike.dirs
  have hphys : k'.phys = q := hlike.phys
  refine ⟨k', hstep, by rw [hphys, href], ?_, ?_, fun hfits => ?_⟩
  · rw [Kernel.pageAt, hphys, hdirs, Phys.target, hpage, entryFrame_mkPte h.page_lt (by decide)]
  · rw [Kernel.pageAt, hphys, hdirs, Phys.target, hedit.pteAt_self,
      entryFrame_mkPte h.page_lt (by decide)]
  · have hmax : k.phys.ref f ≠ 65535 := by
      intro heq
      have href := h.ref
      rw [heq] at href
      change 65535 = r + n at href
      omega
    have hinv : q.Inv L k.dirs none := by
      have hinsert' : _ ∨ ∃ q', pageInsert d f (aliasVa n) (pteU ||| pteP) k.phys = .ret 0 q' ∧ _ :=
        h.mem.phys.insert hd hva.1 (by decide) hmap (.inr hmax)
      rcases hinsert' with ⟨hfail, -⟩ | ⟨q', hrun', hinv, -⟩
      · exact absurd (Outcome.ret.inj (hrun.symm.trans hfail)).1 (by decide)
      · obtain ⟨-, rfl⟩ := Outcome.ret.inj (hrun.symm.trans hrun')
        exact hinv
    refine ⟨hlike.executes ⟨h.executes.unlocked, h.executes.cpu, h.executes.running,
        h.executes.pgdir⟩, (h.mem.of_phys hinv).congr hlike.phys hlike.kernPgdir hlike.dirs
        fun e => by rw [hlike.status], h.page_lt, ?_, ?_, by rw [hphys]; exact hfree, fun hmid => ?_,
      fun i j hij hi => ?_⟩
    · rw [Kernel.entryAt, hphys, hdirs, hpage]
    · have hone : (1 : BitVec 16).toNat = 1 := rfl
      rw [hphys, href, BitVec.toNat_add, h.ref, hone]
      omega
    · -- the page table of this alias serves the next one, too
      have hpdx : pdx (aliasVa (n + 1)) = pdx (aliasVa n) := by
        simp only [aliasVa, pdx_pgaddr]
        congr 2
        omega
      rw [hphys, hdirs, hpdx]
      intro htable
      have hself := hedit.pteAt_self
      rw [Phys.pteAt_of_none htable] at hself
      exact mkPte_present f (pteU ||| pteP) (by rw [← hself]; decide)
    · rw [hphys, hdirs, hedit.pteAt_of_ne]
      · exact h.rest i j (by omega) hi
      · rintro ⟨-, rfl, rfl⟩
        omega

/-- All aliases up to the 65535th reference. -/
theorem run (h : Aliased L d f r 0 k) (hr : 1 ≤ r) (hn : r + n ≤ 65535) :
    ∃ k', Run (fun _ ev => ev.frame.Calls .pageMap) k k' ∧ Aliased L d f r n k' := by
  induction n with
  | zero => exact ⟨k, .refl, h⟩
  | succ n ih =>
      obtain ⟨k₁, hrun, h₁⟩ := ih (by omega)
      obtain ⟨k', hstep, -, -, -, hnext⟩ := h₁.next (by omega)
      exact ⟨k', hrun.tail ⟨_, aliasEvent_calls n, hstep⟩, hnext (by omega)⟩

end Aliased

/-- The page of the first program is mapped once, or twice if it is the stack, too. -/
theorem Kernel.OnlyFirst.ref {L : Layout} {k₀ k : Kernel} {f : Nat} (h : k.OnlyFirst)
    (h₀ : MemInv L k₀) (hmem : MemInv L k) (hpage : k.pageAt 0 0x800000 = some f) :
    1 ≤ (k.phys.ref f).toNat ∧ (k.phys.ref f).toNat ≤ 2 := by
  have hmappings : k.mappings f ⊆ {(0, 2, 0), (0, 954, 1021)} := by
    rintro ⟨e, i, j⟩ hf
    rw [Kernel.mem_mappings, Phys.target] at hf
    have hused : e = 0 ∧ (pageNumber i j = 2048 ∨ pageNumber i j = stackPage) := by
      by_contra hnot
      rw [h e i j hnot] at hf
      exact absurd (hf.symm.trans entryFrame_zero) (by simp)
    obtain ⟨rfl, hused⟩ := hused
    simp only [pageNumber, stackPage] at hused
    have hj := j.isLt
    rcases hused with hused | hused
    · left
      rw [show i = 2 from Fin.ext (by change i.val = 2; omega),
        show j = 0 from Fin.ext (by change j.val = 0; omega)]
    · right
      rw [show i = 954 from Fin.ext (by change i.val = 954; omega),
        show j = 1021 from Fin.ext (by change j.val = 1021; omega)]
      rfl
  have hcount := (h₀.countsExact hmem).mapped f ⟨(0, 2, 0), Kernel.mem_mappings.mpr hpage⟩
  have hle : (k.mappings f).ncard ≤ 2 :=
    (Set.ncard_le_ncard hmappings (Set.toFinite _)).trans
      ((Set.ncard_insert_le _ _).trans (by rw [Set.ncard_singleton]))
  have hpos : k.phys.ref f ≠ 0 :=
    hmem.phys.counts.ref_ne_zero (hmem.phys.tables.owned _ f hpage) hpage
  refine ⟨?_, hcount.trans_le hle⟩
  rw [Nat.one_le_iff_ne_zero]
  exact fun hzero => hpos (BitVec.eq_of_toNat_eq hzero)

/-- The first environment runs, and 65 pages are free. -/
theorem qemu_aliased : ∃ k₀ k L d f r, Booted qemu [intProgram] k₀ ∧ Run SafeStep k₀ k ∧
    Aliased L d f r 0 k ∧ 1 ≤ r ∧ r ≤ 2 := by
  obtain ⟨k₀, hbooted, hfirst, hcpus⟩ := boots (r := 65) qemu intProgram_loadable (by decide)
    (by decide)
  obtain ⟨d, hstep, hexec⟩ := hfirst.starts hcpus
  have hrun : Run SafeStep k₀ (k₀.ran 0 0 d) := .single ⟨_, .start k₀ 0, hstep⟩
  obtain ⟨L, -, h₀, hmem, -⟩ := hbooted.run hrun
  have hphys : (k₀.ran 0 0 d).phys = k₀.phys := Kernel.ran_phys.1
  have hdirs : (k₀.ran 0 0 d).dirs = k₀.dirs := Kernel.ran_dirs
  obtain ⟨f, hf, hentry, -⟩ := hfirst.mapped 2 0 ((intProgram_uses _).mpr (.inl (by decide)))
  have hunmapped : ∀ i j, pageNumber i j ≠ 2048 → pageNumber i j ≠ stackPage →
      (k₀.ran 0 0 d).phys.pteAt (k₀.ran 0 0 d).dirs 0 i j = 0 := by
    intro i j hn hs
    rw [hphys, hdirs]
    refine hfirst.unmapped i j fun huses => ?_
    rcases (intProgram_uses _).mp huses with hu | hu
    · exact hn hu
    · exact hs hu
  generalize k₀.ran 0 0 d = k at *
  have hpage : k.pageAt 0 0x800000 = some f := by
    rw [Kernel.pageAt, Phys.target, hphys, hdirs]
    change entryFrame (k₀.phys.pteAt k₀.dirs 0 2 0) = some f
    rw [hentry, entryFrame_mkPte hf (by decide)]
  have honly : k.OnlyFirst := by
    intro e i j hnot
    by_cases he : e = 0
    · subst he
      rw [not_and, not_or] at hnot
      exact hunmapped i j (hnot rfl).1 (hnot rfl).2
    · refine Phys.pteAt_of_noDir ?_
      rw [hdirs]
      exact congrArg Env.pgdir (hfirst.others e he)
  obtain ⟨hpos, hle⟩ := honly.ref h₀ hmem hpage
  refine ⟨k₀, k, L, d, f, _, hbooted, hrun, ⟨hexec, hmem, hf, ?_, (Nat.add_zero _).symm, ?_,
    fun h => absurd rfl h, fun i j hij hi => ?_⟩, hpos, hle⟩
  · rw [Kernel.entryAt, hphys, hdirs]
    exact hentry
  · rw [hphys]
    exact hfirst.free
  · have hj := j.isLt
    refine hunmapped i j (by omega) ?_
    simp only [pageNumber, stackPage] at hij ⊢
    omega

/-- One more alias. -/
theorem reference_counts_exact_alias : ∃ k₀ k₁ k f, Booted qemu [intProgram] k₀ ∧
    Run SafeStep k₀ k₁ ∧ Run MapStep k₁ k ∧ k.pageAt 0 0x800000 = some f ∧
    k.pageAt 0 (aliasVa 0) = some f ∧ (k.phys.ref f).toNat = (k.mappings f).ncard := by
  obtain ⟨k₀, k₁, L, d, f, r, hbooted, hsafe, h₁, hr, hr'⟩ := qemu_aliased
  obtain ⟨k, hstep, href, hpage, halias, -⟩ := h₁.next (by omega)
  have hcalls := aliasEvent_calls 0
  have hgood : MapStep k₁ (aliasEvent 0) := by
    refine ⟨fun call hc => by rw [hc.unique hcalls]; decide, fun cur enters => ?_,
      fun cur enters => ?_⟩
    · rintro ⟨-, e, target, -, hhole⟩
      obtain rfl : 0 = cur := Option.some.inj (h₁.executes.own.symm.trans enters.1)
      obtain rfl : 0 = e := Option.some.inj ((Kernel.envid2env_zero true).symm.trans target)
      exact absurd (h₁.pageAt.symm.trans hhole.2) (by simp)
    · rintro ⟨-, src, dst, g, target, -, -, -, -, hg, -, -, hfull⟩
      obtain rfl : 0 = cur := Option.some.inj (h₁.executes.own.symm.trans enters.1)
      obtain rfl : 0 = src := Option.some.inj ((Kernel.envid2env_zero true).symm.trans target)
      obtain rfl : f = g := Option.some.inj (h₁.pageAt.symm.trans hg)
      have href := h₁.ref
      rw [hfull] at href
      change 65535 = r + 0 at href
      omega
  have hrun : Run MapStep k₁ k := .single ⟨_, hgood, hstep⟩
  exact ⟨k₀, k₁, k, f, hbooted, hsafe, hrun, hpage, halias,
    (reference_counts_exact hbooted hsafe hrun).mapped f ⟨_, Kernel.mem_mappings.mpr hpage⟩⟩

/-- The first environment maps its page until `pp_ref` is 0. -/
theorem reference_count_wraps : ∃ k₀ k₁ k f, Booted qemu [intProgram] k₀ ∧ Run SafeStep k₀ k₁ ∧
    Run (fun _ ev => ev.frame.Calls .pageMap) k₁ k ∧ (k.mappings f).Nonempty ∧
    k.phys.ref f = 0 := by
  obtain ⟨k₀, k₁, L, d, f, r, hbooted, hsafe, h₁, hr, hr'⟩ := qemu_aliased
  obtain ⟨k₂, hrun, h₂⟩ := h₁.run (n := 65535 - r) hr (by omega)
  obtain ⟨k, hstep, href, hpage, -⟩ := h₂.next (by omega)
  refine ⟨k₀, k₁, k, f, hbooted, hsafe,
    hrun.tail ⟨_, aliasEvent_calls _, hstep⟩,
    ⟨_, Kernel.mem_mappings.mpr hpage⟩, ?_⟩
  have hlast : k₂.phys.ref f = 65535 := by
    apply BitVec.eq_of_toNat_eq
    rw [h₂.ref]
    change r + (65535 - r) = 65535
    omega
  rw [href, hlast]
  decide

end Jos
