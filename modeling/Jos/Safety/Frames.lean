import Jos.Boot.Program

/-!
# Who can reach which page

The condition on a run under which the isolation theorems of `Safety/Reach` hold: no entry makes
one of the requests that the memory manager or the scheduler gets wrong (`MemSafe`, `SafeEntry`).

Then what the invariant of the memory manager says about a walk: a page of the free list is out
of every environment's reach, and what is mapped below `UTOP` was allocated. The run at the end
breaks the condition with two system calls and maps the reserved page 0.
-/

namespace Jos

open Prog

/-- The statuses that an environment may have while a CPU executes it. A parent may
suspend its child at any time. -/
def Executing (st : EnvStatus) : Prop := st = .running ∨ st = .dying ∨ st = .notRunnable

theorem executing : Executable Executing :=
  ⟨.inl rfl, .inr (.inl rfl), by simp [Executing], by simp [Executing]⟩

/-- The step keeps clear of the requests that the memory manager and the scheduler get
wrong. -/
structure SafeStep (k : Kernel) (ev : Event) : Prop where
  entry : SafeEntry Executing k ev.cpu ev.frame
  memory : MemSafe k ev.cpu ev.frame

/-- Only three system calls can disturb an environment that another CPU executes. -/
theorem SafeEntry.of_calls {ok : EnvStatus → Prop} {k : Kernel} {c : Nat} {tf : Trapframe}
    (h : ∀ call, tf.Calls call → call ∉ [SysCall.envSetStatus, .envDestroy, .ipcTrySend]) :
    SafeEntry ok k c tf :=
  ⟨fun _ _ _ _ hc => absurd (by decide) (h _ hc), fun _ _ _ hc => absurd (by decide) (h _ hc),
    fun _ _ _ hc => absurd (by decide) (h _ hc)⟩

theorem SafeEntry.start {ok : EnvStatus → Prop} (k : Kernel) (c : Nat) : SafeEntry ok k c .zero :=
  .of_calls fun _ hc => absurd hc.1 (by decide)

/-- Three can break the memory manager. -/
theorem MemSafe.of_calls {k : Kernel} {c : Nat} {tf : Trapframe}
    (h : ∀ call, tf.Calls call → call ∉ [SysCall.ipcTrySend, .pageUnmap, .pageMap]) :
    MemSafe k c tf := fun _ _ =>
  ⟨fun _ hc => absurd (by decide) (h _ hc), fun _ _ hc => absurd (by decide) (h _ hc),
    fun _ hc => absurd (by decide) (h _ hc)⟩

/-- Five can go wrong in some way. -/
theorem SafeStep.of_calls {k : Kernel} {ev : Event}
    (h : ∀ call, ev.frame.Calls call → call ∉
      [SysCall.envSetStatus, .envDestroy, .ipcTrySend, .pageUnmap, .pageMap]) : SafeStep k ev :=
  ⟨.of_calls fun _ hc hmem => h _ hc (by simp only [List.mem_cons] at hmem ⊢; tauto),
    .of_calls fun _ hc hmem => h _ hc (by simp only [List.mem_cons] at hmem ⊢; tauto)⟩

/-- The first step of a CPU is safe. -/
theorem SafeStep.start (k : Kernel) (c : Nat) : SafeStep k (.start c) := by
  refine .of_calls fun call hc => absurd hc.1 ?_
  change (0 : Word) ≠ tSyscall
  decide

section Calls

variable {ok : EnvStatus → Prop} {k : Kernel} {c : Nat} {tf : Trapframe} {cr2 input : Word}

theorem SafeEntry.setStatus_of (call : tf.Calls .envSetStatus)
    (h : ∀ cur e, k.Enters c cur → k.envid2env cur tf.regs.edx true = some e →
      ¬ k.RunsElsewhere c e) : SafeEntry ok k c tf :=
  ⟨fun cur e _ enters _ target _ helse => absurd helse (h cur e enters target),
    fun _ _ _ hc => absurd (hc.unique call) (by decide),
    fun _ _ _ hc => absurd (hc.unique call) (by decide)⟩

theorem SafeEntry.destroy_of (call : tf.Calls .envDestroy)
    (h : ∀ cur e, k.Enters c cur → k.envid2env cur tf.regs.edx true = some e →
      k.RunsElsewhere c e → k.status e = .running) : SafeEntry ok k c tf :=
  ⟨fun _ _ _ _ hc => absurd (hc.unique call) (by decide),
    fun cur e enters _ target helse => h cur e enters target helse,
    fun _ _ _ hc => absurd (hc.unique call) (by decide)⟩

theorem SafeEntry.send_of (call : tf.Calls .ipcTrySend)
    (h : ∀ cur e, k.Enters c cur → k.envid2env cur tf.regs.edx false = some e →
      ¬ k.RunsElsewhere c e) : SafeEntry ok k c tf :=
  ⟨fun _ _ _ _ hc => absurd (hc.unique call) (by decide),
    fun _ _ _ hc => absurd (hc.unique call) (by decide),
    fun cur e enters _ target _ => h cur e enters target⟩

/-- Setting the status of an environment that no other CPU executes is safe. -/
theorem SafeStep.setStatus (call : tf.Calls .envSetStatus)
    (h : ∀ cur e, k.Enters c cur → k.envid2env cur tf.regs.edx true = some e →
      ¬ k.RunsElsewhere c e) : SafeStep k (.trap c tf cr2 input) :=
  ⟨.setStatus_of call h, .of_calls fun _ hc => by rw [hc.unique call]; decide⟩

/-- So is the destruction of an environment that is running or is not executed elsewhere. -/
theorem SafeStep.destroy (call : tf.Calls .envDestroy)
    (h : ∀ cur e, k.Enters c cur → k.envid2env cur tf.regs.edx true = some e →
      k.RunsElsewhere c e → k.status e = .running) : SafeStep k (.trap c tf cr2 input) :=
  ⟨.destroy_of call h, .of_calls fun _ hc => by rw [hc.unique call]; decide⟩

end Calls

/-- No live environment can reach the page: it is none of their page directories, none of
the page tables in these, and not mapped below `UTOP`. -/
def Kernel.Unused (k : Kernel) (f : Nat) : Prop :=
  ∀ e, k.status e ≠ .free → ∃ d, (k.envs e).pgdir = some d ∧ d ≠ f ∧
    (∀ i, k.phys.word d i &&& pteP ≠ 0 → pgnum (k.phys.word d i) ≠ f) ∧
    ∀ va pde pte, va < utop → k.phys.translate d va = some (pde, pte) → pgnum pte ≠ f

/-- Something is mapped at `va` in the address space of `e`. -/
def Kernel.Mapped (k : Kernel) (e : EnvIdx) (va : Word) : Prop :=
  ∃ d, (k.envs e).pgdir = some d ∧ k.phys.translate d va ≠ none

variable {m : Machine} {binaries : List Binary} {k₀ k : Kernel} {L : Layout}

theorem Booted.run (booted : Booted m binaries k₀) (run : Run SafeStep k₀ k) :
    ∃ L : Layout, m.Sets L ∧ MemInv L k₀ ∧ MemInv L k ∧ Exclusive Executing none k := by
  obtain ⟨L, hsets, hmem, hidle⟩ := booted.memInv
  obtain ⟨hk, hex⟩ := hmem.run (hidle.exclusive Executing) executing (fun _ _ h => h.entry)
    (fun _ _ h => h.memory) run
  exact ⟨L, hsets, hmem, hk, hex⟩

namespace MemInv

/-- The page tables in a directory: those of the user half, the directory itself, and the
reserved ones of the kernel's half. -/
theorem table_cases (h : MemInv L k) {e : EnvIdx} {d : Nat} (hd : k.dirs e = some d) {i : Idx}
    (hp : k.phys.word d i &&& pteP ≠ 0) :
    k.phys.target k.dirs (.pde e i) = some (pgnum (k.phys.word d i)) ∨
      pgnum (k.phys.word d i) = d ∨ ¬ L.owned (pgnum (k.phys.word d i)) := by
  by_cases hi : i.val < userPdes
  · left
    rw [Phys.target, Phys.pdeAt_of_dir hd hi, entryFrame, if_pos hp]
  · rw [Nat.not_lt] at hi
    by_cases huvpt : i = pdx uvpt
    · refine .inr (.inl ?_)
      have hlt := h.phys.lt_npages (h.phys.tables.dir_owned hd)
      have hn := h.phys.npages_le
      have hself : k.phys.word d i = mkPte d pteU := by
        rw [huvpt, h.phys.tables.selfMap e d hd, mkPte, BitVec.or_assoc, BitVec.or_assoc,
          BitVec.or_comm pteP, page2pa]
      rw [hself, pgnum_mkPte (by omega) (by decide)]
    · refine .inr (.inr ?_)
      rw [h.phys.tables.kernHalf e d i hd hi huvpt] at hp ⊢
      exact (L.table_reserved i hi hp).2

/-- A page of the free list is out of reach. -/
theorem unused_of_listed (h : MemInv L k) {f : Nat} (hf : k.phys.Listed f) : k.Unused f := by
  intro e hlive
  obtain ⟨d, hd, -⟩ := h.dir_of_live hlive
  have hfresh := h.phys.listed_fresh hf
  have howned := (h.phys.counts.ref_of_listed hf).1
  refine ⟨d, hd, ?_, fun i hp heq => ?_, fun va pde pte hva walk heq => ?_⟩
  · rintro rfl
    exact hfresh (.dir e) hd
  · rcases h.table_cases hd hp with ht | ht | ht
    · exact hfresh (.pde e i) (heq ▸ ht)
    · rw [heq] at ht
      exact hfresh (.dir e) (ht ▸ hd)
    · exact ht (heq ▸ howned)
  · exact hfresh _ (heq ▸ Phys.Inv.target_of_translate hd hva walk)

/-- What a present entry below `UTOP` points to. -/
theorem target_of_mapped (h : MemInv L k) {e : EnvIdx} {d : Nat} (hd : k.dirs e = some d)
    {va pde pte : Word} (hva : va < utop) (walk : k.phys.translate d va = some (pde, pte)) :
    pgnum pte ∈ k.phys.userPages ∧ L.owned (pgnum pte) ∧ ¬ k.phys.Structural k.dirs (pgnum pte) := by
  have ht := Phys.Inv.target_of_translate hd hva walk
  exact ⟨h.phys.tables.userPages _ _ _ _ ht, h.phys.tables.owned _ _ ht,
    h.phys.tables.unshared.page_not_structural ht⟩

theorem pageAt_of_unmapped {e : EnvIdx} {va : Word} (h : ¬ k.Mapped e va) :
    k.pageAt e va = none := by
  cases hf : k.pageAt e va with
  | none => rfl
  | some f =>
      obtain ⟨t, ht, hpte⟩ := Phys.table_of_page hf
      obtain ⟨d, hd, -, hpde⟩ := Phys.dir_of_table ht
      rw [entryFrame] at hpde hpte
      split at hpde
      · rename_i hp
        split at hpte
        · rename_i hp'
          refine absurd ⟨d, hd, ?_⟩ h
          rw [Phys.translate]
          dsimp only
          rw [if_neg hp, Option.some.inj hpde, if_neg hp']
          simp
        · simp at hpte
      · simp at hpde

section Refused

variable {c : Nat} {cur : EnvIdx} {tf : Trapframe} {input : Word}

/-- The two system calls that share a page refuse an address where there is none. -/
theorem map_refused (h : MemInv L k) (used : k.status cur ≠ .free) (safe : CallSafe k cur tf)
    (call : tf.Calls .pageMap) {src dst : EnvIdx}
    (hsrc : k.envid2env cur tf.regs.edx true = some src)
    (hdst : k.envid2env cur tf.regs.ebx true = some dst)
    (hnone : k.pageAt src tf.regs.ecx = none) :
    Jos.syscall c cur input tf.regs.eax tf.regs.edx tf.regs.ecx tf.regs.ebx tf.regs.edi
      tf.regs.esi k = .ret (-eInval) k := by
  rw [Jos.syscall, call.2]
  refine ret_of_wp (wp_imp (h.sysPageMap_spec used fun src' dst' hs hd hva hva' hperm => ?_)
    fun _ _ hq => hq.2.1 src dst hsrc hdst hnone)
  exact safe.map src' dst' call hs hd hva hva' hperm

theorem send_refused (h : MemInv L k) (used : k.status cur ≠ .free) (safe : CallSafe k cur tf)
    (call : tf.Calls .ipcTrySend) {dst : EnvIdx}
    (hdst : k.envid2env cur tf.regs.edx false = some dst)
    (recving : (k.envs dst).ipcRecving = true) (hva : tf.regs.ebx < utop)
    (hnone : k.pageAt cur tf.regs.ebx = none) :
    Jos.syscall c cur input tf.regs.eax tf.regs.edx tf.regs.ecx tf.regs.ebx tf.regs.edi
      tf.regs.esi k = .ret (-eInval) k := by
  rw [Jos.syscall, call.2]
  refine ret_of_wp (wp_imp (h.sysIpcTrySend_spec used (fun dst' hd hr hlt hperm => ?_)
    (.inl fun _ _ _ _ hge => absurd hva (BitVec.not_lt.mpr hge)))
    fun _ _ hq => hq.2 dst hdst recving hva hnone)
  exact safe.send dst' call hd hr hlt hperm

end Refused

end MemInv

/-! ### What a hole does -/

/-- In a page table `t` of `d` the entries of `a` and `b` are empty. -/
structure Phys.Holes (p : Phys) (d t : Nat) (a b : Word) : Prop where
  sameTable : pdx b = pdx a
  distinct : ptx b ≠ ptx a
  present : p.word d (pdx a) &&& pteP ≠ 0
  table : pgnum (p.word d (pdx a)) = t
  table_lt : t < p.npages
  table_ne : t ≠ d
  first : p.word t (ptx a) = 0
  second : p.word t (ptx b) = 0

namespace Phys.Holes

variable {p : Phys} {d t : Nat} {a b perm : Word}

/-- The page 0 is found where nothing is mapped. -/
theorem lookup (h : p.Holes d t a b) : pageLookup d a p = .ret (some (0, ⟨t, ptx a⟩)) p := by
  have hzero : pgnum (p.word t (ptx a)) = 0 := by
    rw [h.first]
    decide
  have hpos : 0 < p.npages := Nat.lt_of_le_of_lt (Nat.zero_le t) h.table_lt
  rw [pageLookup_some h.present (by rw [h.table]; exact h.table_lt)
    (by rw [h.table, hzero]; exact hpos), h.table, hzero]

/-- Unmapping a hole takes a reference from the page 0. -/
theorem remove (h : p.Holes d t a b) (hlink : p.link 0 = none) :
    pageRemove d a p = .ret () ((p.drop 0).setWord t (ptx a) 0) ∧
      ((p.drop 0).setWord t (ptx a) 0).Holes d t a b := by
  refine ⟨pageRemove_some h.lookup hlink, ?_⟩
  have hmem := Phys.Inv.drop_mem p 0
  have hdir : ((p.drop 0).setWord t (ptx a) 0).word d (pdx a) = p.word d (pdx a) := by
    refine p.word_congr ?_
    rw [Phys.mem_setWord_of_ne _ _ h.table_ne.symm, hmem]
  refine ⟨h.sameTable, h.distinct, ?_, ?_, ?_, h.table_ne, Phys.word_setWord_self _ _, ?_⟩
  · rw [hdir]
    exact h.present
  · rw [hdir]
    exact h.table
  · change t < (p.drop 0).npages
    rw [Phys.Inv.drop_npages]
    exact h.table_lt
  · rw [Phys.word_setWord_of_ne _ _ h.distinct, ← h.second]
    exact p.word_congr (by rw [hmem])

/-- Mapping a page at the second hole. -/
theorem insert (h : p.Holes d t a b) (pp : Nat) :
    pageInsert d pp b perm p =
      .ret 0 ((p.setWord t (ptx b) (mkPte pp perm)).setRef pp (p.ref pp + 1)) := by
  have hwalk : pgdirWalk d b true p = .ret (some ⟨t, ptx b⟩) p := by
    have hp : p.word d (pdx b) &&& pteP ≠ 0 := by
      rw [h.sameTable]
      exact h.present
    have hnum : pgnum (p.word d (pdx b)) = t := by rw [h.sameTable, h.table]
    rw [pgdirWalk_found hp (by rw [hnum]; exact h.table_lt), hnum]
  exact pageInsert_empty hwalk (by rw [h.second]; decide)

/-- What is mapped there afterwards. -/
theorem translate (h : p.Holes d t a b) {pp : Nat} (r : BitVec 16) :
    ((p.setWord t (ptx b) (mkPte pp perm)).setRef pp r).translate d b =
      some (p.word d (pdx a), mkPte pp perm) := by
  have hdir : ((p.setWord t (ptx b) (mkPte pp perm)).setRef pp r).word d (pdx b) =
      p.word d (pdx a) := by
    rw [h.sameTable]
    exact p.word_congr (Phys.mem_setWord_of_ne _ _ h.table_ne.symm)
  have hentry : ((p.setWord t (ptx b) (mkPte pp perm)).setRef pp r).word t (ptx b) =
      mkPte pp perm := Phys.word_setWord_self _ _
  rw [Phys.translate]
  dsimp only
  rw [hdir, if_neg h.present, h.table, hentry, if_neg (mkPte_present pp perm)]

end Phys.Holes

section Hole

variable {c : Nat} {e : EnvIdx} {d t : Nat} {a b : Word}

/-- `sys_page_unmap` of a hole. -/
theorem sysPageUnmap_hole (hpgdir : (k.envs e).pgdir = some d) (holes : k.phys.Holes d t a b)
    (ha : vaOk a) (hlink : k.phys.link 0 = none) :
    sysPageUnmap e 0 a k = .ret 0 { k with phys := (k.phys.drop 0).setWord t (ptx a) 0 } := by
  rw [sysPageUnmap, bind_ret _ (envid2env_run (Kernel.envid2env_zero true))]
  dsimp only
  rw [if_neg (not_not.mpr ha), bind_ret _ (pgdirOf_run hpgdir),
    bind_ret _ (pmap_ret (holes.remove hlink).1)]
  rfl

/-- `sys_page_map` of a hole, read-only. -/
theorem sysPageMap_hole (hpgdir : (k.envs e).pgdir = some d) (holes : k.phys.Holes d t a b)
    (ha : vaOk a) (hb : vaOk b) :
    sysPageMap e 0 a 0 b (pteU ||| pteP) k = .ret 0 { k with
      phys := (k.phys.setWord t (ptx b) (mkPte 0 (pteU ||| pteP))).setRef 0
        (k.phys.ref 0 + 1) } := by
  have hload : pmap (PtePtr.load ⟨t, ptx a⟩) k = .ret 0 k := by
    refine pmap_ret ?_
    rw [← holes.first]
    rfl
  have hlookup : lookupIn e a k = .ret (some (0, 0)) k := by
    rw [lookupIn, bind_ret _ (pgdirOf_run hpgdir), bind_ret _ (pmap_ret holes.lookup)]
    exact bind_ret _ hload
  exact sysPageMap_run (Kernel.envid2env_zero true) (Kernel.envid2env_zero true) ⟨ha, hb⟩ hlookup
    (by decide) (by decide) (insertInto_ret hpgdir (holes.insert 0))

theorem Kernel.Executes.unmapHole (h : k.Executes c e d) (holes : k.phys.Holes d t a b)
    (ha : vaOk a) (hlink : k.phys.link 0 = none) :
    ∃ k', Step k (.trap c (callFrame .pageUnmap 0 a 0 0 0) 0 0) k' ∧
      ({ k with phys := (k.phys.drop 0).setWord t (ptx a) 0 } : Kernel).Like k' := by
  refine h.memory (r := 0) ?_
  rw [syscall, SysCall.ofNumber_number]
  exact sysPageUnmap_hole (Kernel.setTf_pgdir h.pgdir) holes ha hlink

theorem Kernel.Executes.mapHole (h : k.Executes c e d) (holes : k.phys.Holes d t a b)
    (ha : vaOk a) (hb : vaOk b) :
    ∃ k', Step k (.trap c (callFrame .pageMap 0 a 0 b (pteU ||| pteP)) 0 0) k' ∧
      Kernel.Like { k with
        phys := (k.phys.setWord t (ptx b) (mkPte 0 (pteU ||| pteP))).setRef 0
          (k.phys.ref 0 + 1) } k' := by
  refine h.memory (r := 0) ?_
  rw [syscall, SysCall.ofNumber_number]
  exact sysPageMap_hole (Kernel.setTf_pgdir h.pgdir) holes ha hb

/-- An environment with nothing but a page at `0x800000` in that table has two holes there. -/
theorem MemInv.holes (h : MemInv L k) (hd : k.dirs e = some d) {f : Nat}
    (hpage : k.phys.target k.dirs (.pte e 2 0) = some f)
    (hempty : ∀ j, j ≠ 0 → k.phys.pteAt k.dirs e 2 j = 0) :
    ∃ t, k.phys.target k.dirs (.pde e 2) = some t ∧ k.phys.Holes d t 0x801000 0x802000 := by
  obtain ⟨t, ht, -⟩ := Phys.table_of_page hpage
  refine ⟨t, ht, ?_⟩
  have hpdx : pdx 0x801000 = 2 ∧ pdx 0x802000 = 2 := by decide
  have hword : ∀ j : Idx, j ≠ 0 → k.phys.word t j = 0 := by
    intro j hj
    rw [← Phys.pteAt_of_table ht]
    exact hempty j hj
  rw [← hpdx.1] at ht
  obtain ⟨hp, hnum, hlt⟩ := h.phys.table_walk hd ht
  exact ⟨hpdx.2.trans hpdx.1.symm, by decide, hp, hnum, hlt,
    h.phys.tables.unshared.dir_ne_table hd ht, hword _ (by decide), hword _ (by decide)⟩

/-- The first environment has two holes next to its program. -/
theorem FirstRuns.holes (h : FirstRuns d k) (hmem : MemInv L k) :
    ∃ t, k.phys.Holes d t 0x801000 0x802000 := by
  obtain ⟨f, hf, hentry, -⟩ := h.mapped 2 0 (by decide)
  have htarget : k.phys.target k.dirs (.pte 0 2 0) = some f := by
    rw [Phys.target, hentry, entryFrame_mkPte hf (by decide)]
  have hempty : ∀ j, j ≠ 0 → k.phys.pteAt k.dirs 0 2 j = 0 := by
    intro j hj
    have hj' : j.val ≠ 0 := fun h0 => hj (Fin.ext h0)
    have hlt := j.isLt
    have hi : ((2 : Idx) : Nat) = 2 := rfl
    refine h.unmapped 2 j ?_ ?_
    · rw [pageNumber, hi]
      omega
    · rw [pageNumber, hi, stackPage]
      omega
  obtain ⟨t, -, holes⟩ := hmem.holes h.executes.pgdir htarget hempty
  exact ⟨t, holes⟩

/-- A run to the first environment. -/
theorem qemu_runs : ∃ k₀ k d L, Booted qemu [intProgram] k₀ ∧ Run SafeStep k₀ k ∧
    FirstRuns d k ∧ qemu.Sets L ∧ MemInv L k := by
  obtain ⟨k₀, hbooted, hfirst, hcpus⟩ := qemu_boots
  obtain ⟨d, k, hstep, hruns⟩ := hfirst.runs hcpus
  have hrun : Run SafeStep k₀ k := .single ⟨_, .start k₀ 0, hstep⟩
  obtain ⟨L, hsets, -, hmem, -⟩ := hbooted.run hrun
  exact ⟨k₀, k, d, L, hbooted, hrun, hruns, hsets, hmem⟩

/-- The page 0 is reserved at the start. -/
theorem Machine.Sets.page_zero (h : m.Sets L) (hmem : MemInv L k) :
    k.phys.pages 0 = ⟨none, 1⟩ := by
  have hnot : ¬ m.Free 0 := fun hfree => hfree.2.1 rfl
  have hpos : 0 < m.npages := Nat.lt_of_le_of_lt (Nat.zero_le _) m.firstFree_lt
  rw [hmem.phys.counts.frozen 0 fun howned => hnot (h.owned 0 howned), h.reserved 0 hpos hnot]

/-- The page 0 is on the free list, in front of `head`, and is mapped at `0x802000`. -/
structure Leaked (d t head : Nat) (k : Kernel) : Prop where
  executes : k.Executes 0 0 d
  walk : k.phys.word d (pdx 0x802000) &&& pteP ≠ 0
  table : pgnum (k.phys.word d (pdx 0x802000)) = t
  table_lt : t < k.phys.npages
  entry : k.phys.word t (ptx 0x802000) = mkPte 0 (pteU ||| pteP)
  listed : k.phys.Listed 0
  ref : k.phys.ref 0 = 1
  link : k.phys.link 0 = some head

theorem Leaked.mapped {d t head : Nat} (h : Leaked d t head k) :
    k.phys.translate d 0x802000 =
      some (k.phys.word d (pdx 0x802000), mkPte 0 (pteU ||| pteP)) := by
  rw [Phys.translate]
  dsimp only
  rw [if_neg h.walk, h.table, h.entry, if_neg (mkPte_present _ _)]

/-- Two system calls of the first environment are enough. -/
theorem FirstRuns.leaks (h : FirstRuns d k) (hmem : MemInv L k) (hzero : k.phys.pages 0 = ⟨none, 1⟩) :
    ∃ k' t head, Run (fun _ _ => True) k k' ∧ Leaked d t head k' := by
  obtain ⟨t, holes⟩ := h.holes hmem
  have hlink : k.phys.link 0 = none := congrArg PageInfo.link hzero
  have href : k.phys.ref 0 = 1 := congrArg PageInfo.ref hzero
  obtain ⟨head, hhead⟩ := h.free.head
  -- the last reference is gone: the page 0 is the new head of the list
  have hlast : (k.phys.setRef 0 (k.phys.ref 0 - 1)).ref 0 = 0 := by
    rw [Phys.setRef_ref_self, href]
    decide
  have hdrop : k.phys.drop 0 = { (k.phys.setRef 0 (k.phys.ref 0 - 1)).setLink 0 (some head) with
      pageFreeList := some 0 } := by
    rw [Phys.drop, if_pos hlast, ← hhead]
    rfl
  obtain ⟨k₁, step₁, like₁⟩ := h.executes.unmapHole holes (by decide) hlink
  have executes₁ : k₁.Executes 0 0 d :=
    like₁.executes ⟨h.executes.unlocked, h.executes.cpu, h.executes.running, h.executes.pgdir⟩
  have holes₁ : k₁.phys.Holes d t 0x801000 0x802000 := by
    rw [like₁.phys]
    exact (holes.remove hlink).2
  have head₁ : k₁.phys.pageFreeList = some 0 := by
    rw [like₁.phys, hdrop]
    rfl
  have ref₁ : k₁.phys.ref 0 = 0 := by
    rw [like₁.phys, hdrop]
    change ((k.phys.setRef 0 (k.phys.ref 0 - 1)).setLink 0 (some head)).ref 0 = 0
    rw [Phys.setLink_ref, hlast]
  have link₁ : k₁.phys.link 0 = some head := by
    rw [like₁.phys, hdrop]
    change ((k.phys.setRef 0 (k.phys.ref 0 - 1)).setLink 0 (some head)).link 0 = some head
    rw [Phys.setLink_link, Function.update_self]
  obtain ⟨k₂, step₂, like₂⟩ := executes₁.mapHole holes₁ (by decide) (by decide)
  have hphys := like₂.phys
  dsimp only at hphys
  have hdir : k₂.phys.word d (pdx 0x802000) = k₁.phys.word d (pdx 0x801000) := by
    rw [hphys, ← holes₁.sameTable]
    exact k₁.phys.word_congr (Phys.mem_setWord_of_ne _ _ holes₁.table_ne.symm)
  refine ⟨k₂, t, head, .tail (.single ⟨_, trivial, step₁⟩) ⟨_, trivial, step₂⟩,
    ⟨like₂.executes ⟨executes₁.unlocked, executes₁.cpu, executes₁.running, executes₁.pgdir⟩,
      ?_, ?_, ?_, ?_, ?_, ?_, ?_⟩⟩
  · rw [hdir]
    exact holes₁.present
  · rw [hdir]
    exact holes₁.table
  · rw [hphys]
    exact holes₁.table_lt
  · rw [hphys]
    exact Phys.word_setWord_self _ _
  · rw [Phys.Listed, hphys, Phys.setRef_link]
    change Linked k₁.phys.link k₁.phys.pageFreeList 0
    rw [head₁]
    exact .here 0
  · rw [hphys, Phys.setRef_ref_self, ref₁]
    decide
  · rw [hphys, Phys.setRef_link]
    exact link₁

theorem qemu_leaks : ∃ k₀ k d t head, Booted qemu [intProgram] k₀ ∧
    Run (fun _ _ => True) k₀ k ∧ Leaked d t head k := by
  obtain ⟨k₀, k₁, d, L, hbooted, hrun, hruns, hsets, hmem⟩ := qemu_runs
  obtain ⟨k, t, head, hrun', hleak⟩ := hruns.leaks hmem (hsets.page_zero hmem)
  exact ⟨k₀, k, d, t, head, hbooted, (hrun.mono fun _ _ _ => trivial).trans hrun', hleak⟩

end Hole

/-- Reserved memory is the same in any two states with one layout. -/
theorem MemInv.word_reserved (h₀ : MemInv L k₀) (h : MemInv L k) {f : Nat} (hf : ¬ L.owned f)
    (i : Idx) : k.phys.word f i = k₀.phys.word f i := by
  refine k₀.phys.word_congr ?_
  rw [h.phys.tables.frozen f hf, h₀.phys.tables.frozen f hf]

/-- The walk of an address above `UTOP` reads the same entries. -/
theorem MemInv.kernel_half (h₀ : MemInv L k₀) (h : MemInv L k) {e : EnvIdx} {d : Nat} {va : Word}
    (hd : (k.envs e).pgdir = some d) (hva : utop ≤ va) (huvpt : pdx va ≠ pdx uvpt) :
    k.phys.word d (pdx va) = k₀.phys.word L.kern (pdx va) ∧
      (k.phys.word d (pdx va) &&& pteP ≠ 0 → ¬ L.owned (pgnum (k.phys.word d (pdx va))) ∧
        k.phys.word (pgnum (k.phys.word d (pdx va))) (ptx va) =
          k₀.phys.word (pgnum (k.phys.word d (pdx va))) (ptx va)) := by
  have hi : userPdes ≤ (pdx va).val := by
    rw [← Nat.not_lt, pdx_lt_iff]
    exact BitVec.not_lt.mpr hva
  have hkern := h.phys.tables.kernHalf e d _ hd hi huvpt
  refine ⟨?_, fun hp => ?_⟩
  · rw [hkern]
    exact (L.boot.word_congr (h₀.phys.tables.frozen L.kern L.kern_reserved)).symm
  · have htable : ¬ L.owned (pgnum (k.phys.word d (pdx va))) := by
      rw [hkern] at hp ⊢
      exact (L.table_reserved _ hi hp).2
    exact ⟨htable, h₀.word_reserved h htable _⟩

end Jos
