import Jos.Boot.Init
import Jos.Kernel.Isolation
import Jos.Pmap.Remove
import Jos.Sched.Receiving
import Jos.User.Fork

/-!
# What a page fault handler is told

A page fault in user mode, from the trap to the test at the start of `pgfault`. The
record on the exception stack is read back in the address space of the environment. All
of its fields are as they should be, but for the error code: `page_fault_handler` takes
it from `tf_trapno`, so it is always 14, and 14 has the bit `FEC_WR` set.
-/

namespace Jos

open Prog

/-- `struct UTrapframe`. -/
structure UTrapframe where
  faultVa : Word
  err : Word
  regs : PushRegs
  eip : Word
  eflags : Word
  esp : Word
  deriving DecidableEq, Repr

/-- The `struct UTrapframe` at `utf`. -/
def Phys.utfAt (p : Phys) (d : Nat) (utf : Word) : Option UTrapframe := do
  let field i := p.wordAt d (utf + BitVec.ofNat 32 (4 * i))
  let faultVa ← field 0
  let err ← field 1
  let edi ← field 2
  let esi ← field 3
  let ebp ← field 4
  let oesp ← field 5
  let ebx ← field 6
  let edx ← field 7
  let ecx ← field 8
  let eax ← field 9
  let eip ← field 10
  let eflags ← field 11
  let esp ← field 12
  pure ⟨faultVa, err, ⟨edi, esi, ebp, oesp, ebx, edx, ecx, eax⟩, eip, eflags, esp⟩

section Words

variable {p : Phys} {d : Nat} {va w : Word} {ws : List Word}

theorem wordBytes_getElem? (ws : List Word) (i : Nat) {j : Nat} (hj : j < 4) :
    (ws.flatMap wordBytes)[4 * i + j]? = ws[i]?.bind fun w => (wordBytes w)[j]? := by
  induction ws generalizing i with
  | nil => simp
  | cons w ws ih =>
      have hlen : (wordBytes w).length = 4 := rfl
      rw [List.flatMap_cons]
      cases i with
      | zero =>
          rw [List.getElem?_append_left (by omega)]
          simp
      | succ i =>
          rw [List.getElem?_append_right (by omega), hlen]
          have hidx : 4 * (i + 1) + j - 4 = 4 * i + j := by omega
          rw [hidx, ih, List.getElem?_cons_succ]

/-- Words that are stored byte by byte are read back. -/
theorem wordAt_of_bytes
    (h : ∀ i < (ws.flatMap wordBytes).length,
      p.byteAt d (va + BitVec.ofNat 32 i) = (ws.flatMap wordBytes)[i]?)
    {i : Nat} (hi : ws[i]? = some w) : p.wordAt d (va + BitVec.ofNat 32 (4 * i)) = some w := by
  have hbyte : ∀ j < 4, p.byteAt d (va + BitVec.ofNat 32 (4 * i) + BitVec.ofNat 32 j) =
      (wordBytes w)[j]? := by
    intro j hj
    have hget := wordBytes_getElem? ws i hj
    rw [hi, Option.bind_some] at hget
    have hlt : 4 * i + j < (ws.flatMap wordBytes).length := by
      by_contra hge
      rw [List.getElem?_eq_none (by omega)] at hget
      have hlen : (wordBytes w).length = 4 := rfl
      rw [eq_comm, List.getElem?_eq_none_iff] at hget
      omega
    rw [BitVec.add_assoc, ← BitVec.ofNat_add, h _ hlt, hget]
  have h₀ := hbyte 0 (by decide)
  rw [show ∀ a : Word, a + BitVec.ofNat 32 0 = a from fun a => BitVec.add_zero a] at h₀
  rw [Phys.wordAt_eq h₀ (hbyte 1 (by decide)) (hbyte 2 (by decide)) (hbyte 3 (by decide)),
    bytes_append]

end Words

/-- The fields that `page_fault_handler` writes. -/
def pushedRecord (tf : Trapframe) (faultVa : Word) : UTrapframe :=
  ⟨faultVa, tf.trapno, tf.regs, tf.eip, tf.eflags, tf.esp⟩

/-- The record of the fault as it was. -/
def faultRecord (tf : Trapframe) (cr2 : Word) : UTrapframe :=
  ⟨cr2, tf.err, tf.regs, tf.eip, tf.eflags, tf.esp⟩

theorem utfAt_of_bytes {p : Phys} {d : Nat} {utf : Word} {tf : Trapframe} {faultVa : Word}
    (h : ∀ i < (utrapframe tf faultVa).length,
      p.byteAt d (utf + BitVec.ofNat 32 i) = (utrapframe tf faultVa)[i]?) :
    p.utfAt d utf = some (pushedRecord tf faultVa) := by
  have hword : ∀ (i : Nat) (w : Word), [faultVa, tf.trapno, tf.regs.edi, tf.regs.esi, tf.regs.ebp,
      tf.regs.oesp, tf.regs.ebx, tf.regs.edx, tf.regs.ecx, tf.regs.eax, tf.eip, tf.eflags,
      tf.esp][i]? = some w → p.wordAt d (utf + BitVec.ofNat 32 (4 * i)) = some w :=
    fun i w hi => wordAt_of_bytes h hi
  rw [Phys.utfAt]
  simp only [hword 0 _ rfl, hword 1 _ rfl, hword 2 _ rfl, hword 3 _ rfl, hword 4 _ rfl,
    hword 5 _ rfl, hword 6 _ rfl, hword 7 _ rfl, hword 8 _ rfl, hword 9 _ rfl, hword 10 _ rfl,
    hword 11 _ rfl, hword 12 _ rfl]
  rfl

theorem utfAt_fields {p : Phys} {d : Nat} {utf : Word} {r : UTrapframe}
    (h : p.utfAt d utf = some r) :
    p.wordAt d utf = some r.faultVa ∧ p.wordAt d (utf + 4) = some r.err := by
  rw [Phys.utfAt] at h
  obtain ⟨faultVa, hva, h⟩ := Option.bind_eq_some_iff.mp h
  obtain ⟨err, herr, h⟩ := Option.bind_eq_some_iff.mp h
  obtain ⟨edi, -, h⟩ := Option.bind_eq_some_iff.mp h
  obtain ⟨esi, -, h⟩ := Option.bind_eq_some_iff.mp h
  obtain ⟨ebp, -, h⟩ := Option.bind_eq_some_iff.mp h
  obtain ⟨oesp, -, h⟩ := Option.bind_eq_some_iff.mp h
  obtain ⟨ebx, -, h⟩ := Option.bind_eq_some_iff.mp h
  obtain ⟨edx, -, h⟩ := Option.bind_eq_some_iff.mp h
  obtain ⟨ecx, -, h⟩ := Option.bind_eq_some_iff.mp h
  obtain ⟨eax, -, h⟩ := Option.bind_eq_some_iff.mp h
  obtain ⟨eip, -, h⟩ := Option.bind_eq_some_iff.mp h
  obtain ⟨eflags, -, h⟩ := Option.bind_eq_some_iff.mp h
  obtain ⟨esp, -, h⟩ := Option.bind_eq_some_iff.mp h
  have hzero : utf + BitVec.ofNat 32 (4 * 0) = utf := BitVec.add_zero utf
  refine ⟨?_, ?_⟩
  · rw [← Option.some.inj h, ← hva]
    exact congrArg (p.wordAt d) hzero.symm
  · rw [← Option.some.inj h]
    exact herr

/-! ## Delivering a fault -/

/-- The environment `cur` with the directory `d` takes a page fault on CPU `c`, it has a
handler, and the record can be written to pages that are not its page tables. -/
structure Delivers (k : Kernel) (c : Nat) (cur : EnvIdx) (d : Nat) (tf : Trapframe) : Prop where
  own : k.curenv c = some cur
  alive : k.status cur ≠ .dying
  pgdir : (k.envs cur).pgdir = some d
  cr3 : (k.cpus c).cr3 = d
  upcall : (k.envs cur).pgfaultUpcall ≠ 0
  ring : tf.cs &&& 3 = 3
  trapno : tf.trapno = tPgflt
  selfMap : k.phys.SelfMap d
  /-- `user_mem_assert` passes. -/
  allowed : userMemCheck d (utrapframeAddr tf.esp) utrapframeSize (pteU ||| pteW ||| pteP ||| pteU)
    k.phys = .ret none k.phys
  writable : ∀ i < 52, k.phys.userAccess d (utrapframeAddr tf.esp + BitVec.ofNat 32 i) true
  plain : ∀ i < 52, k.phys.StoreOk d (utrapframeAddr tf.esp + BitVec.ofNat 32 i)

/-- What the handler finds when it starts. -/
structure Delivered (k : Kernel) (c : Nat) (cur : EnvIdx) (d : Nat) (tf : Trapframe) (cr2 : Word)
    (k' : Kernel) : Prop where
  cr3 : (k'.cpus c).cr3 = d
  eip : (k'.envs cur).tf.eip = (k.envs cur).pgfaultUpcall
  esp : (k'.envs cur).tf.esp = utrapframeAddr tf.esp
  record : k'.phys.utfAt d (utrapframeAddr tf.esp) = some (pushedRecord tf cr2)
  readable : ∀ i < 52, k'.phys.Readable d (utrapframeAddr tf.esp + BitVec.ofNat 32 i)
  selfMap : k'.phys.SelfMap d
  dir : ∀ i, k'.phys.word d i = k.phys.word d i
  table : ∀ i, k.phys.word d i &&& pteP ≠ 0 → ∀ j,
    k'.phys.word (pgnum (k.phys.word d i)) j = k.phys.word (pgnum (k.phys.word d i)) j

section Deliver

variable {k : Kernel} {c d : Nat} {cur : EnvIdx} {tf : Trapframe}

/-- The state in which the upcall starts; `q` is memory with the record. -/
def Kernel.upcalled (k : Kernel) (c : Nat) (cur : EnvIdx) (d : Nat) (tf : Trapframe) (q : Phys) :
    Kernel :=
  (({ k.setTf cur tf with phys := q } : Kernel).setTf cur
    { tf with eip := (k.envs cur).pgfaultUpcall, esp := utrapframeAddr tf.esp }).ran c cur d

theorem Kernel.upcalled_phys {q : Phys} : (k.upcalled c cur d tf q).phys = q := Kernel.ran_phys.1

theorem Kernel.upcalled_tf {q : Phys} : ((k.upcalled c cur d tf q).envs cur).tf =
    { tf with eip := (k.envs cur).pgfaultUpcall, esp := utrapframeAddr tf.esp } := by
  refine (Kernel.ran_field (f := Env.tf) (fun _ _ _ _ => rfl) cur).trans ?_
  rw [Kernel.setTf, Kernel.setEnv_envs_self]

theorem Delivers.trap_run (h : Delivers k c cur d tf) (cr2 input : Word) :
    ∃ q, kernelStores d (utrapframeAddr tf.esp) (utrapframe tf cr2) k.phys = .ret () q ∧
      Phys.Stores (fun off => ∃ i < 52, off = pgoff (utrapframeAddr tf.esp + BitVec.ofNat 32 i)) d
        k.phys q ∧
      (∀ i < 52, q.byteAt d (utrapframeAddr tf.esp + BitVec.ofNat 32 i) =
        (utrapframe tf cr2)[i]?) ∧
      trap c tf cr2 input k = .exit () (k.upcalled c cur d tf q) := by
  set utf := utrapframeAddr tf.esp with hutf
  have hlen : (utrapframe tf cr2).length = 52 := utrapframe_length tf cr2
  have hok : ∀ i < (utrapframe tf cr2).length, k.phys.StoreOk d (utf + BitVec.ofNat 32 i) := by
    rw [hlen]
    exact h.plain
  obtain ⟨q, hstores, hq, hbytes⟩ := kernelStores_run (by rw [hlen]; decide) hok
  rw [hlen] at hq hbytes
  set k₁ := k.setTf cur tf with hk₁
  have hsaved : trapEnter c tf k = .ret () k₁ := trapEnter_saves h.own h.alive
  have henv : k₁.envs cur = { k.envs cur with tf } := by simp [hk₁, Kernel.setTf]
  have hassert : userMemAssert c cur utf utrapframeSize (pteU ||| pteW ||| pteP) k₁ =
      .ret () k₁ := by
    have hpgdir : pgdirOf cur k₁ = .ret d k₁ := by
      rw [pgdirOf, get_bind, henv]
      simp only [h.pgdir]
      rfl
    have hcheck : pmap (userMemCheck d utf utrapframeSize (pteU ||| pteW ||| pteP ||| pteU)) k₁ =
        .ret none k₁ := pmap_ret h.allowed
    rw [userMemAssert, bind_ret _ hpgdir, bind_ret _ hcheck]
    rfl
  set k₂ : Kernel := { k₁ with phys := q } with hk₂
  have henv₂ : k₂.envs cur = { k.envs cur with tf } := henv
  set k₃ := k₂.setTf cur
    { (k₂.envs cur).tf with eip := (k₂.envs cur).pgfaultUpcall, esp := utf } with hk₃
  have hstore : pmap (kernelStores (k₁.cpus c).cr3 utf (utrapframe tf cr2)) k₁ = .ret () k₂ := by
    have hcr3 : (k₁.cpus c).cr3 = d := h.cr3
    rw [hcr3]
    exact pmap_ret hstores
  have hrun : (envRun c cur : KM Unit) k₃ = .exit () (k₃.ran c cur d) := by
    apply envRun_run
    rw [hk₃, Kernel.setTf, Kernel.setEnv_envs_self]
    exact (congrArg Env.pgdir henv).trans h.pgdir
  have hfault : pageFaultHandler c tf cr2 k₁ = .exit () (k₃.ran c cur d) := by
    rw [pageFaultHandler, get_bind, if_neg (by rw [h.ring]; decide)]
    have hown : k₁.curenv c = some cur := h.own
    simp only [hown]
    rw [if_pos (by rw [henv]; exact h.upcall), bind_ret _ hassert, get_bind, bind_ret _ hstore,
      modify_bind]
    exact hrun
  have hdispatch : trapDispatch c tf cr2 input k₁ = .exit () (k₃.ran c cur d) := by
    rw [trapDispatch, get_bind, if_pos h.trapno]
    exact hfault
  refine ⟨q, hstores, hq, hbytes, ?_⟩
  rw [Jos.trap, when_pos _ h.ring, bind_ret _ hsaved, bind_exit _ hdispatch, Kernel.upcalled, hk₃,
    henv₂]

theorem Delivers.trap (h : Delivers k c cur d tf) (cr2 input : Word) :
    ∃ k', trap c tf cr2 input k = .exit () k' ∧ Delivered k c cur d tf cr2 k' := by
  obtain ⟨q, -, hq, hbytes, hrun⟩ := h.trap_run cr2 input
  refine ⟨_, hrun, congrArg Cpu.cr3 Kernel.ran_cpus_self, ?_, ?_, ?_, fun i hi => ?_, ?_,
    fun i => ?_, fun i hp j => ?_⟩
  · rw [Kernel.upcalled_tf]
  · rw [Kernel.upcalled_tf]
  · rw [Kernel.upcalled_phys]
    exact utfAt_of_bytes (by rw [utrapframe_length]; exact hbytes)
  · obtain ⟨pde, pte, walk, hpde, hpte, -⟩ := h.writable i hi
    rw [Kernel.upcalled_phys]
    exact ⟨pde, pte, (hq.translate _).trans walk, hpde, hpte⟩
  · rw [Kernel.upcalled_phys, Phys.SelfMap, hq.word_dir]
    exact h.selfMap
  · rw [Kernel.upcalled_phys, hq.word_dir]
  · rw [Kernel.upcalled_phys, hq.word_table hp]

/-- The page at `va` is marked copy-on-write. -/
def Phys.CowPage (p : Phys) (d : Nat) (va : Word) : Prop :=
  p.HasTable d va ∧ p.entryAt d va &&& pteCow ≠ 0

/-- The record is that of the fault `tf` at `cr2`, and `pgfault` copies a page exactly after a
write to a copy-on-write page. Otherwise it panics, if it can read the page table entry. -/
structure FaithfulFault (k : Kernel) (c d : Nat) (tf : Trapframe) (cr2 : Word) (k' : Kernel) :
    Prop where
  record : k'.phys.utfAt d (utrapframeAddr tf.esp) = some (faultRecord tf cr2)
  copies : (∃ a k'', pgfaultTest c (utrapframeAddr tf.esp) k' = .ret a k'') ↔
    tf.err &&& fecWr ≠ 0 ∧ k.phys.CowPage d cr2
  panics : ¬ (tf.err &&& fecWr ≠ 0 ∧ k.phys.CowPage d cr2) →
    pgfaultTest c (utrapframeAddr tf.esp) k' = .exit .panic k' ∨
      ¬ k.phys.HasTable d cr2 ∧ ∃ va, pgfaultTest c (utrapframeAddr tf.esp) k' = .exit (.fault va) k'

variable {cr2 : Word} {k' : Kernel}

theorem pn_pgnum (va : Word) : (BitVec.ofNat 32 (pgnum va) * 4096).toNat = va.toNat / 4096 * 4096 := by
  have hlt := va.isLt
  rw [pgnum_eq, pn_toNat (by omega)]

/-- What `pgfault` does is decided by the page table entry alone. -/
theorem pgfaultTest_cases {err : Word} {utf : Word} (hcr3 : (k.cpus c).cr3 = d)
    (hself : k.phys.SelfMap d) (haddr : loadWord c utf k = .ret cr2 k)
    (herror : loadWord c (utf + 4) k = .ret err k) (hwrite : ¬ err &&& fecWr = 0) :
    (k.phys.HasTable d cr2 → k.phys.entryAt d cr2 &&& pteCow ≠ 0 →
      pgfaultTest c utf k = .ret cr2 k) ∧
    (k.phys.HasTable d cr2 → k.phys.entryAt d cr2 &&& pteCow = 0 →
      pgfaultTest c utf k = .exit .panic k) ∧
    (¬ k.phys.HasTable d cr2 → ∃ va, pgfaultTest c utf k = .exit (.fault va) k) := by
  have hrun : pgfaultTest c utf k =
      (uvptEntry c (pgnum cr2) >>= fun pte =>
        if pte &&& pteCow = 0 then exit .panic else pure cr2) k := by
    rw [pgfaultTest, bind_ret _ haddr, bind_ret _ herror, if_neg hwrite]
  have hlt : pgnum cr2 < 1048576 := by
    have hcr2 := cr2.isLt
    rw [pgnum_eq]
    omega
  have hpdx : pdx (BitVec.ofNat 32 (pgnum cr2) * 4096) = pdx cr2 := by
    apply Fin.ext
    rw [pdx_val, pdx_val, pn_pgnum]
    omega
  have hptx : ptx (BitVec.ofNat 32 (pgnum cr2) * 4096) = ptx cr2 := by
    apply Fin.ext
    rw [ptx_val, ptx_val, pn_pgnum]
    omega
  have htable : k.phys.HasTable d (BitVec.ofNat 32 (pgnum cr2) * 4096) ↔ k.phys.HasTable d cr2 := by
    rw [Phys.HasTable, Phys.HasTable, hpdx]
  have hentry : k.phys.HasTable d cr2 →
      uvptEntry c (pgnum cr2) k = .ret (k.phys.entryAt d cr2) k := by
    intro ht
    rw [uvptEntry_run hcr3 hself hlt (htable.mpr ht), Phys.entryAt, hpdx, hptx, Phys.entryAt]
  refine ⟨fun ht hcow => ?_, fun ht hcow => ?_, fun ht => ?_⟩
  · rw [hrun, bind_ret _ (hentry ht), if_neg hcow]
    rfl
  · rw [hrun, bind_ret _ (hentry ht), if_pos hcow]
    rfl
  · rw [hrun]
    exact ⟨_, bind_exit _ (uvptEntry_fault hcr3 hself hlt fun ht' => ht (htable.mp ht'))⟩

theorem Delivered.pgfaultTest (h : Delivered k c cur d tf cr2 k') (trapno : tf.trapno = tPgflt) :
    (k.phys.HasTable d cr2 → k.phys.entryAt d cr2 &&& pteCow ≠ 0 →
      pgfaultTest c (utrapframeAddr tf.esp) k' = .ret cr2 k') ∧
    (k.phys.HasTable d cr2 → k.phys.entryAt d cr2 &&& pteCow = 0 →
      pgfaultTest c (utrapframeAddr tf.esp) k' = .exit .panic k') ∧
    (¬ k.phys.HasTable d cr2 → ∃ va,
      pgfaultTest c (utrapframeAddr tf.esp) k' = .exit (.fault va) k') := by
  set utf := utrapframeAddr tf.esp with hutf
  have hload : ∀ {a w : Word} (off : Nat), off + 4 ≤ 52 → a = utf + BitVec.ofNat 32 off →
      k'.phys.wordAt d a = some w → loadWord c a k' = .ret w k' := by
    rintro _ w off hoff rfl hw
    have hread : ∀ j < 4, k'.phys.Readable d (utf + BitVec.ofNat 32 off + BitVec.ofNat 32 j) := by
      intro j hj
      rw [BitVec.add_assoc, ← BitVec.ofNat_add]
      exact h.readable _ (by omega)
    obtain ⟨v, hrun, hv⟩ := loadWord_run h.cr3 hread
    rw [hrun, ← Option.some.inj (hw.symm.trans hv)]
  obtain ⟨hva, herr⟩ := utfAt_fields h.record
  have haddr : loadWord c utf k' = .ret cr2 k' := hload 0 (by decide) (BitVec.add_zero utf).symm hva
  have herror : loadWord c (utf + 4) k' = .ret tf.trapno k' := hload 4 (by decide) rfl herr
  -- 14 looks like a write
  have hwrite : ¬ tf.trapno &&& fecWr = 0 := by
    rw [trapno]
    decide
  have hcases := pgfaultTest_cases h.cr3 h.selfMap haddr herror hwrite
  -- the page tables are those of the fault
  have htable : k'.phys.HasTable d cr2 ↔ k.phys.HasTable d cr2 := by
    rw [Phys.HasTable, Phys.HasTable, h.dir]
  have hentry : k.phys.HasTable d cr2 → k'.phys.entryAt d cr2 = k.phys.entryAt d cr2 := by
    intro ht
    rw [Phys.entryAt, h.dir, h.table _ ht.1, Phys.entryAt]
  refine ⟨fun ht hcow => ?_, fun ht hcow => ?_, fun ht => hcases.2.2 fun ht' => ht (htable.mp ht')⟩
  · exact hcases.1 (htable.mpr ht) (by rwa [hentry ht])
  · exact hcases.2.1 (htable.mpr ht) (by rwa [hentry ht])

/-- The record is faithful exactly if the error code happens to be 14. -/
theorem Delivered.faithful_iff (h : Delivered k c cur d tf cr2 k') (trapno : tf.trapno = tPgflt) :
    FaithfulFault k c d tf cr2 k' ↔ tf.err = tPgflt := by
  obtain ⟨hcopy, hpanic, hfault⟩ := h.pgfaultTest trapno
  constructor
  · intro hf
    have heq := h.record.symm.trans hf.record
    exact (congrArg UTrapframe.err (Option.some.inj heq)).symm.trans trapno
  · intro herr
    have hwrite : tf.err &&& fecWr ≠ 0 := by
      rw [herr]
      decide
    refine ⟨?_, ⟨?_, ?_⟩, ?_⟩
    · rw [h.record, pushedRecord, faultRecord, trapno, herr]
    · rintro ⟨a, k'', hret⟩
      refine ⟨hwrite, ?_⟩
      by_cases ht : k.phys.HasTable d cr2
      · refine ⟨ht, fun hcow => ?_⟩
        cases (hpanic ht hcow).symm.trans hret
      · obtain ⟨va, hexit⟩ := hfault ht
        cases hexit.symm.trans hret
    · rintro ⟨-, ht, hcow⟩
      exact ⟨cr2, k', hcopy ht hcow⟩
    · intro hno
      by_cases ht : k.phys.HasTable d cr2
      · refine .inl (hpanic ht ?_)
        by_contra hcow
        exact hno ⟨hwrite, ht, hcow⟩
      · exact .inr ⟨ht, hfault ht⟩

end Deliver

/-! ## Where faults are delivered -/

namespace MemInv

variable {L : Layout} {k : Kernel} {c d f : Nat} {cur e : EnvIdx} {i j : Idx} {tf : Trapframe}

/-- A page that is mapped below `UTOP` is no page table. -/
theorem plain (h : MemInv L k) (hd : k.dirs cur = some d)
    (hf : k.phys.target k.dirs (.pte e i j) = some f) : k.phys.Plain d f := by
  have hplain := h.phys.tables.unshared.page_not_structural hf
  have hdir : f ≠ d := by
    rintro rfl
    exact hplain (.inl ⟨cur, hd⟩)
  refine ⟨hdir, fun i' hp heq => ?_⟩
  by_cases hi : i'.val < userPdes
  · refine hplain (.inr ⟨cur, i', ?_⟩)
    rw [Phys.target, Phys.pdeAt_of_dir hd hi, entryFrame, if_pos hp, heq]
  · by_cases huvpt : i' = pdx uvpt
    · rw [huvpt, (h.selfMap hd).2] at heq
      exact hdir heq
    · rw [h.phys.tables.kernHalf cur d i' hd (Nat.le_of_not_lt hi) huvpt] at hp heq
      have hreserved := (L.table_reserved i' (Nat.le_of_not_lt hi) hp).2
      rw [← heq] at hreserved
      exact hreserved (h.phys.tables.owned _ f hf)

/-- Wherever the invariant of the memory manager holds and `user_mem_assert` passes. -/
theorem delivers (h : MemInv L k) (own : k.curenv c = some cur) (alive : k.status cur ≠ .dying)
    (hd : k.dirs cur = some d) (cr3 : (k.cpus c).cr3 = d)
    (upcall : (k.envs cur).pgfaultUpcall ≠ 0) (ring : tf.cs &&& 3 = 3)
    (trapno : tf.trapno = tPgflt)
    (allowed : userMemCheck d (utrapframeAddr tf.esp) utrapframeSize
      (pteU ||| pteW ||| pteP ||| pteU) k.phys = .ret none k.phys) : Delivers k c cur d tf := by
  have hself := h.phys.tables.selfMap cur d hd
  have hwritable : ∀ i < 52,
      k.phys.userAccess d (utrapframeAddr tf.esp + BitVec.ofNat 32 i) true :=
    fun i hi => h.utrapframe_access hd allowed hi
  refine ⟨own, alive, hd, cr3, upcall, ring, trapno, ⟨(h.selfMap hd).1, ?_, (h.selfMap hd).2⟩,
    allowed, hwritable, fun i hi => ?_⟩
  · rw [hself, BitVec.and_or_distrib_right]
    intro hz
    exact absurd (BitVec.or_eq_zero_iff.mp hz).2 (by decide)
  · obtain ⟨pde, pte, walk, hpde, hpte, hwrite⟩ := hwritable i hi
    obtain ⟨-, hf⟩ := h.phys.user_write hd walk ⟨hpde, hpte⟩ (hwrite rfl)
    exact ⟨pde, pte, walk, (hwrite rfl).1, (hwrite rfl).2, h.plain hd hf⟩

end MemInv

/-- Of a page fault that is delivered to an upcall, the handler gets a faithful record, and
`pgfault` acts on it as it should, if and only if the error code of the fault is 14. -/
theorem fault_record_faithful (k : Kernel) (c d : Nat) (cur : EnvIdx) (tf : Trapframe)
    (cr2 input : Word) (h : Delivers k c cur d tf) :
    (∃ k', trap c tf cr2 input k = .exit () k' ∧ FaithfulFault k c d tf cr2 k') ↔
      tf.err = tPgflt := by
  obtain ⟨k', hrun, hdelivered⟩ := h.trap cr2 input
  rw [← hdelivered.faithful_iff h.trapno]
  constructor
  · rintro ⟨k'', hrun', hf⟩
    cases hrun.symm.trans hrun'
    exact hf
  · exact fun hf => ⟨k', hrun, hf⟩

/-- A memory of four pages: page 1 is a directory with the self-map and the page table 2, in
which page 3 is the exception stack. -/
def Phys.faulting : Phys :=
  (((Phys.blank 4).setWord 1 (pdx uvpt) (mkPte 1 pteU)).setWord 1 (pdx uxstack)
    (mkPte 2 (pteU ||| pteW))).setWord 2 (ptx uxstack) (mkPte 3 (pteU ||| pteW))

theorem Phys.faulting_word (f : Nat) (i : Idx) : Phys.faulting.word f i =
    if f = 2 ∧ i = ptx uxstack then mkPte 3 (pteU ||| pteW)
    else if f = 1 ∧ i = pdx uxstack then mkPte 2 (pteU ||| pteW)
    else if f = 1 ∧ i = pdx uvpt then mkPte 1 pteU else 0 := by
  have hblank : (Phys.blank 4).word f i = 0 := readWord_zero i
  rw [Phys.faulting, Phys.word_setWord, Phys.word_setWord, Phys.word_setWord, hblank]

/-- An environment with an upcall that runs on CPU 0. -/
def Kernel.faulting : Kernel :=
  { phys := .faulting, kernPgdir := 0,
    envs := fun e =>
      if e = 0 then { Env.zero with status := .running, pgdir := some 1, pgfaultUpcall := 0x800100 }
      else Env.zero,
    envFreeList := none,
    cpus := fun c => if c = 0 then ⟨some 0, .user, 1⟩ else ⟨none, .unused, 0⟩ }

/-- A page fault on the normal stack, with the error code `err`. -/
def Trapframe.pageFault (err : Word) : Trapframe :=
  { Trapframe.zero with
    trapno := tPgflt, err, eip := 0x800020, cs := 0x1B, esp := ustacktop, ss := 0x23 }

theorem lone_translate {i : Nat} (hi : i < 52) :
    Phys.faulting.translate 1 (uxstacktop - 52 + BitVec.ofNat 32 i) =
      some (mkPte 2 (pteU ||| pteW), mkPte 3 (pteU ||| pteW)) := by
  have hbase : (uxstacktop - 52).toNat = 4005560268 := by decide
  have hva : (uxstacktop - 52 + BitVec.ofNat 32 i).toNat = 4005560268 + i := by
    rw [BitVec.toNat_add, BitVec.toNat_ofNat, hbase]
    omega
  have hpdx : pdx (uxstacktop - 52 + BitVec.ofNat 32 i) = pdx uxstack := by
    apply Fin.ext
    have hval : (pdx uxstack).val = 954 := by decide
    rw [hval, pdx_val, hva]
    omega
  have hptx : ptx (uxstacktop - 52 + BitVec.ofNat 32 i) = ptx uxstack := by
    apply Fin.ext
    have hval : (ptx uxstack).val = 1023 := by decide
    rw [hval, ptx_val, hva]
    omega
  rw [Phys.translate, hpdx, hptx]
  simp only [Phys.faulting_word]
  decide

/-- The record fits on the exception stack. -/
theorem lone_allowed : userMemCheck 1 (uxstacktop - 52) utrapframeSize
    (pteU ||| pteW ||| pteP ||| pteU) Phys.faulting = .ret none Phys.faulting := by
  have htables : ∀ i, Phys.faulting.word 1 i &&& pteP ≠ 0 →
      pgnum (Phys.faulting.word 1 i) < Phys.faulting.npages := by
    intro i hp
    have hnpages : Phys.faulting.npages = 4 := rfl
    rw [Phys.faulting_word] at hp ⊢
    rw [if_neg (by simp)] at hp ⊢
    rw [hnpages]
    split
    · decide
    · split
      · decide
      · decide
  obtain ⟨r, hrun⟩ := userMemCheck_ret (uxstacktop - 52) utrapframeSize
    (pteU ||| pteW ||| pteP ||| pteU) htables
  have hgranted : ∃ q, userMemCheck 1 (uxstacktop - 52) utrapframeSize
      (pteU ||| pteW ||| pteP ||| pteU) Phys.faulting = .ret none q := by
    refine (userMemCheck_none_iff _ _ _ _ _).mpr fun a haligned hlow hhigh => ?_
    -- there is only one page
    have ha : a = uxstack := by
      have hlow' : 4005556224 ≤ a.toNat := BitVec.le_def.mp hlow
      have hhigh' : a.toNat < 4005560320 := BitVec.lt_def.mp hhigh
      have hval : uxstack.toNat = 4005556224 := by decide
      apply BitVec.eq_of_toNat_eq
      omega
    rw [ha, Phys.PageGranted]
    simp only [Phys.faulting_word]
    have hnpages : Phys.faulting.npages = 4 := rfl
    rw [hnpages]
    decide
  obtain ⟨q, hnone⟩ := hgranted
  cases hrun.symm.trans hnone
  exact hrun

theorem faulting_delivers (err : Word) : Delivers Kernel.faulting 0 0 1 (.pageFault err) := by
  have haddr : utrapframeAddr (Trapframe.pageFault err).esp = uxstacktop - 52 := by
    change utrapframeAddr ustacktop = _
    decide
  have hplain : Phys.faulting.Plain 1 3 := by
    refine ⟨by decide, fun i hp heq => ?_⟩
    rw [Phys.faulting_word, if_neg (by simp)] at hp heq
    split at heq
    · exact absurd heq (by decide)
    · split at heq
      · exact absurd heq (by decide)
      · exact absurd heq (by decide)
  have hself : Phys.faulting.word 1 (pdx uvpt) = mkPte 1 pteU := by
    rw [Phys.faulting_word]
    decide
  have hring : (0x1B : BitVec 16) &&& 3 = 3 := by decide
  refine ⟨rfl, by decide, rfl, rfl, by decide, hring, rfl, ?_, ?_, fun i hi => ?_, fun i hi => ?_⟩
  · change Phys.faulting.SelfMap 1
    rw [Phys.SelfMap, hself]
    decide
  · rw [haddr]
    exact lone_allowed
  · rw [haddr]
    exact ⟨_, _, lone_translate hi, by decide, by decide, fun _ => ⟨by decide, by decide⟩⟩
  · rw [haddr]
    refine ⟨_, _, lone_translate hi, by decide, by decide, ?_⟩
    have hnum : pgnum (mkPte 3 (pteU ||| pteW)) = 3 := by decide
    rw [hnum]
    exact hplain

theorem fault_record_faithful_lone :
    (∃ k', trap 0 (.pageFault 14) 0x804000 0 Kernel.faulting = .exit () k' ∧
      FaithfulFault Kernel.faulting 0 1 (.pageFault 14) 0x804000 k') ↔
      (Trapframe.pageFault 14).err = tPgflt :=
  fault_record_faithful Kernel.faulting 0 1 0 (.pageFault 14) 0x804000 0 (faulting_delivers 14)

/-- A read of an address where nothing is mapped: the handler is told 14 in place of 4. -/
theorem fault_record_unfaithful : ∃ k', trap 0 (.pageFault 4) 0x804000 0 Kernel.faulting = .exit () k' ∧
    k'.phys.utfAt 1 (uxstacktop - 52) = some (pushedRecord (.pageFault 4) 0x804000) ∧
    (pushedRecord (.pageFault 4) 0x804000).err = 14 ∧
    ¬ FaithfulFault Kernel.faulting 0 1 (.pageFault 4) 0x804000 k' := by
  obtain ⟨k', hrun, hdelivered⟩ := (faulting_delivers 4).trap 0x804000 0
  refine ⟨k', hrun, hdelivered.record, rfl, fun hf => ?_⟩
  exact absurd ((hdelivered.faithful_iff rfl).mp hf) (by decide)

end Jos
