import Jos.Kernel.Memory

/-!
# Every kernel entry keeps memory well-formed

The invariant of the memory manager along the whole kernel: scheduling, the
creation and the end of environments, every system call and the page fault
handler, and the stores of user code. Nothing panics on the way, except that a
lookup for a message or the string of `sys_cputs` may lead outside of memory.
-/

namespace Jos

open Prog

variable {L : Layout} {k k' : Kernel} {c : Nat} {cur e : EnvIdx} {d : Nat} {va perm : Word}
  {tf : Trapframe}

theorem Kernel.dirs_setTf : (k.setTf e tf).dirs = k.dirs :=
  funext fun e' => Kernel.setEnv_field (f := Env.pgdir) (by rfl) e'

theorem Kernel.ran_phys : (k.ran c e d).phys = k.phys ∧ (k.ran c e d).kernPgdir = k.kernPgdir := by
  have hpre : (k.preempted c).phys = k.phys ∧ (k.preempted c).kernPgdir = k.kernPgdir := by
    rw [Kernel.preempted]
    cases k.curenv c with
    | none => exact ⟨rfl, rfl⟩
    | some cur =>
        dsimp only
        split <;> exact ⟨rfl, rfl⟩
  simpa [Kernel.ran, Kernel.setCpu, Kernel.setEnv, Kernel.setCurenv] using hpre

theorem Kernel.ran_dirs : (k.ran c e d).dirs = k.dirs :=
  funext (Kernel.ran_field (f := Env.pgdir) fun _ _ _ _ => rfl)

/-- The scheduler leaves memory alone. -/
theorem Dispatch.memory (out : Dispatch c k k') :
    k'.phys = k.phys ∧ k'.dirs = k.dirs := by
  refine ⟨?_, funext (out.field (f := Env.pgdir) fun _ _ _ _ => rfl)⟩
  cases out with
  | run ready pgdir => exact Kernel.ran_phys.1
  | halt => rfl
  | monitor => rfl

/-- The scheduler leaves slots in use that were in use. -/
theorem Kernel.ran_free_iff (used : k.status e ≠ .free) (e' : EnvIdx) :
    (k.ran c e d).status e' = .free ↔ k.status e' = .free := by
  by_cases he : e' = e
  · subst he
    rw [Kernel.ran_status_self]
    exact ⟨fun hf => by simp at hf, fun hf => absurd hf used⟩
  · rw [Kernel.status, Kernel.ran_envs_of_ne he]
    rcases Kernel.preempted_envs (k := k) (c := c) e' with h | ⟨-, hrunning, h⟩
    · rw [h, Kernel.status]
    · rw [h, hrunning]
      simp

namespace MemInv

/-! ### Scheduling and the end of an environment -/

theorem setTf (h : MemInv L k) {t : Trapframe} : MemInv L (k.setTf e t) :=
  h.congr rfl rfl Kernel.dirs_setTf fun e' => by rw [Kernel.setTf_status]

theorem setCpu (h : MemInv L k) (cpu : Cpu) : MemInv L (k.setCpu c cpu) :=
  h.congr rfl rfl rfl fun _ => Iff.rfl

theorem ran (h : MemInv L k) (used : k.status e ≠ .free) : MemInv L (k.ran c e d) :=
  h.congr Kernel.ran_phys.1 Kernel.ran_phys.2 Kernel.ran_dirs (Kernel.ran_free_iff used)

theorem envRun (h : MemInv L k) (used : k.status e ≠ .free) {α : Type}
    {Q : α → Kernel → Prop} {E : Panic → Prop} :
    wp (envRun c e) Q (fun _ k' => MemInv L k') E k := by
  obtain ⟨d, hd, -⟩ := h.dir_of_live used
  rw [wp_exit_eq (envRun_run hd)]
  exact h.ran used

theorem monitor (h : MemInv L k) {α : Type} {Q : α → Kernel → Prop} {E : Panic → Prop} :
    wp (monitor c) Q (fun _ k' => MemInv L k') E k := by
  rw [Jos.monitor, wp_bind, wp_modify, wp_exit]
  exact h.setCpu _

theorem schedHalt (h : MemInv L k) {α : Type} {Q : α → Kernel → Prop} {E : Panic → Prop} :
    wp (schedHalt c) Q (fun _ k' => MemInv L k') E k := by
  rw [Jos.schedHalt, wp_bind, wp_get, wp_ite]
  refine ⟨fun _ => ?_, fun _ => h.monitor⟩
  rw [wp_bind, wp_modify, wp_exit]
  exact h.setCpu _

theorem schedYield (h : MemInv L k) {α : Type} {Q : α → Kernel → Prop} {E : Panic → Prop} :
    wp (schedYield c) Q (fun _ k' => MemInv L k') E k := by
  rw [Jos.schedYield, wp_bind, wp_get]
  split
  · rename_i e he
    exact h.envRun (by rw [schedScan_some he]; decide)
  · split
    · rename_i idle hidle
      rw [wp_ite]
      exact ⟨fun hr => h.envRun (by rw [hr]; decide), fun _ => h.schedHalt⟩
    · exact h.schedHalt

theorem trapReturn (h : MemInv L k) {Q : Unit → Kernel → Prop} {E : Panic → Prop} :
    wp (trapReturn c) Q (fun _ k' => MemInv L k') E k := by
  rw [Jos.trapReturn, wp_bind, wp_get]
  split
  · rename_i e he
    rw [wp_ite]
    exact ⟨fun hr => h.envRun (by rw [hr]; decide), fun _ => h.schedYield⟩
  · exact h.schedYield

theorem envDestroy (h : MemInv L k) (used : k.status e ≠ .free) {E : Panic → Prop} :
    wp (envDestroy c e) (fun _ k' => MemInv L k' ∧ k.curenv c ≠ some e)
      (fun _ k' => MemInv L k') E k := by
  rw [Jos.envDestroy, wp_bind, wp_get, wp_ite]
  refine ⟨fun hrun => ?_, fun _ => ?_⟩
  · rw [wp_modify]
    exact ⟨h.setEnv used rfl (by simp), hrun.2⟩
  · rw [wp_bind]
    have hfree := wp_and (h.envFree (c := c) used) (envFree_released (X := fun _ _ => False))
    refine wp_mono hfree ?_ (fun _ _ hx => hx.1.elim) (fun _ he => he.1.elim)
    rintro _ k₁ ⟨h₁, same⟩
    have hcur : k₁.curenv c = k.curenv c := by
      rw [Kernel.curenv, same.cpus]
      split
      · simp [Kernel.released, Kernel.setEnv, Kernel.setCpu, Kernel.curenv]
      · rfl
    rw [wp_bind, wp_get, wp_when]
    refine ⟨fun _ => ?_, fun hother => ⟨h₁, by rwa [hcur] at hother⟩⟩
    rw [wp_bind, wp_modify]
    exact (h₁.setCpu _).schedYield

/-- `env_destroy` of the current environment comes to its end. -/
theorem envDestroy_exits (h : MemInv L k) (own : k.curenv c = some cur)
    (used : k.status cur ≠ .free) : ∃ k', Jos.envDestroy c cur k = .exit () k' ∧
      k'.status cur = .free ∧ k'.curenv c ≠ some cur := by
  obtain ⟨⟨⟩, k', hrun, -, k₁, same, out⟩ := exists_exit_of_wp (wp_mono
    (wp_and (h.envDestroy (c := c) used (E := fun _ => False))
      (envDestroy_own (Q := fun _ _ => True) own))
    (fun _ _ hq => hq.1.2 own) (fun _ _ hx => hx) (fun _ he => he.1))
  exact ⟨k', hrun, out.stays_free same.exited.1 same.exited.2⟩

/-! ### New environments -/

end MemInv

/-- The three ways out of `sys_exofork`. -/
theorem sysExofork_noSlot (head : k.envFreeList = none) :
    sysExofork cur k = .ret (-eNoFreeEnv) k := by
  have halloc : envAlloc (k.envs cur).id k = .ret (.error (-eNoFreeEnv)) k := by
    rw [envAlloc, get_bind, head]
    rfl
  rw [sysExofork, get_bind, bind_ret _ halloc]
  rfl

theorem sysExofork_noMem (head : k.envFreeList = some e) (hpage : k.phys.pageFreeList = none) :
    sysExofork cur k = .ret (-eNoMem) k := by
  have halloc : envAlloc (k.envs cur).id k = .ret (.error (-eNoMem)) k := by
    rw [envAlloc, get_bind, head]
    exact bind_ret _ (envSetupVm_noMem hpage)
  rw [sysExofork, get_bind, bind_ret _ halloc]
  rfl

theorem sysExofork_run {f : Nat} (head : k.envFreeList = some e) (hne : cur ≠ e)
    (hpage : k.phys.pageFreeList = some f) (hlt : f < k.phys.npages)
    (hn : k.phys.npages ≤ 65536) :
    sysExofork cur k = .ret (nextEnvId (k.envs e).id e)
      { k.forked e (k.envs cur).id f ((k.envs cur).tf.setEax 0) with
        phys := k.phys.newDir k.kernPgdir f } := by
  apply ret_of_wp
  rw [sysExofork, wp_bind, wp_get, wp_bind, envAlloc, wp_bind, wp_get, head]
  simp only [wp_bind]
  rw [wp_ret (envSetupVm_run hpage hlt hn), if_neg (by decide)]
  simp only [wp_bind, wp_modify, wp_pure, wp_get, Kernel.setStatus, Kernel.setTf,
    Kernel.setEnv_envs_self, Kernel.setEnv_setEnv]
  refine ⟨trivial, ?_⟩
  simp [Kernel.forked, Kernel.setEnv, Function.update_of_ne hne]

namespace MemInv

/-- A slot gets a new page directory. -/
theorem newEnv (h : MemInv L k) (hfree : k.status e = .free)
    {f : Nat} (hpage : k.phys.pageFreeList = some f) {env : Env} (hpgdir : env.pgdir = some f)
    (hlive : env.status ≠ .free) (o : Option EnvIdx) :
    MemInv L { k.setEnv e env with phys := k.phys.newDir L.kern f, envFreeList := o } := by
  refine ⟨?_, h.kern, fun e' => ?_⟩
  · refine (h.phys.newDir hpage ((h.live e).mp hfree)).1.of_dirs fun e' => ?_
    by_cases he : e' = e
    · subst he
      simp [Kernel.dirs, hpgdir]
    · simp [Kernel.dirs, Kernel.setEnv_envs_of_ne _ he, Function.update_of_ne he]
  · by_cases he : e' = e
    · subst he
      simp [Kernel.status, Kernel.dirs, hpgdir, hlive]
    · simpa [Kernel.status, Kernel.dirs, Kernel.setEnv_envs_of_ne _ he] using h.live e'

theorem sysExofork_spec (h : MemInv L k) (slots : k.SlotsFree) (hcur : k.status cur ≠ .free)
    {X : Unit → Kernel → Prop} {E : Panic → Prop} :
    wp (sysExofork cur) (fun _ k' => MemInv L k') X E k := by
  cases head : k.envFreeList with
  | none =>
      rw [wp_ret (sysExofork_noSlot head)]
      exact h
  | some e =>
      have hfree := (slots.forked head 0 0 .zero).1
      cases hpage : k.phys.pageFreeList with
      | none =>
          rw [wp_ret (sysExofork_noMem head hpage)]
          exact h
      | some f =>
          have hne : cur ≠ e := by
            rintro rfl
            exact hcur hfree
          have hlt := h.phys.lt_npages (h.phys.alloc hpage true).2.1.owned
          rw [wp_ret (sysExofork_run head hne hpage hlt h.phys.npages_le)]
          rw [h.kern]
          exact h.newEnv hfree hpage rfl (by simp) _

/-! ### User memory -/

theorem userMemAssert (h : MemInv L k) (own : k.curenv c = some cur) (used : k.status cur ≠ .free)
    {va len perm : Word} {E : Panic → Prop} :
    wp (userMemAssert c cur va len perm)
      (fun _ k' => k' = k ∧ ∀ d, k.dirs cur = some d →
        userMemCheck d va len (perm ||| pteU) k.phys = .ret none k.phys)
      (fun _ k' => MemInv L k') E k := by
  obtain ⟨d, hd, hpg⟩ := h.pgdirOf_run used
  have htables : ∀ i, k.phys.word d i &&& pteP ≠ 0 → pgnum (k.phys.word d i) < k.phys.npages :=
    fun i hp => h.table_lt hd hp
  rw [Jos.userMemAssert, wp_bind, wp_ret hpg, wp_bind]
  obtain ⟨r, hr⟩ := userMemCheck_ret va len (perm ||| pteU) htables
  rw [wp_ret (pmap_ret hr)]
  cases r with
  | none =>
      refine (wp_pure _).mpr ⟨rfl, fun d' hd' => ?_⟩
      rw [← Option.some.inj (hd.symm.trans hd')]
      exact hr
  | some addr =>
      exact wp_imp (h.envDestroy used) fun _ _ hq => absurd own hq.2

end MemInv

/-- Every byte that `%.*s` with precision `n` reads from `va` on is mapped. -/
def Phys.StringMapped (p : Phys) (pgdir n : Nat) (va : Word) : Prop :=
  ∀ m ≤ n, (∀ i < m, p.byteAt pgdir (va + BitVec.ofNat 32 i) ≠ some 0) →
    p.byteAt pgdir (va + BitVec.ofNat 32 m) ≠ none

/-- The string of `sys_cputs` ends in time: one of its `len` bytes is NUL, with only mapped bytes
before it, or the byte behind them can be read too. If the range reaches the end of the address
space, or `len` is negative as a precision, only the NUL helps. -/
def Phys.StringEnds (p : Phys) (pgdir : Nat) (s len : Word) : Prop :=
  (∃ i < len.toNat, (∀ j < i, p.byteAt pgdir (s + BitVec.ofNat 32 j) ≠ none) ∧
      p.byteAt pgdir (s + BitVec.ofNat 32 i) = some 0) ∨
    len.msb = false ∧ s.toNat + len.toNat ≤ 4294963200 ∧ p.byteAt pgdir (s + len) ≠ none

/-- The check looks at the pages of the `len` bytes, and the kernel reads one byte more. -/
theorem Phys.StringEnds.mapped {p : Phys} {pgdir : Nat} {s len : Word}
    (h : p.StringEnds pgdir s len)
    (accepted : userMemCheck pgdir s len (pteU ||| pteU) p = .ret none p) :
    p.StringMapped pgdir (stringBound len) s := by
  intro m hm hprefixes
  rcases h with ⟨i, -, hmapped, hnul⟩ | ⟨hsign, hfit, hnext⟩
  · rcases Nat.lt_trichotomy m i with hlt | rfl | hgt
    · exact hmapped m hlt
    · rw [hnul]
      exact Option.some_ne_none 0
    · exact absurd hnul (hprefixes i hgt)
  · rw [stringBound, hsign, if_neg Bool.false_ne_true] at hm
    rcases Nat.lt_or_eq_of_le hm with hlt | rfl
    · have hrange := len.isLt
      have haddr : (s + BitVec.ofNat 32 m).toNat = s.toNat + m := by
        rw [BitVec.toNat_add, BitVec.toNat_ofNat]
        omega
      obtain ⟨haligned, hlow, hhigh⟩ := @rounddown_mem_range s len (s + BitVec.ofNat 32 m) hfit
        (by rw [BitVec.le_def]; omega) (by omega)
      obtain ⟨-, hpde, -, hpte⟩ :=
        (userMemCheck_none_iff _ _ _ _ _).mp ⟨p, accepted⟩ _ haligned hlow hhigh
      rw [pdx_rounddown, ptx_rounddown] at hpte
      rw [pdx_rounddown] at hpde
      have hpresent := and_ne_zero_of_subset hpte
        (show (pteU ||| pteU ||| pteP ||| pteU) &&& pteP ≠ 0 by decide)
      rw [Phys.byteAt, Phys.translate, if_neg hpde, if_neg hpresent]
      exact Option.some_ne_none _
    · rwa [BitVec.ofNat_toNat, BitVec.setWidth_eq]

/-- A load, where a byte is mapped or faults do not matter. -/
theorem kernelLoad_spec {p : Phys} {pgdir : Nat} {va : Word} {X : Empty → Phys → Prop}
    {E : Panic → Prop} (ok : p.byteAt pgdir va ≠ none ∨ ∀ why, E why) :
    wp (kernelLoad pgdir va) (fun b q => q = p ∧ p.byteAt pgdir va = some b) X E p := by
  rw [kernelLoad, wp_bind, wp_get]
  rw [Phys.byteAt] at ok ⊢
  cases ht : p.translate pgdir va with
  | none =>
      rw [ht] at ok
      exact (wp_panic _).mpr (ok.resolve_left (by simp) _)
  | some entries => exact (wp_pure _).mpr ⟨rfl, rfl⟩

theorem readString_spec {p : Phys} {pgdir n : Nat} {va : Word} {X : Empty → Phys → Prop}
    {E : Panic → Prop} (ok : p.StringMapped pgdir n va ∨ ∀ why, E why) :
    wp (readString pgdir n va) (fun _ q => q = p) X E p := by
  have hzero : ∀ va : Word, va + BitVec.ofNat 32 0 = va := BitVec.add_zero
  have hfirst : ∀ {n : Nat} {va : Word}, p.StringMapped pgdir n va ∨ (∀ why, E why) →
      p.byteAt pgdir va ≠ none ∨ ∀ why, E why := by
    intro n va ok
    refine ok.imp_left fun hmap => ?_
    have hbyte := hmap 0 (Nat.zero_le n) fun i hi => absurd hi (Nat.not_lt_zero i)
    rwa [hzero] at hbyte
  induction n generalizing va with
  | zero =>
      rw [readString, wp_bind]
      exact wp_imp (kernelLoad_spec (hfirst ok)) fun _ _ hq => (wp_pure _).mpr hq.1
  | succ n ih =>
      rw [readString, wp_bind]
      apply wp_imp (kernelLoad_spec (hfirst ok))
      rintro b q ⟨rfl, hb⟩
      rw [wp_when]
      refine ⟨fun hne => ih (ok.imp_left fun hmap m hm hprefixes => ?_), fun _ => rfl⟩
      have hshift : ∀ i, va + BitVec.ofNat 32 (i + 1) = va + 1 + BitVec.ofNat 32 i :=
        fun i => (add_one_add_ofNat va i).symm
      rw [← hshift]
      refine hmap (m + 1) (by omega) fun i hi => ?_
      cases i with
      | zero =>
          rw [hzero, hb]
          simpa using hne
      | succ i =>
          rw [hshift]
          exact hprefixes i (by omega)

namespace Phys.Inv

variable {dirs : EnvIdx → Option Nat} {p : Phys} {pde pte : Word} {f : Nat}

/-- What the walk finds in the user half. -/
theorem target_of_translate (hd : dirs e = some d) (hva : va < utop)
    (walk : p.translate d va = some (pde, pte)) :
    p.target dirs (.pte e (pdx va) (ptx va)) = some (pgnum pte) := by
  rw [Phys.translate] at walk
  dsimp only at walk
  split at walk
  · simp at walk
  · rename_i hp
    split at walk
    · simp at walk
    · rename_i hpte
      obtain ⟨-, rfl⟩ := Prod.mk.inj (Option.some.inj walk)
      have ht : p.target dirs (.pde e (pdx va)) = some (pgnum (p.word d (pdx va))) := by
        rw [Phys.target, Phys.pdeAt_of_dir hd ((pdx_lt_iff va).mpr hva), entryFrame, if_pos hp]
      rw [Phys.target, Phys.pteAt_of_table ht, entryFrame, if_pos hpte]

/-- In the kernel's half no entry that user mode may read is writable. -/
theorem user_write_lt (h : p.Inv L dirs none) (hd : dirs e = some d)
    (walk : p.translate d va = some (pde, pte)) (user : pte &&& pteU ≠ 0)
    (write : pde &&& pteW ≠ 0 ∧ pte &&& pteW ≠ 0) : va < utop := by
  by_contra hva
  have hi : userPdes ≤ (pdx va).val := by
    rw [← Nat.not_lt]
    exact fun hlt => hva ((pdx_lt_iff va).mp hlt)
  rw [Phys.translate] at walk
  dsimp only at walk
  split at walk
  · simp at walk
  · rename_i hp
    split at walk
    · simp at walk
    · obtain ⟨rfl, rfl⟩ := Prod.mk.inj (Option.some.inj walk)
      by_cases huvpt : pdx va = pdx uvpt
      · have hself := h.tables.selfMap e d hd
        rw [huvpt, hself] at write
        refine write.1 ?_
        rw [BitVec.and_or_distrib_right, BitVec.and_or_distrib_right, page2pa,
          pageAddr_and d (by decide)]
        decide
      · have hkern := h.tables.kernHalf e d _ hd hi huvpt
        rw [hkern] at hp user write
        have htable := (L.table_reserved _ hi hp).2
        have hword : p.word (pgnum (L.boot.word L.kern (pdx va))) (ptx va) =
            L.boot.word (pgnum (L.boot.word L.kern (pdx va))) (ptx va) :=
          L.boot.word_congr (h.tables.frozen _ htable)
        rw [hword] at user write
        exact write.2 (L.user_readonly _ _ hi huvpt hp user)

/-- What user mode can write is a mapped page of the user half. -/
theorem user_write (h : p.Inv L dirs none) (hd : dirs e = some d)
    (walk : p.translate d va = some (pde, pte)) (user : pde &&& pteU ≠ 0 ∧ pte &&& pteU ≠ 0)
    (write : pde &&& pteW ≠ 0 ∧ pte &&& pteW ≠ 0) :
    va < utop ∧ p.target dirs (.pte e (pdx va) (ptx va)) = some (pgnum pte) := by
  have hva := h.user_write_lt hd walk user.2 write
  exact ⟨hva, target_of_translate hd hva walk⟩

/-- A store by user code. -/
theorem setByte (h : p.Inv L dirs none) (hf : p.target dirs (.pte e (pdx va) (ptx va)) = some f)
    (off : Nat) (b : Byte) : (p.setByte f off b).Inv L dirs none :=
  h.setPage (h.tables.owned _ f hf) (h.tables.unshared.page_not_structural hf) _

/-- The contents of a page that is no table do not matter to the walk. -/
theorem translate_setPage (hd : dirs e = some d) (hva : va < utop) (hs : ¬ p.Structural dirs f)
    (page : Page) : (p.setPage f page).translate d va = p.translate d va := by
  have hword : ∀ g i, p.Structural dirs g → (p.setPage f page).word g i = p.word g i := by
    intro g i hg
    refine p.word_congr (p.mem_setPage_of_ne page ?_)
    rintro rfl
    exact hs hg
  have hdir := hword d (pdx va) (.inl ⟨e, hd⟩)
  rw [Phys.translate, Phys.translate, hdir]
  dsimp only
  by_cases hp : p.word d (pdx va) &&& pteP = 0
  · rw [if_pos hp, if_pos hp]
  · have ht : p.target dirs (.pde e (pdx va)) = some (pgnum (p.word d (pdx va))) := by
      rw [Phys.target, Phys.pdeAt_of_dir hd ((pdx_lt_iff va).mpr hva), entryFrame, if_pos hp]
    rw [hword _ (ptx va) (.inr ⟨e, _, ht⟩)]

/-- The kernel stores bytes where user mode could. -/
theorem kernelStores (h : p.Inv L dirs none) (hd : dirs e = some d) {bytes : List Byte}
    (access : ∀ i < bytes.length, p.userAccess d (va + BitVec.ofNat 32 i) true) :
    ∃ q, kernelStores d va bytes p = .ret () q ∧ q.Inv L dirs none ∧ q.pages = p.pages ∧
      q.pageFreeList = p.pageFreeList ∧ ∀ f, p.Structural dirs f → q.mem f = p.mem f := by
  induction bytes generalizing va p with
  | nil => exact ⟨p, rfl, h, rfl, rfl, fun _ _ => rfl⟩
  | cons b bytes ih =>
      obtain ⟨pde, pte, walk, hU, hU', hW⟩ := access 0 (by simp)
      rw [show va + BitVec.ofNat 32 0 = va from BitVec.add_zero va] at walk
      obtain ⟨hva, hf⟩ := h.user_write hd walk ⟨hU, hU'⟩ (hW rfl)
      have hstore : kernelStore d va b p = .ret () (p.setByte (pgnum pte) (pgoff va) b) := by
        rw [kernelStore, get_bind, walk]
        dsimp only
        rw [if_neg (by rintro (hz | hz); exacts [(hW rfl).1 hz, (hW rfl).2 hz])]
        rfl
      have hplain := h.tables.unshared.page_not_structural hf
      have hrest : ∀ i < bytes.length,
          (p.setByte (pgnum pte) (pgoff va) b).userAccess d (va + 1 + BitVec.ofNat 32 i) true := by
        intro i hi
        obtain ⟨pde', pte', walk', hU₁, hU₁', hW'⟩ := access (i + 1) (by simpa using hi)
        have hshift := add_one_add_ofNat va i
        obtain ⟨hva', -⟩ := h.user_write hd walk' ⟨hU₁, hU₁'⟩ (hW' rfl)
        refine ⟨pde', pte', ?_, hU₁, hU₁', hW'⟩
        rw [hshift, ← walk']
        exact translate_setPage hd hva' hplain _
      obtain ⟨q, hrun, hq, hpages, hfree, hagree⟩ := ih (h.setByte hf _ _) hrest
      have hbyte : ∀ g, p.Structural dirs g →
          (p.setByte (pgnum pte) (pgoff va) b).mem g = p.mem g := by
        intro g hg
        refine p.mem_setPage_of_ne _ ?_
        rintro rfl
        exact hplain hg
      refine ⟨q, ?_, hq, hpages, hfree, fun g hg => (hagree g ?_).trans (hbyte g hg)⟩
      · rw [Jos.kernelStores, bind_ret _ hstore, hrun]
      · rwa [Phys.Structural, Phys.target_congr hbyte]

/-- A directory entry of the user half never refuses what the entry below it allows. -/
theorem userAccess_of_granted (h : p.Inv L dirs none) (hd : dirs e = some d) (hva : va < utop)
    (granted : p.PageGranted d (perm ||| pteP ||| pteU) (rounddown va)) :
    p.userAccess d va (decide (perm &&& pteW ≠ 0)) := by
  rw [userAccess_iff_of_granted granted]
  obtain ⟨-, hp, -, -⟩ := granted
  rw [pdx_rounddown] at hp
  have hi := (pdx_lt_iff va).mpr hva
  have hpde : p.pdeAt dirs e (pdx va) = p.word d (pdx va) := Phys.pdeAt_of_dir hd hi
  have huser := h.tables.userPde e (pdx va) (by
    rw [Phys.target, hpde, entryFrame, if_pos hp]
    simp)
  rw [hpde] at huser
  exact ⟨huser.1, fun _ => huser.2⟩

end Phys.Inv

theorem utrapframeAddr_le (esp : Word) : (utrapframeAddr esp).toNat + 52 ≤ utop.toNat := by
  have hu : utop.toNat = 4005560320 := by decide
  rw [utrapframeAddr]
  split
  · rename_i hesp
    obtain ⟨hlow, hhigh⟩ := hesp
    have hlow' : (uxstacktop - 4096).toNat ≤ esp.toNat := BitVec.le_def.mp hlow
    have hhigh' : esp.toNat < uxstacktop.toNat := BitVec.lt_def.mp hhigh
    rw [show (uxstacktop - 4096).toNat = 4005556224 by decide] at hlow'
    rw [show uxstacktop.toNat = 4005560320 by decide] at hhigh'
    rw [BitVec.toNat_sub_of_le, show (utrapframeSize + 4).toNat = 56 by decide]
    · omega
    · rw [BitVec.le_def, show (utrapframeSize + 4).toNat = 56 by decide]
      omega
  · decide

@[simp] theorem utrapframe_length (tf : Trapframe) (faultVa : Word) :
    (utrapframe tf faultVa).length = 52 := by
  simp [utrapframe, wordBytes]

namespace MemInv

/-- The fault record that passes `user_mem_assert` can be stored. -/
theorem utrapframe_access (h : MemInv L k) (hd : k.dirs e = some d) {esp : Word}
    (hcheck : userMemCheck d (utrapframeAddr esp) utrapframeSize (pteU ||| pteW ||| pteP ||| pteU)
      k.phys = .ret none k.phys) {i : Nat} (hi : i < 52) :
    k.phys.userAccess d (utrapframeAddr esp + BitVec.ofNat 32 i) true := by
  have hle := utrapframeAddr_le esp
  have hu : utop.toNat = 4005560320 := by decide
  have hsize : utrapframeSize.toNat = 52 := by decide
  have hnat : (utrapframeAddr esp + BitVec.ofNat 32 i).toNat = (utrapframeAddr esp).toNat + i := by
    rw [BitVec.toNat_add, BitVec.toNat_ofNat]
    omega
  have hfit : (utrapframeAddr esp).toNat + utrapframeSize.toNat ≤ 4294963200 := by omega
  have hge : utrapframeAddr esp ≤ utrapframeAddr esp + BitVec.ofNat 32 i := by
    rw [BitVec.le_def]
    omega
  obtain ⟨haligned, hlow, hhigh⟩ := rounddown_mem_range hfit hge (by omega)
  have hgranted := (userMemCheck_none_iff _ _ _ _ _).mp ⟨_, hcheck⟩ _ haligned hlow hhigh
  have hacc := h.phys.userAccess_of_granted hd (by rw [BitVec.lt_def]; omega) hgranted
  rwa [show decide ((pteU ||| pteW ||| pteP ||| pteU) &&& pteW ≠ 0) = true by decide] at hacc

theorem pageFaultHandler (h : MemInv L k) (own : k.curenv c = some cur)
    (used : k.status cur ≠ .free) (cr3 : k.dirs cur = some (k.cpus c).cr3)
    (ring : tf.cs &&& 3 = 3) {faultVa : Word} {E : Panic → Prop} :
    wp (pageFaultHandler c tf faultVa) (fun _ _ => False) (fun _ k' => MemInv L k') E k := by
  rw [Jos.pageFaultHandler, wp_bind, wp_get, if_neg (by rw [ring]; decide), own]
  simp only [wp_ite]
  refine ⟨fun _ => ?_, fun _ => wp_imp (h.envDestroy used) fun _ _ hq => absurd own hq.2⟩
  rw [wp_bind]
  apply wp_imp (h.userMemAssert own used)
  rintro _ k₁ ⟨rfl, hcheck⟩
  rw [wp_bind, wp_get, wp_bind]
  have haccess : ∀ i < (utrapframe tf faultVa).length,
      k₁.phys.userAccess (k₁.cpus c).cr3 (utrapframeAddr tf.esp + BitVec.ofNat 32 i) true :=
    fun i hi => h.utrapframe_access cr3 (hcheck _ cr3) (by simpa using hi)
  obtain ⟨q, hrun, hq, -⟩ := h.phys.kernelStores cr3 haccess
  rw [wp_ret (pmap_ret hrun), wp_bind, wp_modify]
  refine (h.of_phys hq).setTf.envRun ?_
  rw [Kernel.setTf_status]
  exact used

end MemInv

/-! ### System calls and traps -/

/-- The arguments of a system call by `cur` do not make it leave memory: not the source address of
a message, which is looked up even where no page is sent, and not the string of `sys_cputs`, of which
the kernel reads one byte more than it checks. -/
structure Calm (k : Kernel) (cur : EnvIdx) (tf : Trapframe) : Prop where
  lookup : ∀ dst d, tf.Calls .ipcTrySend → k.envid2env cur tf.regs.edx false = some dst →
    (k.envs dst).ipcRecving = true → utop ≤ tf.regs.ebx → k.dirs cur = some d →
    k.phys.LookupExists d tf.regs.ebx
  string : ∀ d, tf.Calls .cputs → k.dirs cur = some d → tf.regs.edx ≠ 0 →
    userMemCheck d tf.regs.edx tf.regs.ecx (pteU ||| pteU) k.phys = .ret none k.phys →
    k.phys.StringEnds d tf.regs.edx tf.regs.ecx

namespace MemInv

theorem sysCputs (h : MemInv L k) (own : k.curenv c = some cur) (used : k.status cur ≠ .free)
    (cr3 : k.dirs cur = some (k.cpus c).cr3) {s len : Word} {E : Panic → Prop}
    (calm : (∀ d, k.dirs cur = some d → s ≠ 0 →
      userMemCheck d s len (pteU ||| pteU) k.phys = .ret none k.phys →
      k.phys.StringEnds d s len) ∨ ∀ why, E why) :
    wp (sysCputs c cur s len) (fun _ k' => MemInv L k') (fun _ k' => MemInv L k') E k := by
  rw [Jos.sysCputs, wp_bind]
  apply wp_imp (h.userMemAssert own used)
  rintro _ k₁ ⟨rfl, hcheck⟩
  rw [wp_bind, wp_get, wp_bind, wp_when]
  refine ⟨fun hs => ?_, fun _ => (wp_pure _).mpr h⟩
  rw [pmap, wp_zoom]
  refine wp_imp (readString_spec (calm.imp_left fun calm =>
    (calm _ cr3 hs (hcheck _ cr3)).mapped (hcheck _ cr3))) ?_
  rintro _ q rfl
  exact (wp_pure _).mpr h

theorem sysEnvDestroy (h : MemInv L k) (used : k.status cur ≠ .free) {envid : Word}
    {E : Panic → Prop} :
    wp (sysEnvDestroy c cur envid) (fun _ k' => MemInv L k') (fun _ k' => MemInv L k') E k := by
  rw [Jos.sysEnvDestroy, envid2env, wp_bind, wp_bind, wp_get, wp_pure]
  cases target : k.envid2env cur envid true with
  | none => exact (wp_pure _).mpr h
  | some e =>
      simp only [wp_bind]
      exact wp_imp (h.envDestroy (live_of_target used target)) fun _ _ hq => (wp_pure _).mpr hq.1

theorem sysEnvSetStatus (h : MemInv L k) (used : k.status cur ≠ .free) {envid status : Word}
    {X : Unit → Kernel → Prop} {E : Panic → Prop} :
    wp (sysEnvSetStatus cur envid status) (fun _ k' => MemInv L k') X E k := by
  rw [Jos.sysEnvSetStatus]
  cases arg : statusArg status with
  | none => exact (wp_pure _).mpr h
  | some st =>
      simp only [envid2env, wp_bind, wp_get, wp_pure]
      cases target : k.envid2env cur envid true with
      | none => exact (wp_pure _).mpr h
      | some e =>
          simp only [wp_bind, wp_modify, wp_pure]
          exact h.setEnv (live_of_target used target) rfl (statusArg_ne_free arg)

theorem sysEnvSetPgfaultUpcall (h : MemInv L k) (used : k.status cur ≠ .free) {envid func : Word}
    {X : Unit → Kernel → Prop} {E : Panic → Prop} :
    wp (sysEnvSetPgfaultUpcall cur envid func) (fun _ k' => MemInv L k') X E k := by
  simp only [Jos.sysEnvSetPgfaultUpcall, envid2env, wp_bind, wp_get, wp_pure]
  cases target : k.envid2env cur envid true with
  | none => exact (wp_pure _).mpr h
  | some e =>
      have hlive := live_of_target used target
      simp only [wp_bind, wp_modify, wp_pure]
      exact h.setEnv hlive rfl hlive

theorem sysIpcRecv (h : MemInv L k) (used : k.status cur ≠ .free) {dstva : Word}
    {E : Panic → Prop} :
    wp (sysIpcRecv c cur dstva) (fun _ k' => MemInv L k') (fun _ k' => MemInv L k') E k := by
  rw [Jos.sysIpcRecv, wp_ite, wp_pure]
  refine ⟨fun _ => h, fun _ => ?_⟩
  rw [wp_bind, wp_modify]
  have hwait : MemInv L (k.waiting cur dstva) := h.setEnv used rfl (by simp)
  exact hwait.schedYield

/-- A total specification that never leaves. -/
theorem wp_weaken {m : KM Word} {Q : Word → Kernel → Prop} {E : Panic → Prop}
    (h : wp m Q (fun _ _ => False) (fun _ => False) k) (hQ : ∀ r k', Q r k' → MemInv L k') :
    wp m (fun _ k' => MemInv L k') (fun _ k' => MemInv L k') E k :=
  wp_mono h hQ (fun _ _ hf => hf.elim) (fun _ hf => hf.elim)

theorem syscall (h : MemInv L k) (slots : k.SlotsFree) (own : k.curenv c = some cur)
    (used : k.status cur ≠ .free) (cr3 : k.dirs cur = some (k.cpus c).cr3)
    (trapno : tf.trapno = tSyscall) (safe : CallSafe k cur tf) {input : Word} {E : Panic → Prop}
    (calm : Calm k cur tf ∨ ∀ why, E why) :
    wp (syscall c cur input tf.regs.eax tf.regs.edx tf.regs.ecx tf.regs.ebx tf.regs.edi
      tf.regs.esi) (fun _ k' => MemInv L k') (fun _ k' => MemInv L k') E k := by
  rw [Jos.syscall]
  split <;> rename_i number
  · exact h.sysCputs own used cr3 (calm.imp_left fun hc d hd => hc.string d ⟨trapno, number⟩ hd)
  · exact (wp_pure _).mpr h
  · rw [sysGetenvid, wp_bind, wp_get]
    exact (wp_pure _).mpr h
  · exact h.sysEnvDestroy used
  · exact h.schedYield
  · exact h.sysExofork_spec slots used
  · exact h.sysEnvSetStatus used
  · exact wp_weaken (h.sysPageAlloc_spec used) fun _ _ hq => hq.1.memInv h
  · refine wp_weaken (h.sysPageMap_spec used fun src dst hs hd hva hva' hperm => ?_)
      fun _ _ hq => hq.1.memInv h
    exact safe.map src dst ⟨trapno, number⟩ hs hd hva hva' hperm
  · refine wp_weaken (h.sysPageUnmap_spec used fun e he hva => ?_) fun _ _ hq => hq.1.memInv h
    exact safe.unmap e ⟨trapno, number⟩ he hva
  · exact h.sysEnvSetPgfaultUpcall used
  · refine wp_mono (h.sysIpcTrySend_spec used (E := E) (fun dst hd hr hva hperm => ?_) ?_)
      (fun _ _ hq => hq.1) (fun _ _ hf => hf.elim) (fun _ he => he)
    · exact safe.send dst ⟨trapno, number⟩ hd hr hva hperm
    · exact calm.imp_left fun hc dst d => hc.lookup dst d ⟨trapno, number⟩
  · exact h.sysIpcRecv used
  · exact (wp_pure _).mpr h

/-- A trap of `cur`, after its registers are saved. -/
theorem trapDispatch (h : MemInv L k) (slots : k.SlotsFree) (own : k.curenv c = some cur)
    (used : k.status cur ≠ .free) (cr3 : k.dirs cur = some (k.cpus c).cr3)
    (ring : tf.cs &&& 3 = 3) (safe : CallSafe k cur tf) {cr2 input : Word} :
    wp (do Jos.trapDispatch c tf cr2 input; Jos.trapReturn c) (fun _ _ => False)
      (fun _ k' => MemInv L k') (fun _ => True) k := by
  rw [wp_bind, Jos.trapDispatch, wp_bind, wp_get, own]
  simp only [wp_ite]
  refine ⟨fun _ => wp_imp (h.pageFaultHandler own used cr3 ring) fun _ _ hf => hf.elim,
    fun _ => ⟨fun _ => h.monitor, fun _ => ⟨fun trapno => ?_, fun _ => ⟨fun _ => ?_,
    fun _ => ⟨fun _ => h.schedYield, fun _ => ⟨fun _ => ?_, fun _ => ?_⟩⟩⟩⟩⟩⟩
  · rw [wp_bind]
    apply wp_imp (h.syscall slots own used cr3 trapno safe (.inr fun _ => trivial))
    intro r k₁ h₁
    rw [wp_modify]
    exact h₁.setTf.trapReturn
  · rw [wp_pure]
    exact h.trapReturn
  · rw [wp_panic]
    trivial
  · exact wp_imp (h.envDestroy used) fun _ _ hq => absurd own hq.2

end MemInv

theorem Kernel.pageAt_setTf (e' : EnvIdx) : (k.setTf e tf).pageAt e' va = k.pageAt e' va := by
  rw [Kernel.pageAt, Kernel.dirs_setTf]
  rfl

theorem Kernel.entryAt_setTf (e' : EnvIdx) :
    (k.setTf e tf).entryAt e' va = k.entryAt e' va := by
  rw [Kernel.entryAt, Kernel.dirs_setTf]
  rfl

theorem CallSafe.setTf (h : CallSafe k cur tf) : CallSafe (k.setTf cur tf) cur tf := by
  have hrecv : ∀ e, ((k.setTf cur tf).envs e).ipcRecving = (k.envs e).ipcRecving :=
    Kernel.setEnv_field (f := Env.ipcRecving) (by rfl)
  have hdst : ∀ e, ((k.setTf cur tf).envs e).ipcDstva = (k.envs e).ipcDstva :=
    Kernel.setEnv_field (f := Env.ipcDstva) (by rfl)
  have hpage : ∀ e va, (k.setTf cur tf).pageAt e va = k.pageAt e va :=
    fun e _ => Kernel.pageAt_setTf e
  have hentry : ∀ e va, (k.setTf cur tf).entryAt e va = k.entryAt e va :=
    fun e _ => Kernel.entryAt_setTf e
  have hhole : ∀ e va, (k.setTf cur tf).HoleAt e va ↔ k.HoleAt e va := by
    intro e va
    rw [Kernel.HoleAt, hpage, Kernel.dirs_setTf]
    rfl
  have hshare : ∀ src srcva dst dstva perm,
      (k.setTf cur tf).Shareable src srcva dst dstva perm ↔
        k.Shareable src srcva dst dstva perm := by
    intro src srcva dst dstva perm
    simp only [Kernel.Shareable, hhole, hpage, hentry]
    rfl
  constructor
  · simp only [Kernel.envid2env_setTf, hhole]
    exact h.unmap
  · simp only [Kernel.envid2env_setTf, hshare]
    exact h.map
  · simp only [Kernel.envid2env_setTf, hshare, hrecv, hdst]
    exact h.send

/-- The kernel entry with registers `tf` makes no unsafe system call. -/
def MemSafe (k : Kernel) (c : Nat) (tf : Trapframe) : Prop :=
  ∀ cur, k.Enters c cur → CallSafe k cur tf

namespace MemInv

variable {ok : EnvStatus → Prop} {ev : Event}

theorem trap (h : MemInv L k) (slots : k.SlotsFree) (own : k.curenv c = some cur)
    (used : k.status cur ≠ .free) (cr3 : k.dirs cur = some (k.cpus c).cr3)
    (ring : tf.cs &&& 3 = 3) (safe : MemSafe k c tf) {cr2 input : Word} :
    wp (trap c tf cr2 input) (fun _ _ => False) (fun _ k' => MemInv L k') (fun _ => True) k := by
  rw [Jos.trap, when_pos _ ring, trapEnter, wp_bind, wp_bind, wp_get, own]
  simp only [wp_ite]
  refine ⟨fun zombie => ?_, fun alive => ?_⟩
  · rw [wp_bind]
    refine wp_mono (h.envFree used) ?_ (fun _ _ hf => hf.elim) (fun _ hf => hf.elim)
    intro _ k₁ h₁
    rw [wp_bind, wp_modify]
    exact (h₁.setCpu _).schedYield
  · rw [wp_modify]
    have own' : (k.setTf cur tf).curenv c = some cur := own
    refine h.setTf.trapDispatch slots.setTf own' ?_ ?_ ring (safe cur ⟨own, alive⟩).setTf
    · rwa [Kernel.setTf_status]
    · rw [Kernel.dirs_setTf]
      exact cr3

theorem trap_idle (h : MemInv L k) (idle : k.curenv c = none) (ring : tf.cs = gdKt)
    {cr2 input : Word} :
    wp (Jos.trap c tf cr2 input) (fun _ _ => False) (fun _ k' => MemInv L k')
      (fun _ => True) k := by
  have hcs : tf.cs &&& 3 = 0 := by
    rw [ring]
    decide
  rw [Jos.trap, when_neg _ (by rw [hcs]; decide), wp_bind, wp_pure, wp_bind, Jos.trapDispatch,
    wp_bind, wp_get, idle]
  simp only [wp_ite, wp_panic, implies_true, true_and, wp_pure]
  refine ⟨fun _ => ?_, fun _ => ⟨fun _ => h.monitor, fun _ _ => ⟨fun _ => h.trapReturn,
    fun _ => ⟨fun _ => h.schedYield, trivial⟩⟩⟩⟩
  rw [Jos.pageFaultHandler, wp_bind, wp_get, if_pos hcs, wp_panic]
  trivial

/-- Memory stays well-formed from step to step. -/
theorem step (h : MemInv L k) (hex : Exclusive ok none k) (hok : Executable ok)
    (safe : MemSafe k ev.cpu ev.frame) (step : Step k ev k') : MemInv L k' := by
  cases step with
  | start mode lock run =>
      exact (wp_exit_eq run).mp (h.schedYield (Q := fun _ _ => False) (E := fun _ => True))
  | trap mode lock ring run =>
      obtain ⟨cur, own, hstatus, hcr3⟩ := hex.user _ (by simp) mode
      have used : k.status cur ≠ .free := fun hf => hok.not_free (hf ▸ hstatus)
      exact (wp_exit_eq run).mp (h.trap hex.slots own used hcr3 ring safe)
  | wake mode lock ring run =>
      have idle := hex.parked _ (by simp) (by rw [mode]; decide) (by rw [mode]; decide)
      exact (wp_exit_eq run).mp (h.trap_idle idle ring)
  | store mode walk user write =>
      obtain ⟨cur, -, -, hcr3⟩ := hex.user _ (by simp) mode
      exact h.of_phys (h.phys.setByte (h.phys.user_write hcr3 walk user write).2 _ _)

/-- The invariants hold in every state of a run of safe entries. -/
theorem run {G : Kernel → Event → Prop} (h : MemInv L k) (hex : Exclusive ok none k)
    (hok : Executable ok) (safe : ∀ k ev, G k ev → SafeEntry ok k ev.cpu ev.frame)
    (memSafe : ∀ k ev, G k ev → MemSafe k ev.cpu ev.frame) (run : Run G k k') :
    MemInv L k' ∧ Exclusive ok none k' := by
  induction run with
  | refl => exact ⟨h, hex⟩
  | tail _ last ih =>
      obtain ⟨ev, hg, hstep⟩ := last
      exact ⟨ih.1.step ih.2 hok (memSafe _ ev hg) hstep, ih.2.step hok (safe _ ev hg) hstep⟩

end MemInv

end Jos
