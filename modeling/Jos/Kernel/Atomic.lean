import Jos.Boot.Init
import Jos.Kernel.Entry
import Jos.Kernel.EnvId
import Jos.Pmap.Footprint

/-!
# Failed system calls change nothing

`Fails m k` says that `m` leaves the state `k` as it is whenever it returns a negative
number. All tests of a system call come before its first write, and the only
failure that comes later is a missing page: `pgdir_walk` and `env_setup_vm` find
that out before they write anything, too. No invariant is needed for this.
-/

namespace Jos

open Prog

variable {k : Kernel} {c : Nat} {cur e : EnvIdx}

/-- A negative result means that nothing has changed. -/
def Fails (m : KM Word) (k : Kernel) : Prop :=
  wp m (fun r k' => r.slt 0 = true → k' = k) (fun _ _ => True) (fun _ => True) k

/-- Code that only looks. -/
def Reads {α : Type} (m : KM α) (k : Kernel) : Prop :=
  wp m (fun _ k' => k' = k) (fun _ _ => False) (fun _ => True) k

theorem Reads.pure {α : Type} (a : α) : Reads (pure a) k := by
  rw [Reads, wp_pure]

theorem Reads.bind {α β : Type} {m : KM α} {f : α → KM β} (h : Reads m k)
    (rest : ∀ a, Reads (f a) k) : Reads (m >>= f) k := by
  rw [Reads, wp_bind]
  apply wp_imp h
  rintro a _ rfl
  exact rest a

theorem Reads.get {α : Type} {f : Kernel → KM α} (h : Reads (f k) k) : Reads (Prog.get >>= f) k := by
  rw [Reads, wp_bind, wp_get]
  exact h

theorem Reads.envid2env {envid : Word} {checkperm : Bool} :
    Reads (envid2env cur envid checkperm) k :=
  .get (.pure _)

theorem Reads.pgdirOf : Reads (pgdirOf e) k := by
  rw [Reads, Jos.pgdirOf, wp_bind, wp_get]
  split
  · rw [wp_panic]
    trivial
  · rw [wp_pure]

/-- Code of `pmap.c` that only looks. -/
theorem Reads.pmap {α : Type} {m : Pmap α}
    (h : wp m (fun _ q => q = k.phys) (fun _ _ => True) (fun _ => True) k.phys) :
    Reads (pmap m) k := by
  rw [Reads, Jos.pmap, wp_zoom]
  refine wp_mono h ?_ (fun r => r.elim) fun _ he => he
  rintro _ _ rfl
  rfl

theorem Reads.lookupIn {va : Word} : Reads (lookupIn e va) k := by
  refine .bind .pgdirOf fun d => .bind (.pmap ?_) fun found => ?_
  · exact wp_imp (pageLookup_reads k.phys d va) fun _ _ h => h.1
  · cases found with
    | none => exact .pure _
    | some found =>
        refine .bind (.pmap ?_) fun _ => .pure _
        rw [PtePtr.load, wp_bind, wp_get, wp_pure]

namespace Fails

theorem pure (r : Word) : Fails (pure r) k := by
  rw [Fails, wp_pure]
  exact fun _ => rfl

theorem read {α : Type} {m : KM α} {f : α → KM Word} (h : Reads m k)
    (rest : ∀ a, Fails (f a) k) : Fails (m >>= f) k := by
  rw [Fails, wp_bind]
  refine wp_mono h ?_ (fun _ _ _ => trivial) fun _ _ => trivial
  rintro a _ rfl
  exact rest a

theorem get {f : Kernel → KM Word} (h : Fails (f k) k) : Fails (Prog.get >>= f) k := by
  rw [Fails, wp_bind, wp_get]
  exact h

theorem ite {p : Prop} [Decidable p] {m n : KM Word} (hm : p → Fails m k)
    (hn : ¬ p → Fails n k) : Fails (if p then m else n) k := by
  rw [Fails, wp_ite]
  exact ⟨hm, hn⟩

/-- Code that does not return a negative number may do anything. -/
theorem never {m : KM Word}
    (h : wp m (fun r _ => r.slt 0 = false) (fun _ _ => True) (fun _ => True) k) : Fails m k := by
  refine wp_imp h fun r _ hr hneg => ?_
  rw [hr] at hneg
  exact absurd hneg (by decide)

end Fails

/-- Anything that ends with `return 0`. -/
theorem wp_zero {σ ρ ε α : Type} (m : Prog σ ρ ε α) {s : σ} :
    wp (m >>= fun _ => (pure 0 : Prog σ ρ ε Word)) (fun r _ => r.slt 0 = false) (fun _ _ => True)
      (fun _ => True) s := by
  rw [wp_bind]
  refine wp_imp (wp_true m) fun _ _ _ => ?_
  rw [wp_pure]
  decide

/-- `page_alloc` takes the first page of the list, if there is one. -/
theorem pageAlloc_of_head {p : Phys} {f : Nat} (head : p.pageFreeList = some f) :
    wp (pageAlloc true) (fun o _ => o = some f) (fun _ _ => True) (fun _ => True) p := by
  rw [pageAlloc, wp_bind, wp_get, head]
  simp only [wp_bind, wp_modify]
  refine wp_imp (wp_true _) fun _ _ _ => ?_
  rw [wp_pure]

/-- `pgdir_walk` returns null before it has written anything, and only without memory for
the page table that is missing. -/
theorem pgdirWalk_fails (p : Phys) (pgdir : Nat) (va : Word) :
    wp (pgdirWalk pgdir va true)
      (fun found q => found = none →
        q = p ∧ p.word pgdir (pdx va) &&& pteP = 0 ∧ p.pageFreeList = none)
      (fun _ _ => True) (fun _ => True) p := by
  rw [pgdirWalk, wp_bind, wp_get, wp_ite, wp_bind, wp_ite]
  refine ⟨fun _ => ?_, fun habsent => ⟨fun _ => ?_, fun h => absurd rfl h⟩⟩
  · refine wp_imp (wp_true _) fun pt q _ => ?_
    rw [wp_pure]
    intro h
    simp at h
  · rw [wp_bind]
    cases head : p.pageFreeList with
    | none =>
        rw [wp_ret (pageAlloc_none head true), wp_pure]
        exact fun _ => ⟨rfl, not_not.mp habsent, rfl⟩
    | some f =>
        apply wp_imp (pageAlloc_of_head head)
        rintro _ q rfl
        dsimp only
        rw [wp_bind]
        refine wp_imp (wp_true _) fun pt q _ => ?_
        rw [wp_bind]
        refine wp_imp (wp_true _) fun _ q _ => ?_
        rw [wp_bind, wp_modify, wp_pure]
        intro h
        simp at h

/-- `page_insert` fails before it has written anything, too. -/
theorem pageInsert_fails (p : Phys) (pgdir pp : Nat) (va perm : Word) :
    wp (pageInsert pgdir pp va perm)
      (fun r q => r.slt 0 = true →
        q = p ∧ p.word pgdir (pdx va) &&& pteP = 0 ∧ p.pageFreeList = none)
      (fun _ _ => True) (fun _ => True) p := by
  rw [pageInsert, wp_bind]
  apply wp_imp (pgdirWalk_fails p pgdir va)
  intro found q h
  cases found with
  | none =>
      rw [wp_pure]
      exact fun _ => h rfl
  | some pte =>
      -- from here on the result is 0
      have hzero : ∀ r : Word, r.slt 0 = false → r.slt 0 = true → ∀ q' : Phys,
          q' = p ∧ p.word pgdir (pdx va) &&& pteP = 0 ∧ p.pageFreeList = none := by
        intro r hr hneg
        rw [hr] at hneg
        exact absurd hneg (by decide)
      dsimp only
      rw [wp_bind]
      refine wp_imp (wp_true _) fun w q₁ _ => ?_
      rw [wp_ite, wp_bind, wp_bind]
      refine ⟨fun _ => ?_, fun _ => ?_⟩
      · refine wp_imp (wp_true _) fun _ q₂ _ => ?_
        rw [wp_pure]
        exact fun hneg => hzero 0 (by decide) hneg q₂
      · refine wp_imp (wp_true _) fun _ q₂ _ => ?_
        rw [wp_bind]
        refine wp_imp (wp_true _) fun _ q₃ _ => ?_
        refine wp_imp (wp_zero _) fun r q₄ hr hneg => hzero r hr hneg q₄

theorem insertInto_fails {pp : Nat} {va perm : Word} : Fails (insertInto e pp va perm) k := by
  refine .read .pgdirOf fun d => ?_
  rw [Fails, pmap, wp_zoom]
  refine wp_mono (pageInsert_fails k.phys d pp va perm) ?_ (fun r => r.elim) fun _ he => he
  intro r q h hneg
  rw [(h hneg).1]

/-- The result of `page_insert` decides; what comes after it does not fail. -/
theorem Fails.insert {pp : Nat} {va perm : Word} {m : KM Word}
    (rest : ∀ k', wp m (fun r _ => r.slt 0 = false) (fun _ _ => True) (fun _ => True) k') :
    Fails (insertInto e pp va perm >>= fun r => if r.slt 0 then Pure.pure (-eNoMem) else m) k := by
  rw [Fails, wp_bind]
  apply wp_imp insertInto_fails
  intro r k' h
  rw [wp_ite, wp_pure]
  refine ⟨fun hneg _ => h hneg, fun _ => ?_⟩
  refine wp_imp (rest k') fun r _ hr hneg => ?_
  rw [hr] at hneg
  exact absurd hneg (by decide)

/-! ### The system calls -/

theorem sysPageMap_fails {srcenvid srcva dstenvid dstva perm : Word} :
    Fails (sysPageMap cur srcenvid srcva dstenvid dstva perm) k := by
  refine .read .envid2env fun src => ?_
  cases src with
  | none => exact .pure _
  | some src =>
      refine .read .envid2env fun dst => ?_
      cases dst with
      | none => exact .pure _
      | some dst =>
          refine .ite (fun _ => .pure _) fun _ => .read .lookupIn fun found => ?_
          cases found with
          | none => exact .pure _
          | some found =>
              refine .ite (fun _ => .pure _) fun _ => .ite (fun _ => .pure _) fun _ => ?_
              refine .insert fun k' => ?_
              rw [wp_pure]
              decide

theorem sysPageUnmap_fails {envid va : Word} : Fails (sysPageUnmap cur envid va) k := by
  refine .read .envid2env fun target => ?_
  cases target with
  | none => exact .pure _
  | some e =>
      refine .ite (fun _ => .pure _) fun _ => .read .pgdirOf fun d => ?_
      exact .never (wp_zero _)

theorem sysEnvDestroy_fails {envid : Word} : Fails (sysEnvDestroy c cur envid) k := by
  refine .read .envid2env fun target => ?_
  cases target with
  | none => exact .pure _
  | some e => exact .never (wp_zero _)

theorem sysEnvSetStatus_fails {envid status : Word} :
    Fails (sysEnvSetStatus cur envid status) k := by
  rw [sysEnvSetStatus]
  cases statusArg status with
  | none => exact .pure _
  | some st =>
      refine .read .envid2env fun target => ?_
      cases target with
      | none => exact .pure _
      | some e => exact .never (wp_zero _)

theorem sysEnvSetPgfaultUpcall_fails {envid func : Word} :
    Fails (sysEnvSetPgfaultUpcall cur envid func) k := by
  refine .read .envid2env fun target => ?_
  cases target with
  | none => exact .pure _
  | some e => exact .never (wp_zero _)

theorem envSetupVm_fails : Fails (envSetupVm e) k := by
  rw [envSetupVm]
  cases head : k.phys.pageFreeList with
  | none =>
      rw [Fails, wp_bind, wp_ret (pmap_ret (pageAlloc_none head true)), wp_pure]
      exact fun _ => rfl
  | some f =>
      refine .never ?_
      have hsome : wp (pmap (pageAlloc true)) (fun o _ => o = some f) (fun _ _ => True)
          (fun _ => True) k := by
        rw [pmap, wp_zoom]
        exact wp_mono (pageAlloc_of_head head) (fun _ _ h => h) (fun r => r.elim) fun _ he => he
      rw [wp_bind]
      apply wp_imp hsome
      rintro _ k₁ rfl
      dsimp only
      rw [wp_bind]
      refine wp_imp (wp_true _) fun d k₂ _ => ?_
      rw [wp_bind, wp_modify, wp_bind, wp_get, wp_bind]
      refine wp_imp (wp_true _) fun _ k₃ _ => ?_
      rw [wp_bind]
      refine wp_imp (wp_true _) fun _ k₄ _ => ?_
      exact wp_zero _

theorem envAlloc_fails (parentId : Word) :
    wp (envAlloc parentId) (fun r k' => (∀ w, r = .error w → k' = k) ∧
      ∀ e, r = .ok e → ∃ old, (k'.envs e).id = nextEnvId old e) (fun _ _ => True) (fun _ => True)
      k := by
  rw [envAlloc, wp_bind, wp_get]
  cases k.envFreeList with
  | none =>
      rw [wp_pure]
      exact ⟨fun _ _ => rfl, fun e h => by simp at h⟩
  | some e =>
      dsimp only
      rw [wp_bind]
      apply wp_imp envSetupVm_fails
      intro r k₁ h
      rw [wp_ite, wp_pure]
      refine ⟨fun hneg => ⟨fun _ _ => h hneg, fun e h => by simp at h⟩, fun _ => ?_⟩
      simp only [wp_bind, wp_modify, wp_pure]
      refine ⟨fun w hw => by simp at hw, fun e' he' => ?_⟩
      obtain rfl := Except.ok.inj he'
      exact ⟨(k₁.envs e).id, by simp⟩

/-- An id is not negative, and `env_alloc` fails before it has written anything. -/
theorem sysExofork_fails : Fails (sysExofork cur) k := by
  refine .get ?_
  rw [Fails, wp_bind]
  apply wp_imp (envAlloc_fails _)
  rintro r k₁ ⟨herror, hok⟩
  cases r with
  | error w =>
      rw [wp_pure]
      exact fun _ => herror w rfl
  | ok e =>
      obtain ⟨old, hid⟩ := hok e rfl
      simp only [wp_bind, wp_modify, wp_get, wp_pure, Kernel.setTf, Kernel.setStatus,
        Kernel.setEnv_envs_self, hid, nextEnvId_not_neg]
      exact fun hneg => absurd hneg (by decide)

theorem sysIpcTrySend_fails {envid value srcva perm : Word} :
    Fails (sysIpcTrySend cur envid value srcva perm) k := by
  refine .read (.get (.pure _)) fun srcid => .read .envid2env fun target => ?_
  cases target with
  | none => exact .pure _
  | some dst =>
      refine .get (.ite (fun _ => .pure _) fun _ => .ite (fun _ => .pure _) fun _ => ?_)
      refine .read .lookupIn fun found => .ite (fun _ => ?_) fun _ => .never (wp_zero _)
      cases found with
      | none => exact .pure _
      | some found =>
          refine .ite (fun _ => .pure _) fun _ => .insert fun k' => ?_
          rw [wp_bind, wp_modify]
          exact wp_zero _

theorem sysIpcRecv_fails {dstva : Word} : Fails (sysIpcRecv c cur dstva) k := by
  refine .ite (fun _ => .pure _) fun _ => .never ?_
  rw [wp_bind, wp_modify]
  exact wp_mono schedYield_dispatch (fun _ _ h => h) (fun _ _ _ => trivial) fun _ he => he

/-- The calls that are all or nothing. -/
def SysCall.atomic : SysCall → Bool
  | .pageMap | .pageUnmap | .exofork | .envSetStatus | .envSetPgfaultUpcall | .envDestroy
  | .ipcTrySend | .ipcRecv => true
  | .cputs | .cgetc | .getenvid | .pageAlloc | .yield => false

theorem syscall_fails {call : SysCall} (h : call.atomic = true) (input a1 a2 a3 a4 a5 : Word) :
    Fails (syscall c cur input call.number a1 a2 a3 a4 a5) k := by
  cases call with
  | pageMap => exact sysPageMap_fails
  | pageUnmap => exact sysPageUnmap_fails
  | exofork => exact sysExofork_fails
  | envSetStatus => exact sysEnvSetStatus_fails
  | envSetPgfaultUpcall => exact sysEnvSetPgfaultUpcall_fails
  | envDestroy => exact sysEnvDestroy_fails
  | ipcTrySend => exact sysIpcTrySend_fails
  | ipcRecv => exact sysIpcRecv_fails
  | cputs => simp [SysCall.atomic] at h
  | cgetc => simp [SysCall.atomic] at h
  | getenvid => simp [SysCall.atomic] at h
  | pageAlloc => simp [SysCall.atomic] at h
  | yield => simp [SysCall.atomic] at h

/-- A system call that returns an error leaves the whole kernel state as it was. -/
theorem failed_syscall_unchanged {call : SysCall} (atomic : call.atomic = true) {k' : Kernel}
    {input a1 a2 a3 a4 a5 r : Word}
    (run : syscall c cur input call.number a1 a2 a3 a4 a5 k = .ret r k') (error : r.slt 0 = true) :
    k' = k :=
  (wp_ret run).mp (syscall_fails atomic input a1 a2 a3 a4 a5) error

/-- A kernel without free pages or slots. -/
def Kernel.crowded : Kernel :=
  { phys := .onePage
    kernPgdir := 0
    envs := fun _ => { Env.zero with status := .runnable, pgdir := some 0 }
    envFreeList := none
    cpus := fun _ => ⟨none, .unused, 0⟩ }

/-- There `sys_page_map` finds the page, and no page table for the address where it shall be
mapped. -/
theorem failed_syscall_unchanged_crowded : ∃ k',
    syscall 0 0 0 SysCall.pageMap.number 0 0x800000 0 0xC00000 (pteU ||| pteP) Kernel.crowded =
      .ret (-eNoMem) k' ∧ k' = Kernel.crowded := by
  have run : syscall 0 0 0 SysCall.pageMap.number 0 0x800000 0 0xC00000 (pteU ||| pteP)
      Kernel.crowded = .ret (-eNoMem) Kernel.crowded := rfl
  exact ⟨_, run, failed_syscall_unchanged rfl run (by decide)⟩

/-! ### The exception -/

/-- The free pages, the counts, the contents of the pages in use and the environments
are the same. -/
structure Kernel.SameResources (k k' : Kernel) : Prop where
  free : ∀ f, k'.phys.Listed f ↔ k.phys.Listed f
  ref : k'.phys.ref = k.phys.ref
  tables : ∀ f, ¬ k.phys.Listed f → k'.phys.mem f = k.phys.mem f
  envs : k'.envs = k.envs

/-- The arguments of `sys_page_alloc` are good, `f` is the only free page, and the directory
`d` of the target has no page table for `va`. (It has none either if the free page is the
directory itself, which `page_alloc` clears.) -/
structure LastPage (k : Kernel) (cur : EnvIdx) (envid va perm : Word) (e : EnvIdx) (f d : Nat) :
    Prop where
  target : k.envid2env cur envid true = some e
  address : vaOk va
  permission : permOk perm
  head : k.phys.pageFreeList = some f
  last : k.phys.link f = none
  valid : pgnum (page2pa f) < k.phys.npages
  pgdir : (k.envs e).pgdir = some d
  table : k.phys.word d (pdx va) &&& pteP = 0 ∨ d = pgnum (page2pa f)

/-- The page `f` is allocated for a user. -/
def Phys.userAlloc (p : Phys) (f : Nat) : Phys :=
  { (p.take f).setPage (pgnum (page2pa f)) fun _ => 0 with userPages := f :: p.userPages }

theorem Phys.userAlloc_word (p : Phys) (f d : Nat) (i : Idx) :
    (p.userAlloc f).word d i =
      if d = pgnum (page2pa f) then 0 else p.word d i := by
  by_cases hd : d = pgnum (page2pa f)
  · have hmem : (p.userAlloc f).mem d = fun _ => 0 := by
      rw [hd]
      exact Function.update_self _ _ _
    rw [if_pos hd, Phys.word, hmem]
    exact readWord_zero i
  · rw [if_neg hd]
    exact p.word_congr ((p.take f).mem_setPage_of_ne _ hd)

/-- `page_alloc` returns the first page, if it is a page of memory. -/
theorem userPageAlloc_run {p : Phys} {f : Nat} (head : p.pageFreeList = some f) :
    userPageAlloc true p =
      if pgnum (page2pa f) < p.npages then .ret (some f) (p.userAlloc f) else .panic .kaddr := by
  have halloc : pageAlloc true p =
      if pgnum (page2pa f) < p.npages
      then .ret (some f) ((p.take f).setPage (pgnum (page2pa f)) fun _ => 0)
      else .panic .kaddr := by
    rw [pageAlloc, get_bind, head]
    simp only [modify_bind]
    rw [when_pos _ rfl]
    by_cases hf : pgnum (page2pa f) < p.npages
    · have hk : kaddr (page2pa f) (p.take f) = .ret (pgnum (page2pa f)) (p.take f) := kaddr_run hf
      have hclear : clearPage f (p.take f) =
          .ret () ((p.take f).setPage (pgnum (page2pa f)) fun _ => 0) := by
        rw [clearPage, page2kva, bind_ret _ hk]
        rfl
      rw [if_pos hf]
      exact bind_ret _ hclear
    · have hk : kaddr (page2pa f) (p.take f) = .panic .kaddr := kaddr_panic (not_lt.mp hf)
      rw [if_neg hf]
      exact bind_panic _ (bind_panic _ hk)
  rw [userPageAlloc]
  by_cases hf : pgnum (page2pa f) < p.npages
  · rw [if_pos hf] at halloc ⊢
    exact (bind_ret _ halloc).trans rfl
  · rw [if_neg hf] at halloc ⊢
    exact bind_panic _ halloc

/-- With the last page, `sys_page_alloc` fails and keeps it. -/
theorem LastPage.run {envid va perm : Word} {f d : Nat} (h : LastPage k cur envid va perm e f d) :
    sysPageAlloc cur envid va perm k = .ret (-eNoMem) { k with phys := k.phys.userAlloc f } := by
  have halloc := (userPageAlloc_run h.head).trans (if_pos h.valid)
  have habsent : (k.phys.userAlloc f).word d (pdx va) &&& pteP = 0 := by
    rw [Phys.userAlloc_word]
    split
    · simp
    · rename_i hne
      exact h.table.resolve_right hne
  have hinsert : pageInsert d f va perm (k.phys.userAlloc f) =
      .ret (-eNoMem) (k.phys.userAlloc f) := by
    rw [pageInsert, bind_ret _ (pgdirWalk_noMem habsent h.last)]
    rfl
  have hpgdir : pgdirOf e { k with phys := k.phys.userAlloc f } =
      .ret d { k with phys := k.phys.userAlloc f } := by
    rw [pgdirOf, get_bind]
    simp only [h.pgdir]
    rfl
  have htarget : envid2env cur envid true k = .ret (some e) k := by
    rw [envid2env, get_bind, h.target]
    rfl
  rw [sysPageAlloc, bind_ret _ htarget]
  dsimp only
  rw [if_neg (not_not.mpr h.address), if_neg (not_not.mpr h.permission),
    bind_ret _ (pmap_ret halloc)]
  dsimp only
  rw [insertInto, bind_ret _ ((bind_ret _ hpgdir).trans (pmap_ret hinsert)), if_pos (by decide)]
  rfl

/-- Nothing is left on the list then. -/
theorem LastPage.lost {envid va perm : Word} {f d : Nat}
    (h : LastPage k cur envid va perm e f d) :
    ¬ k.SameResources { k with phys := k.phys.userAlloc f } := by
  intro hsame
  have hlisted : k.phys.Listed f := by
    rw [Phys.Listed, h.head]
    exact .here f
  have hstill : Linked (k.phys.userAlloc f).link (k.phys.link f) f := (hsame.free f).mpr hlisted
  rw [h.last] at hstill
  cases hstill

/-- Any other failure of `sys_page_alloc` leaves the state as it was. -/
theorem sysPageAlloc_fails {envid va perm : Word}
    (h : ¬ ∃ e f d, LastPage k cur envid va perm e f d) :
    Fails (sysPageAlloc cur envid va perm) k := by
  rw [Fails, sysPageAlloc, envid2env, wp_bind, wp_bind, wp_get, wp_pure]
  cases target : k.envid2env cur envid true with
  | none =>
      rw [wp_pure]
      exact fun _ => rfl
  | some e =>
      dsimp only
      refine Fails.ite (fun _ => .pure _) fun hva => .ite (fun _ => .pure _) fun hperm => ?_
      rw [not_not] at hva hperm
      cases head : k.phys.pageFreeList with
      | none =>
          have hnone : userPageAlloc true k.phys = .ret none k.phys :=
            (bind_ret _ (pageAlloc_none head true)).trans rfl
          rw [Fails, wp_bind, wp_ret (pmap_ret hnone), wp_pure]
          exact fun _ => rfl
      | some f =>
          have halloc := userPageAlloc_run head
          by_cases hvalid : pgnum (page2pa f) < k.phys.npages
          · rw [if_pos hvalid] at halloc
            rw [Fails, wp_bind, wp_ret (pmap_ret halloc)]
            dsimp only
            rw [wp_bind, insertInto, wp_bind, pgdirOf, wp_bind, wp_get]
            cases pgdir : (k.envs e).pgdir with
            | none =>
                rw [wp_panic]
                trivial
            | some d =>
                rw [wp_pure, pmap, wp_zoom]
                refine wp_mono (pageInsert_fails _ d f va perm) ?_ (fun r => r.elim) fun _ _ => trivial
                intro r q hfail
                rw [wp_ite, wp_pure, wp_pure]
                refine ⟨fun hneg => ?_, fun _ hneg => absurd hneg (by decide)⟩
                obtain ⟨-, habsent, hlast⟩ := hfail hneg
                refine absurd ⟨e, f, d, target, hva, hperm, head, hlast, hvalid, pgdir, ?_⟩ h
                rw [Phys.userAlloc_word] at habsent
                by_cases hd : d = pgnum (page2pa f)
                · exact .inr hd
                · rw [if_neg hd] at habsent
                  exact .inl habsent
          · rw [if_neg hvalid] at halloc
            rw [Fails, wp_bind, pmap, wp_panic_eq (zoom_panic halloc)]
            trivial

/-- A failing `sys_page_alloc` leaks nothing, unless it uses up the last free page for the
mapping and then needs another one for the page table. -/
theorem sys_page_alloc_leaks (k : Kernel) (cur : EnvIdx) (envid va perm : Word) :
    (∀ r k', sysPageAlloc cur envid va perm k = .ret r k' → r.slt 0 = true →
      k.SameResources k') ↔ ¬ ∃ e f d, LastPage k cur envid va perm e f d := by
  constructor
  · rintro hsame ⟨e, f, d, hlast⟩
    exact hlast.lost (hsame _ _ hlast.run (by decide))
  · intro h r k' hrun hneg
    have hk : k' = k := (wp_ret hrun).mp (sysPageAlloc_fails h) hneg
    rw [hk]
    exact ⟨fun _ => Iff.rfl, rfl, fun _ _ => rfl, rfl⟩

/-- A memory with one free page, and an environment whose directory is empty. -/
def Kernel.starved : Kernel :=
  { phys := { Phys.blank 4 with
      pages := fun f => ⟨none, if f = 3 then 0 else 1⟩, pageFreeList := some 3 },
    kernPgdir := 1,
    envs := fun e =>
      if e = 0 then { Env.zero with status := .running, pgdir := some 2, id := 0x1000 }
      else Env.zero,
    envFreeList := none,
    cpus := fun c => if c = 0 then ⟨some 0, .user, 2⟩ else ⟨none, .unused, 0⟩ }

/-- There the page is lost: the call fails, and the list is empty after it. -/
theorem sys_page_alloc_loses_page :
    ∃ r k', sysPageAlloc 0 0 0x800000 (pteU ||| pteP ||| pteW) Kernel.starved = .ret r k' ∧
      r.slt 0 = true ∧ ¬ Kernel.starved.SameResources k' := by
  have hlast : LastPage Kernel.starved 0 0 0x800000 (pteU ||| pteP ||| pteW) 0 3 2 := by
    refine ⟨rfl, by decide, by decide, rfl, rfl, by decide, rfl, .inl ?_⟩
    have hzero : Kernel.starved.phys.word 2 (pdx 0x800000) = 0 := readWord_zero _
    rw [hzero]
    decide
  exact ⟨_, _, hlast.run, by decide, hlast.lost⟩

end Jos
