import Jos.Boot.Layout

/-!
# The state in which the scheduler is called for the first time

`env_init` and `env_create` keep the invariant of the memory manager, whatever the
programs are; no processor runs anything yet.
-/

namespace Jos

open Prog

/-- No processor has an environment, and no environment waits for a message. -/
structure Idle (k : Kernel) : Prop where
  cpus : ∀ c, k.curenv c = none ∧ (k.mode c = .starting ∨ k.mode c = .unused)
  slots : k.SlotsFree
  recving : ∀ e, (k.envs e).ipcRecving = false

section EnvInit

variable {k : Kernel}

/-- What the loop of `env_init` has done after the slots of `l`. -/
theorem freeSlots {k' : Kernel} (l : List EnvIdx) (hl : l.Nodup) (hnone : k.envFreeList = none)
    (hzero : ∀ i, k.envs i = .zero) (run : l.foldr (fun i k => k.freeSlot i) k = k') :
    IsList (fun e => (k'.envs e).link) k'.envFreeList l ∧
      (∀ i, { k'.envs i with link := none } = Env.zero) ∧ k'.phys = k.phys ∧
      k'.kernPgdir = k.kernPgdir ∧ k'.cpus = k.cpus := by
  induction l generalizing k' with
  | nil =>
      rw [List.foldr_nil] at run
      subst run
      refine ⟨?_, fun i => ?_, rfl, rfl, rfl⟩
      · rw [hnone]
        exact .nil
      · rw [hzero]
        rfl
  | cons a l ih =>
      obtain ⟨hfresh, hnodup⟩ := List.nodup_cons.mp hl
      obtain ⟨hlist, hrest, hphys, hkern, hcpus⟩ := ih hnodup rfl
      rw [List.foldr_cons] at run
      generalize l.foldr (fun i k => k.freeSlot i) k = k₁ at hlist hrest hphys hkern hcpus run
      subst run
      refine ⟨?_, fun i => ?_, hphys, hkern, hcpus⟩
      · refine (hlist.push hfresh).congr fun e _ => ?_
        by_cases he : e = a
        · subst he
          simp [Kernel.freeSlot]
        · simp [Kernel.freeSlot, Kernel.setEnv_envs_of_ne _ he, Function.update_of_ne he]
      · by_cases he : i = a
        · subst he
          rw [← hrest i]
          have hid : (k₁.envs i).id = 0 := congrArg Env.id (hrest i)
          simp [Kernel.freeSlot, hid]
        · rw [← hrest i]
          simp [Kernel.freeSlot, Kernel.setEnv_envs_of_ne _ he]

theorem envInit_spec (m : Hardware) (p : Phys) :
    (envInit m p).phys = p ∧ (envInit m p).kernPgdir = m.kernPgdir ∧
      (envInit m p).cpus = (m.kernel p).cpus ∧
      (envInit m p).envFreeList = some 0 ∧ ((envInit m p).envs 0).link = some 1 ∧
      (∀ i, { (envInit m p).envs i with link := none } = Env.zero) ∧ Idle (envInit m p) := by
  generalize hk : envInit m p = k'
  have hrun : (List.finRange nenv).foldr (fun i k => k.freeSlot i) (m.kernel p) = k' := by
    rw [← hk, envInit]
  obtain ⟨hlist, hzero, hphys, hkern, hcpus⟩ := freeSlots (List.finRange nenv)
    (List.nodup_finRange nenv) rfl (fun _ => rfl) hrun
  have hhead : k'.envFreeList = some 0 ∧ (k'.envs 0).link = some 1 := by
    rw [List.finRange_succ, List.finRange_succ] at hlist
    exact ⟨hlist.head_eq, hlist.tail.head_eq⟩
  refine ⟨hphys, hkern, hcpus, hhead.1, hhead.2, hzero, fun c => ?_, ⟨_, hlist, fun e _ => ?_⟩,
    fun e => ?_⟩
  · rw [Kernel.curenv, Kernel.mode, hcpus]
    refine ⟨rfl, ?_⟩
    by_cases hc : c < m.ncpu
    · simp [Hardware.kernel, hc]
    · simp [Hardware.kernel, hc]
  · exact congrArg Env.status (hzero e)
  · exact congrArg Env.ipcRecving (hzero e)

end EnvInit

namespace Phys.Inv

variable {L : Layout} {dirs : EnvIdx → Option Nat} {p : Phys} {e : EnvIdx} {d : Nat}
  {X : Empty → Phys → Prop}

/-- A store below `UTOP`, if it succeeds. -/
theorem kernelStore_below (h : p.Inv L dirs none) (hd : dirs e = some d) {va : Word}
    (hva : va < utop) (b : Byte) :
    wp (Jos.kernelStore d va b) (fun _ q => q.Inv L dirs none) X (fun _ => True) p := by
  rw [kernelStore, wp_bind, wp_get]
  cases walk : p.translate d va with
  | none => exact (wp_panic _).mpr trivial
  | some entries =>
      dsimp only
      rw [wp_ite, wp_panic, wp_modify]
      exact ⟨fun _ => trivial, fun _ => h.setByte (target_of_translate hd hva walk) _ _⟩

/-- Stores below `UTOP`, as far as they succeed. -/
theorem kernelStores_below (h : p.Inv L dirs none) (hd : dirs e = some d) {va : Word}
    {bytes : List Byte} (hva : ∀ i < bytes.length, va + BitVec.ofNat 32 i < utop) :
    wp (Jos.kernelStores d va bytes) (fun _ q => q.Inv L dirs none) X (fun _ => True) p := by
  induction bytes generalizing va p with
  | nil => exact (wp_pure _).mpr h
  | cons b bytes ih =>
      have hfirst : va < utop := by
        have := hva 0 (by simp)
        rwa [show va + BitVec.ofNat 32 0 = va from BitVec.add_zero va] at this
      have hrest : ∀ i < bytes.length, va + 1 + BitVec.ofNat 32 i < utop := by
        intro i hi
        have := hva (i + 1) (by simpa using hi)
        rwa [← add_one_add_ofNat] at this
      rw [Jos.kernelStores, wp_bind]
      exact wp_imp (h.kernelStore_below hd hfirst b) fun _ q hq => ih hq hrest

/-- `region_alloc` below `UTOP`, as far as it succeeds. -/
theorem regionAllocFrom (h : p.Inv L dirs none) (hd : dirs e = some d) {stop : Word}
    (hstop : stop ≤ utop) {n : Nat} {addr : Word} :
    wp (regionAllocFrom d stop n addr) (fun _ q => q.Inv L dirs none) X (fun _ => True) p := by
  induction n generalizing addr p with
  | zero => exact (wp_pure _).mpr h
  | succ n ih =>
      rw [Jos.regionAllocFrom, wp_ite]
      refine ⟨fun hlt => ?_, fun _ => (wp_pure _).mpr h⟩
      rw [wp_bind]
      rcases MemInv.userPageAlloc_spec h false with
        ⟨hrun, -⟩ | ⟨f, q, hrun, hq, -, -, href, hmap, -⟩
      · rw [wp_ret hrun]
        exact (wp_panic _).mpr trivial
      · rw [wp_ret hrun]
        have hva : addr < utop := by
          rw [BitVec.lt_def] at hlt ⊢
          rw [BitVec.le_def] at hstop
          omega
        rw [wp_bind]
        rcases hq.insert hd hva (by decide : (pteU ||| pteW).toNat < 4096) hmap
          (.inr (by rw [href]; decide)) with ⟨hins, -⟩ | ⟨r, hins, hr, -⟩
        · rw [wp_ret hins, if_pos (by decide), wp_panic]
          trivial
        · rw [wp_ret hins, if_neg (by decide)]
          exact ih hr

theorem loadSegments (h : p.Inv L dirs none) (hd : dirs e = some d) (segments : List Segment) :
    wp (loadSegments d segments) (fun _ q => q.Inv L dirs none) X (fun _ => True) p := by
  induction segments generalizing p with
  | nil => exact (wp_pure _).mpr h
  | cons ph rest ih =>
      rw [Jos.loadSegments, wp_bind, loadSegment, wp_ite, wp_panic]
      refine ⟨fun _ => trivial, fun hsize => ?_⟩
      have hbelow := ph.below
      have hstack : ustacktop.toNat = 4005552128 := by decide
      have hutop : utop.toNat = 4005560320 := by decide
      rw [hstack, show pgsize = 4096 from rfl] at hbelow
      have hstop : roundup (ph.va + ph.memsz) ≤ utop := by
        rw [BitVec.le_def, roundup_add_toNat (by omega)]
        omega
      rw [wp_bind, regionAlloc]
      apply wp_imp (h.regionAllocFrom hd hstop)
      intro _ q hq
      have hva : ∀ i < (ph.data ++ List.replicate (ph.memsz.toNat - ph.data.length) 0).length,
          ph.va + BitVec.ofNat 32 i < utop := by
        intro i hi
        rw [List.length_append, List.length_replicate] at hi
        rw [BitVec.lt_def, BitVec.toNat_add, BitVec.toNat_ofNat]
        omega
      exact wp_imp (hq.kernelStores_below hd hva) fun _ r hr => ih hr

end Phys.Inv

section EnvCreate

variable {L : Layout} {k : Kernel} {X : Unit → Kernel → Prop}

theorem Idle.congr {k' : Kernel} (h : Idle k) (hcpus : k'.cpus = k.cpus) (slots : k'.SlotsFree)
    (hrecv : ∀ e, (k'.envs e).ipcRecving = (k.envs e).ipcRecving) : Idle k' := by
  refine ⟨fun c => ?_, slots, fun e => by rw [hrecv, h.recving]⟩
  rw [Kernel.curenv, Kernel.mode, hcpus]
  exact h.cpus c

theorem Idle.setEnv (h : Idle k) {e : EnvIdx} {env : Env} (link : env.link = (k.envs e).link)
    (status : env.status = (k.envs e).status) (recv : env.ipcRecving = (k.envs e).ipcRecving) :
    Idle (k.setEnv e env) :=
  h.congr rfl (h.slots.congr (Kernel.setEnv_field link) rfl fun e' hfree =>
    (Kernel.setEnv_field status e').trans hfree) (Kernel.setEnv_field recv)

/-- The state that `env_alloc` leaves, up to memory. -/
def Kernel.created (k : Kernel) (e : EnvIdx) (parentId : Word) (d : Nat) : Kernel :=
  { k.setEnv e
      { k.envs e with
        pgdir := some d
        id := nextEnvId (k.envs e).id e
        parentId
        type := .user
        status := .runnable
        runs := 0
        tf := Trapframe.fresh
        pgfaultUpcall := 0 } with
    envFreeList := (k.envs e).link }

/-- `env_alloc` takes the first free slot and the first free page. -/
theorem envAlloc_run {e : EnvIdx} {f : Nat} (parentId : Word) (head : k.envFreeList = some e)
    (hpage : k.phys.pageFreeList = some f) (hlt : f < k.phys.npages)
    (hn : k.phys.npages ≤ 65536) :
    envAlloc parentId k = .ret (.ok e)
      { k.created e parentId f with phys := k.phys.newDir k.kernPgdir f } := by
  apply ret_of_wp
  rw [envAlloc, wp_bind, wp_get, head]
  dsimp only
  rw [wp_bind, wp_ret (envSetupVm_run hpage hlt hn), if_neg (by decide)]
  simp only [wp_bind, wp_modify, wp_pure, Kernel.setEnv_envs_self]
  refine ⟨trivial, ?_⟩
  simp [Kernel.created, Kernel.setEnv]

theorem Kernel.SlotsFree.created (h : k.SlotsFree) {e : EnvIdx} (head : k.envFreeList = some e)
    (parentId : Word) (f : Nat) (p : Phys) :
    ({ k.created e parentId f with phys := p } : Kernel).SlotsFree := by
  refine (h.forked head parentId f .zero).2.congr (fun e' => ?_) rfl fun e' hfree => ?_
  · by_cases he : e' = e
    · subst he
      simp [Kernel.created, Kernel.forked]
    · simp [Kernel.created, Kernel.forked, Kernel.setEnv_envs_of_ne _ he]
  · by_cases he : e' = e
    · subst he
      simp [Kernel.forked, Kernel.status] at hfree
    · simpa [Kernel.created, Kernel.forked, Kernel.status, Kernel.setEnv_envs_of_ne _ he]
        using hfree

theorem Idle.created (h : Idle k) {e : EnvIdx} (head : k.envFreeList = some e) (parentId : Word)
    (f : Nat) (p : Phys) : Idle { k.created e parentId f with phys := p } :=
  h.congr rfl (h.slots.created head parentId f p) fun e' =>
    Kernel.setEnv_field (f := Env.ipcRecving) (by rfl) e'

/-- The new environment owns a directory; nothing else has changed. -/
theorem MemInv.created (h : MemInv L k) (slots : k.SlotsFree) {e : EnvIdx} {f : Nat}
    (head : k.envFreeList = some e) (hpage : k.phys.pageFreeList = some f) (parentId : Word) :
    MemInv L { k.created e parentId f with phys := k.phys.newDir k.kernPgdir f } := by
  have hfree := (slots.forked head 0 0 .zero).1
  rw [h.kern]
  exact h.newEnv hfree hpage rfl (by simp) _

/-- Whenever `env_alloc` succeeds, it has taken the first free slot and the first free page. -/
theorem MemInv.envAlloc_ret (h : MemInv L k) {parentId : Word} {e : EnvIdx} {k' : Kernel}
    (run : envAlloc parentId k = .ret (.ok e) k') :
    ∃ f, k.envFreeList = some e ∧ k.phys.pageFreeList = some f ∧ L.owned f ∧
      k' = { k.created e parentId f with phys := k.phys.newDir k.kernPgdir f } := by
  cases head : k.envFreeList with
  | none =>
      rw [envAlloc, get_bind, head] at run
      cases run
  | some e' =>
      cases hpage : k.phys.pageFreeList with
      | none =>
          rw [envAlloc, get_bind, head] at run
          dsimp only at run
          rw [bind_ret _ (envSetupVm_noMem hpage), if_pos (by decide)] at run
          cases run
      | some f =>
          have howned := (h.phys.alloc hpage true).2.1.owned
          rw [envAlloc_run parentId head hpage (h.phys.lt_npages howned) h.phys.npages_le] at run
          obtain ⟨hok, rfl⟩ := Outcome.ret.inj run
          obtain rfl := Except.ok.inj hok
          exact ⟨f, rfl, rfl, howned, rfl⟩

/-- Whatever the program, `env_create` keeps memory well-formed. -/
theorem MemInv.envCreate (h : MemInv L k) (hidle : Idle k) (binary : Binary) :
    wp (envCreate binary) (fun _ k' => MemInv L k' ∧ Idle k') X (fun _ => True) k := by
  rw [Jos.envCreate, wp_bind]
  cases head : k.envFreeList with
  | none =>
      rw [Jos.envAlloc, wp_bind, wp_get, head]
      exact (wp_pure _).mpr ((wp_panic _).mpr trivial)
  | some e =>
      cases hpage : k.phys.pageFreeList with
      | none =>
          rw [Jos.envAlloc, wp_bind, wp_get, head]
          dsimp only
          rw [wp_bind, wp_ret (envSetupVm_noMem hpage), if_pos (by decide)]
          exact (wp_pure _).mpr ((wp_panic _).mpr trivial)
      | some f =>
          have hlt := h.phys.lt_npages (h.phys.alloc hpage true).2.1.owned
          rw [wp_ret (envAlloc_run 0 head hpage hlt h.phys.npages_le)]
          have h₁ := h.created hidle.slots head hpage 0
          have hidle₁ := hidle.created head 0 f (k.phys.newDir k.kernPgdir f)
          have hd₁ : ({ k.created e 0 f with phys := k.phys.newDir k.kernPgdir f } : Kernel).dirs e =
              some f := by simp [Kernel.dirs, Kernel.created]
          generalize ({ k.created e 0 f with phys := k.phys.newDir k.kernPgdir f } : Kernel) = k₁
            at h₁ hidle₁ hd₁ ⊢
          have hpg : (k₁.envs e).pgdir = some f := hd₁
          rw [wp_bind, loadIcode, wp_ite, wp_panic]
          refine ⟨fun _ => trivial, fun _ => ?_⟩
          rw [wp_bind, paddrPgdir, wp_bind, wp_get, hpg]
          simp only [wp_pure, wp_bind, pmap, wp_zoom, wp_modify]
          apply wp_imp (h₁.phys.loadSegments hd₁ _)
          intro _ q hq
          have hstop : roundup (ustacktop - 4096 + 4096) ≤ utop := by decide
          refine wp_imp (hq.regionAllocFrom hd₁ hstop) fun _ r hr => ?_
          have hr₁ : MemInv L { k₁ with phys := r } := h₁.of_phys hr
          have hused : k₁.status e ≠ .free := by
            intro hfree
            rw [(h₁.live e).mp hfree] at hd₁
            simp at hd₁
          have hr₂ := hr₁.setTf (e := e) (k := { k₁ with phys := r })
            (t := { (k₁.envs e).tf with eip := binary.entry })
          have hused₂ : ({ k₁ with phys := r }.setTf e
              { (k₁.envs e).tf with eip := binary.entry }).status e ≠ .free := by
            rwa [Kernel.setTf_status]
          have hidle₂ : Idle { k₁ with phys := r } := ⟨hidle₁.cpus, hidle₁.slots, hidle₁.recving⟩
          have hidle₃ : Idle ({ k₁ with phys := r }.setTf e
              { (k₁.envs e).tf with eip := binary.entry }) := hidle₂.setEnv rfl rfl rfl
          refine ⟨hr₂.setEnv hused₂ rfl hused₂, ?_⟩
          exact Idle.setEnv hidle₃ rfl rfl rfl

theorem MemInv.envCreates (h : MemInv L k) (hidle : Idle k) (binaries : List Binary) :
    wp (envCreates binaries) (fun _ k' => MemInv L k' ∧ Idle k') X (fun _ => True) k := by
  induction binaries generalizing k with
  | nil => exact (wp_pure _).mpr ⟨h, hidle⟩
  | cons binary rest ih =>
      rw [Jos.envCreates, wp_bind]
      apply wp_imp (h.envCreate hidle binary)
      rintro _ k₁ ⟨h₁, hidle₁⟩
      exact ih h₁ hidle₁

end EnvCreate

/-- The pages after the arrays are free. -/
theorem Machine.free_of_ge (m : Machine) {f : Nat} (hlow : m.firstFree ≤ f) (hlt : f < m.npages) :
    m.Free f := by
  have hge := m.kernEnd_ge
  have hle := m.basemem_le
  have hff : m.kernEnd ≤ m.firstFree := by
    simp only [Hardware.firstFree, Hardware.envsAlloc, Hardware.pagesAlloc, bootAlloc]
    omega
  simp only [iophysmem, extphysmem, pgsize] at hge hle
  refine ⟨hlt, by omega, .inr ⟨by omega, ?_, ?_⟩⟩
  · simp only [iophysmem, extphysmem, pgsize]
    omega
  · omega

/-- The pages of the arrays are not. -/
theorem Machine.arrays_not_free (m : Machine) {f : Nat} (hlow : m.pagesAlloc.1 ≤ f)
    (hhigh : f < m.firstFree) : ¬ m.Free f := by
  have hge := m.kernEnd_ge
  have hle := m.basemem_le
  have hstart : m.kernEnd ≤ m.pagesAlloc.1 := by
    simp only [Hardware.pagesAlloc, bootAlloc]
    omega
  simp only [iophysmem, extphysmem, pgsize] at hge hle
  rintro ⟨-, -, ⟨hbase, -⟩ | ⟨-, -, hfree⟩⟩
  · omega
  · simp only [extphysmem, pgsize] at hfree
    omega

/-- What is known of memory once the kernel has booted: reserved pages are in use for
good, and everything that the allocator manages was free at the start. -/
structure Machine.Sets (m : Machine) (L : Layout) : Prop where
  kern : L.kern = m.kernPgdir
  npages : L.boot.npages = m.npages
  owned : ∀ f, L.owned f → m.Free f
  reserved : ∀ f < m.npages, ¬ m.Free f → L.boot.pages f = ⟨none, 1⟩

theorem KernTree.sets {m : Machine} {n : Nat} {l : List Nat} {p : Phys}
    (h : KernTree m.toHardware n l p) : m.Sets h.layout :=
  ⟨rfl, h.npages, fun f hf => (h.managed f hf).1, h.reserved⟩

theorem KernTree.memInv {m : Machine} {n : Nat} {l : List Nat} {p : Phys}
    (h : KernTree m.toHardware n l p) : MemInv h.layout (envInit m.toHardware p) := by
  obtain ⟨hphys, hkern, -, -, -, hzero, -⟩ := envInit_spec m.toHardware p
  generalize envInit m.toHardware p = k at hphys hkern hzero ⊢
  have hdirs : ∀ e, k.dirs e = none := fun e => congrArg Env.pgdir (hzero e)
  refine ⟨?_, hkern, fun e => ?_⟩
  · rw [hphys]
    exact h.inv hdirs
  · exact ⟨fun _ => hdirs e, fun _ => congrArg Env.status (hzero e)⟩

/-- Before the first program is loaded: the kernel's half is built, the rest is free. -/
theorem Booted.kernTree {m : Machine} {binaries : List Binary} {k : Kernel}
    (h : Booted m binaries k) : ∃ n l p, KernTree m.toHardware n l p ∧
      envCreates binaries (envInit m.toHardware p) = .ret () k := by
  obtain ⟨p₁, p₂, p₃, p₄, p₅, base, next, hstart, htest, hrest, htest', hlapic, hcreate⟩ := h
  obtain ⟨q₁, l₁, hrun₁, h₁, hfree, -⟩ := KernTree.start m
  obtain ⟨-, rfl⟩ := Outcome.ret.inj (hrun₁.symm.trans hstart)
  obtain ⟨l₂, h₂, hperm⟩ := h₁.selfTest htest
  have hne : l₂ ≠ [] := by
    intro hnil
    rw [hnil] at hperm
    have hmem := (hfree _).mpr (m.free_of_ge le_rfl m.firstFree_lt)
    rw [List.perm_nil.mp hperm.symm] at hmem
    simp at hmem
  obtain ⟨q₃, l₃, hrun, h₃⟩ := h₂.memInitRest hne
  obtain ⟨rfl, rfl⟩ := Outcome.ret.inj (hrun.symm.trans hrest)
  obtain ⟨l₄, h₄, -⟩ := h₃.selfTest htest'
  obtain ⟨l₅, h₅⟩ := h₄.lapicInits (by decide) (by decide) hlapic
  exact ⟨_, l₅, p₅, h₅, hcreate⟩

/-- Booting establishes the invariant of the memory manager. -/
theorem Booted.memInv {m : Machine} {binaries : List Binary} {k : Kernel}
    (h : Booted m binaries k) : ∃ L : Layout, m.Sets L ∧ MemInv L k ∧ Idle k := by
  obtain ⟨n, l, p, htree, hcreate⟩ := h.kernTree
  obtain ⟨-, -, -, -, -, -, hidle⟩ := envInit_spec m.toHardware p
  obtain ⟨hmem, hidle'⟩ := (wp_ret hcreate).mp
    (htree.memInv.envCreates (X := fun _ _ => False) hidle binaries)
  exact ⟨htree.layout, htree.sets, hmem, hidle'⟩

/-- At the start no processor runs anything. -/
theorem Idle.exclusive {k : Kernel} (h : Idle k) (ok : EnvStatus → Prop) :
    Exclusive ok none k := by
  have hmode : ∀ c, k.mode c ≠ .user := by
    intro c
    rcases (h.cpus c).2 with hm | hm <;> rw [hm] <;> decide
  refine ⟨fun c _ hu => absurd hu (hmode c), fun c _ _ _ => (h.cpus c).1,
    fun c _ _ _ _ hr => absurd hr.1 (hmode c), fun c e hc => by simp at hc, h.slots⟩

end Jos
