import Jos.Boot.Load
import Jos.Kernel.Resume
import Mathlib.Order.Interval.Finset.Nat

/-!
# Enough memory to boot

`mem_init` and `env_create` panic when memory runs out. With enough of it they do
not: each page of a program takes at most two pages of memory, one for itself and
one for its page table.
-/

namespace Jos

open Prog

theorem newDir_freePages {p : Phys} {kern f n : Nat} (h : p.FreePages (n + 1))
    (head : p.pageFreeList = some f) : (p.newDir kern f).FreePages n := by
  have halloc := Phys.Inv.alloc_freePages h head true
  exact Phys.FreePages.congr ((halloc.congr (q := (p.alloc f true).setPage f _) rfl rfl).setRef _)
    rfl rfl

section Create

variable {L : Layout} {k : Kernel} {e : EnvIdx}

/-- With enough memory `env_create` succeeds. -/
theorem envCreate_total (h : MemInv L k) (hidle : Idle k) (head : k.envFreeList = some e)
    {b : Binary} (loadable : b.Loadable) {r : Nat} (room : k.phys.FreePages (b.needs + r)) :
    ∃ d q, envCreate b k = .ret () { (k.created e 0 d).setTf e
        { Trapframe.fresh with eip := b.entry } with phys := q } ∧
      q.FreePages r ∧
      (∀ i j, b.Uses (pageNumber i j) → q.Private (Function.update k.dirs e (some d)) e i j) ∧
      ∀ i j, ¬ b.Uses (pageNumber i j) →
        q.pteAt (Function.update k.dirs e (some d)) e i j = 0 := by
  have hneeds : b.needs + r = 2 * ((b.segments.map Segment.pages).sum + 1) + r + 1 := by
    rw [Binary.needs]
    omega
  rw [hneeds] at room
  obtain ⟨d, hpage⟩ := room.head
  have hfree := (hidle.slots.forked head 0 0 .zero).1
  have hnone : k.dirs e = none := (h.live e).mp hfree
  have hlt := h.phys.lt_npages (h.phys.alloc hpage true).2.1.owned
  have hk : k.kernPgdir = L.kern := h.kern
  have h₁ := h.created hidle.slots head hpage 0
  have hdirs : ({ k.created e 0 d with phys := k.phys.newDir k.kernPgdir d } : Kernel).dirs =
      Function.update k.dirs e (some d) := by
    funext e'
    by_cases he : e' = e
    · subst he
      simp [Kernel.dirs, Kernel.created]
    · simp [Kernel.dirs, Kernel.created, Kernel.setEnv_envs_of_ne _ he, Function.update_of_ne he]
  have hd : ({ k.created e 0 d with phys := k.phys.newDir k.kernPgdir d } : Kernel).dirs e =
      some d := by rw [hdirs, Function.update_self]
  have hempty : ∀ i j, (k.phys.newDir L.kern d).pteAt (Function.update k.dirs e (some d)) e i j =
      0 := by
    intro i j
    rw [(h.phys.newDir hpage hnone).2.1]
    exact Phys.pteAt_of_none (by simp [Phys.target, Phys.pdeAt, hnone])
  have room₁ : (k.phys.newDir k.kernPgdir d).FreePages
      (2 * ((b.segments.map Segment.pages).sum + 1) + r) := newDir_freePages room hpage
  obtain ⟨⟨⟩, k', hload, q, rfl, hq, hfills, -, hroom⟩ := exists_of_wp (wp_mono
    (loadIcode_spec h₁ hd loadable) (fun _ _ hs => hs) (fun _ _ hf => hf)
    fun _ hpanic => hpanic (room₁.mono (Nat.le_add_right _ _)))
  rw [hdirs] at hfills
  refine ⟨d, q, ?_, hroom r room₁, fun i j huses => hfills.mapped i j huses, fun i j hnot => ?_⟩
  · rw [envCreate, bind_ret _ (envAlloc_run 0 head hpage hlt h.phys.npages_le)]
    dsimp only
    rw [bind_ret _ hload]
    simp [Kernel.setTf, Kernel.created, Kernel.setEnv, Prog.modify]
  · rw [hfills.rest e i j fun hin => hnot hin.2]
    change (k.phys.newDir k.kernPgdir d).pteAt _ e i j = 0
    rw [hk]
    exact hempty i j

/-- The first environment runs the program `b`, there is no other, and `r` pages are free. -/
structure FirstEnv (b : Binary) (r : Nat) (k : Kernel) : Prop where
  free : k.phys.FreePages r
  slots : k.envFreeList = some 1
  env : ∃ d, k.envs 0 =
    { Env.zero with
      tf := { Trapframe.fresh with eip := b.entry }
      link := some 1
      id := 0x1000
      status := .runnable
      pgdir := some d }
  others : ∀ e, e ≠ 0 → { k.envs e with link := none } = Env.zero
  mapped : ∀ i j, b.Uses (pageNumber i j) → k.phys.Private k.dirs 0 i j
  unmapped : ∀ i j, ¬ b.Uses (pageNumber i j) → k.phys.pteAt k.dirs 0 i j = 0

theorem firstEnv_total (h : MemInv L k) (hidle : Idle k) (head : k.envFreeList = some 0)
    (hlink : (k.envs 0).link = some 1) (hzero : ∀ e, { k.envs e with link := none } = Env.zero)
    {b : Binary} (loadable : b.Loadable) {r : Nat} (room : k.phys.FreePages (b.needs + r)) :
    ∃ k', envCreates [b] k = .ret () k' ∧ FirstEnv b r k' ∧ k'.cpus = k.cpus := by
  obtain ⟨d, q, hcreate, hfree, hmapped, hunmapped⟩ := envCreate_total h hidle head loadable room
  have hdirs : ({ (k.created 0 0 d).setTf 0 { Trapframe.fresh with eip := b.entry } with
      phys := q } : Kernel).dirs = Function.update k.dirs 0 (some d) := by
    funext e
    by_cases he : e = 0
    · subst he
      simp [Kernel.dirs, Kernel.created, Kernel.setTf]
    · simp [Kernel.dirs, Kernel.created, Kernel.setTf, Kernel.setEnv, Function.update_of_ne he]
  refine ⟨{ (k.created 0 0 d).setTf 0 { Trapframe.fresh with eip := b.entry } with phys := q }, ?_,
    ⟨hfree, hlink, ⟨d, ?_⟩, fun e he => ?_, ?_, ?_⟩, rfl⟩
  · rw [envCreates, bind_ret _ hcreate]
    rfl
  · have henv : k.envs 0 = { Env.zero with link := some 1 } := by
      rw [← hzero 0, ← hlink]
    have hnext : nextEnvId Env.zero.id 0 = 0x1000 := by decide
    simp only [Kernel.setTf, Kernel.created, Kernel.setEnv, Function.update_self, henv]
    rw [hnext]
    rfl
  · rw [← hzero e]
    simp [Kernel.setTf, Kernel.created, Kernel.setEnv, Function.update_of_ne he]
  · rw [hdirs]
    exact hmapped
  · rw [hdirs]
    exact hunmapped

end Create

/-- The pages after the arrays are free at the start. -/
theorem Machine.length_free (m : Machine) {l : List Nat} (hfree : ∀ f, f ∈ l ↔ m.Free f) :
    m.npages - m.firstFree ≤ l.length := by
  have hsub : Finset.Ico m.firstFree m.npages ⊆ l.toFinset := by
    intro f hf
    rw [Finset.mem_Ico] at hf
    rw [List.mem_toFinset, hfree]
    exact m.free_of_ge hf.1 hf.2
  have hcard := (Finset.card_le_card hsub).trans (List.toFinset_card_le l)
  rwa [Nat.card_Ico] at hcard

/-- A machine with enough memory gets as far as its programs. -/
theorem Machine.builds (m : Machine) {r : Nat} (room : m.firstFree + 1024 + r ≤ m.npages)
    (hr : 0 < r) (hcpus : m.ncpu ≤ 1021) :
    ∃ n l p, KernTree m.toHardware n l p ∧ r ≤ l.length ∧
      ∀ binaries k, envCreates binaries (envInit m.toHardware p) = .ret () k →
        Booted m binaries k := by
  obtain ⟨p₁, l₁, hrun₁, h₁, hfree, -⟩ := KernTree.start m
  have hlen := m.length_free hfree
  have hne : l₁ ≠ [] := by
    rintro rfl
    rw [List.length_nil] at hlen
    omega
  obtain ⟨p₂, l₂, hrun₂, h₂⟩ := h₁.memInitRest hne
  have hbase : (mmiobase + 12288).toNat = 4018155520 := by decide
  obtain ⟨next, p₃, l₃, hrun₃, h₃⟩ := h₂.lapicInits_total m.ncpu (mmiobase + 12288)
    (by omega) (by omega)
  have hlen₃ := h₃.length_ge
  have hself : ∀ p, SelfTest p p := fun p => ⟨rfl, fun l hl => ⟨l, hl, .refl l⟩, rfl,
    fun _ _ => rfl, fun _ _ => rfl, rfl⟩
  exact ⟨_, l₃, p₃, h₃, by omega, fun binaries k hrun =>
    ⟨p₁, p₁, p₂, p₂, p₃, _, next, hrun₁, hself p₁, hrun₂, hself p₂, hrun₃, hrun⟩⟩

/-- A machine with enough memory boots. -/
theorem boots (m : Machine) {b : Binary} (loadable : b.Loadable) {r : Nat}
    (room : m.firstFree + 1024 + b.needs + r ≤ m.npages) (hcpus : m.ncpu ≤ 1021) :
    ∃ k, Booted m [b] k ∧ FirstEnv b r k ∧
      ∀ c, k.curenv c = none ∧ k.mode c = if c < m.ncpu then .starting else .unused := by
  have hneeds : 0 < b.needs := Nat.succ_pos _
  obtain ⟨n, l, p, htree, hlen, hbooted⟩ := m.builds (r := b.needs + r) (by omega) (by omega) hcpus
  obtain ⟨hphys, -, hinit, hhead, hlink, hzero, hidle⟩ := envInit_spec m.toHardware p
  have hroom : (envInit m.toHardware p).phys.FreePages (b.needs + r) := by
    rw [hphys]
    exact ⟨l, htree.free, hlen⟩
  obtain ⟨k, hrun, hfirst, hsame⟩ :=
    firstEnv_total htree.memInv hidle hhead hlink hzero loadable hroom
  refine ⟨k, hbooted _ k hrun, hfirst, fun c => ?_⟩
  have hcpu : k.cpus c = (m.kernel p).cpus c := by rw [hsame, hinit]
  rw [Kernel.curenv, Kernel.mode, hcpu]
  exact ⟨rfl, rfl⟩

/-- A machine with 128 MB and three processors. -/
def qemu : Machine where
  npages := 32768
  npagesBasemem := 160
  kernEnd := 672
  bootstack := 282
  percpuKstacks i := 576 + 8 * i
  lapicaddr := some 0xFEE00
  ncpu := 3
  mem _ _ := 0
  npages_le := by decide
  basemem_gt := by decide
  basemem_le := by decide
  kernEnd_ge := by decide
  firstFree_lt := by decide

/-- A program that makes a system call: `int $0x30`. -/
def intProgram : Binary where
  magic := elfMagic
  entry := 0x800020
  segments := [⟨0x800020, 2, [0xCD, 0x30], by decide⟩]

theorem intProgram_uses (n : Nat) : intProgram.Uses n ↔ n = 2048 ∨ n = stackPage := by
  have hfirst : (0x800020 : Word).toNat / 4096 = 2048 := by decide
  have hlast : ((0x800020 : Word).toNat + (2 : Word).toNat + 4095) / 4096 = 2049 := by decide
  simp only [Binary.Uses, Covers, intProgram, List.mem_singleton, exists_eq_left,
    Segment.firstPage, Segment.lastPage, hfirst, hlast]
  omega

theorem intProgram_loadable : intProgram.Loadable := by
  refine ⟨rfl, ?_⟩
  simp only [intProgram, List.mem_singleton, forall_eq, Segment.Fits]
  decide

theorem qemu_boots : ∃ k, Booted qemu [intProgram] k ∧ FirstEnv intProgram 64 k ∧
    ∀ c, k.curenv c = none ∧ k.mode c = if c < 3 then .starting else .unused :=
  boots qemu intProgram_loadable (by decide) (by decide)

/-- The first environment runs `intProgram` on CPU 0, and the other two CPUs are about to
call the scheduler. -/
structure FirstRuns (d : Nat) (k : Kernel) : Prop where
  executes : k.Executes 0 0 d
  id : (k.envs 0).id = 0x1000
  recving : (k.envs 0).ipcRecving = false
  free : k.phys.FreePages 64
  slots : k.envFreeList = some 1
  others : ∀ e, e ≠ 0 → { (k.envs e).core with link := none } = Env.zero
  cpus : ∀ c, c ≠ 0 → k.curenv c = none ∧ k.mode c = if c < 3 then .starting else .unused
  mapped : ∀ i j, pageNumber i j = 2048 ∨ pageNumber i j = stackPage → k.phys.Private k.dirs 0 i j
  unmapped : ∀ i j, pageNumber i j ≠ 2048 → pageNumber i j ≠ stackPage →
    k.phys.pteAt k.dirs 0 i j = 0

/-- Nothing is mapped but the page of the program and the stack of the first environment. -/
def Kernel.OnlyFirst (k : Kernel) : Prop :=
  ∀ e i j, ¬ (e = 0 ∧ (pageNumber i j = 2048 ∨ pageNumber i j = stackPage)) →
    k.phys.pteAt k.dirs e i j = 0

/-- CPU 0 is the first to call the scheduler. -/
theorem FirstEnv.starts {b : Binary} {r : Nat} {k : Kernel} (h : FirstEnv b r k)
    (cpus : ∀ c, k.curenv c = none ∧ k.mode c = if c < 3 then .starting else .unused) :
    ∃ d, Step k (.start 0) (k.ran 0 0 d) ∧ (k.ran 0 0 d).Executes 0 0 d := by
  obtain ⟨d, henv⟩ := h.env
  have hrunnable : k.status 0 = .runnable := by rw [Kernel.status, henv]
  have hscan : k.schedScan nenv none = some 0 := schedScan_here 1023 hrunnable
  have hlock : k.Unlocked := by
    intro c
    rw [(cpus c).2]
    split <;> decide
  have hpgdir : (k.envs 0).pgdir = some d := by rw [henv]
  refine ⟨d, start_runs (cpus 0).2 hlock (cpus 0).1 hscan hpgdir,
    ⟨fun c => ?_, Kernel.ran_cpus_self, Kernel.ran_status_self, ?_⟩⟩
  · by_cases hc : c = 0
    · subst hc
      rw [Kernel.mode, Kernel.ran_cpus_self]
      simp
    · rw [Kernel.mode, Kernel.ran_cpus_of_ne hc]
      exact hlock c
  · exact (Kernel.ran_field (f := Env.pgdir) (fun _ _ _ _ => rfl) 0).trans hpgdir

theorem FirstEnv.runs {k : Kernel} (h : FirstEnv intProgram 64 k)
    (cpus : ∀ c, k.curenv c = none ∧ k.mode c = if c < 3 then .starting else .unused) :
    ∃ d k', Step k (.start 0) k' ∧ FirstRuns d k' := by
  obtain ⟨d, hstep, hexec⟩ := h.starts cpus
  obtain ⟨d₀, henv⟩ := h.env
  have hpre : k.preempted 0 = k := by rw [Kernel.preempted, (cpus 0).1]
  have hself := Kernel.ran_envs_self (k := k) (c := 0) (e := 0) (d := d)
  rw [hpre, henv] at hself
  have hne : ∀ e, e ≠ 0 → (k.ran 0 0 d).envs e = k.envs e := by
    intro e he
    rw [Kernel.ran_envs_of_ne he, hpre]
  refine ⟨d, _, hstep, ⟨hexec, ?_, ?_, ?_, ?_, fun e he => ?_, fun c hc => ?_, fun i j hn => ?_,
    fun i j hn hs => ?_⟩⟩
  · rw [hself]
  · rw [hself]
    rfl
  · rw [Kernel.ran_phys.1]
    exact h.free
  · rw [Kernel.ran_envFreeList, h.slots]
  · rw [hne e he]
    exact congrArg Env.core (h.others e he)
  · rw [Kernel.curenv, Kernel.mode, Kernel.ran_cpus_of_ne hc]
    exact cpus c
  · rw [Kernel.ran_phys.1, Kernel.ran_dirs]
    exact h.mapped i j ((intProgram_uses _).mpr hn)
  · rw [Kernel.ran_phys.1, Kernel.ran_dirs]
    refine h.unmapped i j fun huses => ?_
    rcases (intProgram_uses _).mp huses with hu | hu
    · exact hn hu
    · exact hs hu

end Jos
