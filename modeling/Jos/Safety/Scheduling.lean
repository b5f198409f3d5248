import Jos.Safety.Sharing

/-!
# One environment on two CPUs

As long as nobody interferes with an environment that another CPU is executing,
each environment is executed by one CPU at most, and it is freed by that CPU or
when no CPU executes it. A parent that sets the status of its running child, or
destroys it twice, breaks both.
-/

namespace Jos

open Prog

variable {m : Machine} {binaries : List Binary} {k₀ k k' : Kernel}

/-- The step does not disturb an environment that another CPU executes; `ok` are the
statuses that such an environment may be given. -/
def Undisturbed (ok : EnvStatus → Prop) (k : Kernel) (ev : Event) : Prop :=
  SafeEntry ok k ev.cpu ev.frame

theorem Booted.exclusive {ok : EnvStatus → Prop} (booted : Booted m binaries k₀)
    (hok : Executable ok) (run : Run (Undisturbed ok) k₀ k) : Exclusive ok none k := by
  obtain ⟨L, -, -, hidle⟩ := booted.memInv
  exact (hidle.exclusive ok).run hok (fun _ _ h => h) run

/-- In every reachable state no environment is the current one of two CPUs that execute
user code. -/
theorem runs_on_one_cpu (booted : Booted m binaries k₀) (run : Run (Undisturbed Executing) k₀ k)
    {c c' : Nat} {e : EnvIdx} (h : k.RunsOn c e) (h' : k.RunsOn c' e) : c = c' :=
  (booted.exclusive executing run).unique c c' e (by simp) (by simp) h h'

theorem runs_on_one_cpu_qemu : ∃ k₀ k, Booted qemu [intProgram] k₀ ∧
    Run (Undisturbed Executing) k₀ k ∧ k.RunsOn 0 0 ∧ ∀ c, k.RunsOn c 0 → c = 0 := by
  obtain ⟨k₀, k, d, d', hbooted, hrun, hfamily, -⟩ := qemu_family
  have hrun' : Run (Undisturbed Executing) k₀ k := hrun.mono fun _ _ h => h.safe.entry
  refine ⟨k₀, k, hbooted, hrun', hfamily.parent.runsOn, fun c hc => ?_⟩
  exact runs_on_one_cpu hbooted hrun' hc hfamily.parent.runsOn

/-- The parent makes its child runnable while CPU 1 executes it, and CPU 2 picks it up. -/
theorem runs_on_two_cpus : ∃ k₀ k, Booted qemu [intProgram] k₀ ∧ Run (fun _ _ => True) k₀ k ∧
    k.RunsOn 1 1 ∧ k.RunsOn 2 1 := by
  obtain ⟨k₀, k₁, d, d', hbooted, hrun, hfamily, hchild⟩ := qemu_family
  obtain ⟨k₂, hset, hlike⟩ :=
    hfamily.setsStatus (by decide) (show statusArg 2 = some .runnable by decide)
  obtain ⟨hstart, htwo, -⟩ := (hfamily.setStatus.like hlike).starts (by decide) (by decide)
  have hrun' := ((hrun.mono fun _ _ _ => trivial).tail ⟨_, trivial, hset⟩).tail ⟨_, trivial, hstart⟩
  refine ⟨k₀, _, hbooted, hrun', ?_, htwo.runsOn⟩
  have hcpu : (k₂.ran 2 1 d').cpus 1 = k₁.cpus 1 := by
    rw [Kernel.ran_cpus_of_ne (by decide), hlike.cpus]
    rfl
  rw [Kernel.RunsOn, Kernel.mode, Kernel.curenv, hcpu, hchild.cpu]
  exact ⟨rfl, rfl⟩

/-- The statuses that `trap` expects of the environment it comes from. -/
def Trapping (st : EnvStatus) : Prop := st = .running ∨ st = .dying

theorem trapping : Executable Trapping :=
  ⟨.inl rfl, .inr rfl, by simp [Trapping], by simp [Trapping]⟩

/-- The step is not a kernel entry of CPU `c`. -/
def Event.Outside (c : Nat) (ev : Event) : Prop := ev.cpu = c → ∃ va b, ev = .store c va b

/-- As long as CPU `c` makes no kernel entry, its environment stays the same one. -/
theorem Exclusive.persists {ok : EnvStatus → Prop} (h : Exclusive ok none k) (hok : Executable ok)
    {c : Nat} {e : EnvIdx} (hruns : k.RunsOn c e)
    (run : Run (fun k ev => Undisturbed ok k ev ∧ ev.Outside c) k k') :
    k'.RunsOn c e ∧ (k'.envs e).id = (k.envs e).id := by
  induction run with
  | refl => exact ⟨hruns, rfl⟩
  | @tail k₁ k₂ hrun last ih =>
      obtain ⟨ev, ⟨hsafe, hout⟩, hstep⟩ := last
      have h₁ : Exclusive ok none k₁ := h.run hok (fun _ _ hg => hg.1) hrun
      obtain ⟨hruns₁, hid⟩ := ih
      have hsame : k₁.Same k₂ → k₂.RunsOn c e ∧ (k₂.envs e).id = (k.envs e).id := by
        intro same
        rw [Kernel.RunsOn, Kernel.mode, Kernel.curenv, same.cpus, (same.envs e).id]
        exact ⟨hruns₁, hid⟩
      by_cases hc : ev.cpu = c
      · -- its own step is a store
        obtain ⟨va, b, rfl⟩ := hout hc
        cases hstep with
        | store mode walk user write => exact hsame (.phys k₁ _)
      · rcases h₁.step_cases hstep with same | ⟨lock, entry⟩
        · exact hsame same
        · have hused : k₁.status e ≠ .free := by
            obtain ⟨e', he', hstatus, -⟩ := h₁.user c (by simp) hruns₁.1
            obtain rfl : e = e' := Option.some.inj (hruns₁.2.symm.trans he')
            intro hfree
            rw [hfree] at hstatus
            exact hok.not_free hstatus
          rw [Kernel.RunsOn, Kernel.mode, Kernel.curenv, entry.cpus_of_ne (Ne.symm hc),
            entry.id h₁.slots hused]
          exact ⟨hruns₁, hid⟩

/-- A zombie is freed at its next kernel entry. -/
theorem MemInv.collects {L : Layout} {c : Nat} {e : EnvIdx} {tf : Trapframe} (h : MemInv L k)
    (runs : k.RunsOn c e) (lock : k.Unlocked) (zombie : k.status e = .dying)
    (ring : tf.cs &&& 3 = 3) (cr2 input : Word) :
    ∃ k', Step k (.trap c tf cr2 input) k' ∧ k'.status e = .free := by
  have used : k.status e ≠ .free := by
    rw [zombie]
    decide
  have hwp : wp (Jos.trap c tf cr2 input) (fun _ _ => False) (fun _ k' => k'.status e = .free)
      (fun _ => False) k := by
    rw [Jos.trap, when_pos _ ring, trapEnter, wp_bind, wp_bind, wp_get, runs.2]
    simp only [wp_ite]
    refine ⟨fun _ => ?_, fun alive => absurd zombie alive⟩
    rw [wp_bind]
    refine wp_mono (wp_and (h.envFree (c := c) used) (envFree_released (X := fun _ _ => False)))
      ?_ (fun _ _ hx => hx.1.elim) (fun _ he => he.1)
    rintro _ k₁ ⟨hmem₁, same⟩
    have hfree : (k₁.setCurenv c none).status e = .free := by
      have hstatus := (same.envs e).status
      rw [if_pos runs.2] at hstatus
      exact hstatus.trans (by simp [Kernel.released])
    have hidle : (k₁.setCurenv c none).curenv c = none := by
      simp [Kernel.setCurenv, Kernel.setCpu, Kernel.curenv]
    rw [wp_bind, wp_modify]
    have hyield := (hmem₁.setCpu (c := c) { k₁.cpus c with env := none }).schedYield (c := c)
      (Q := fun (_ : Unit) _ => False) (E := fun _ => False)
    refine wp_mono (wp_and hyield (schedYield_dispatch (Q := fun _ _ => False)))
      (fun _ _ hf => hf.1.elim) (fun _ k' hx => (hx.2.stays_free hfree hidle).1) (fun _ he => he.1)
  cases run : Jos.trap c tf cr2 input k with
  | ret u k' =>
      rw [wp_ret run] at hwp
      exact hwp.elim
  | exit u k' => exact ⟨k', .trap runs.1 lock ring run, (wp_exit_eq run).mp hwp⟩
  | panic why =>
      rw [wp_panic_eq run] at hwp
      exact hwp.elim

/-- A timer interrupt in user code. -/
def timerFrame : Trapframe := { Trapframe.fresh with trapno := irqTimer }

/-- In every reachable state a CPU in user mode has a current environment that is running or
is a zombie; whoever frees an environment, no other CPU has it as the current one; and what a
CPU finds in its slot when it traps is the environment that it left there. -/
theorem env_free_unshared (booted : Booted m binaries k₀) (run : Run (Undisturbed Trapping) k₀ k) :
    (∀ c, k.mode c = .user → ∃ e, k.curenv c = some e ∧ Trapping (k.status e)) ∧
      (∀ ev k' e, Undisturbed Trapping k ev → Step k ev k' → k.status e ≠ .free →
        k'.status e = .free → ∀ c, c ≠ ev.cpu → k.curenv c ≠ some e) ∧
      ∀ c e k', k.RunsOn c e → Run (fun k ev => Undisturbed Trapping k ev ∧ ev.Outside c) k k' →
        k'.RunsOn c e ∧ (k'.envs e).id = (k.envs e).id := by
  have h := booted.exclusive trapping run
  refine ⟨fun c mode => ?_, fun ev k' e hsafe hstep used freed c hc hcur => ?_,
    fun c e k' hruns hrun => h.persists trapping hruns hrun⟩
  · obtain ⟨e, he, hstatus, -⟩ := h.user c (by simp) mode
    exact ⟨e, he, hstatus⟩
  · rcases h.step_cases hstep with same | ⟨lock, entry⟩
    · exact used ((same.envs e).status.symm.trans freed)
    · -- the other CPU is in user mode, so after the step its environment is still executable
      have hmode : k'.mode c = .user := by
        rw [Kernel.mode, entry.cpus_of_ne hc]
        exact h.mode_of_curenv lock hcur
      have hcur' : k'.curenv c = some e := by
        rw [Kernel.curenv, entry.cpus_of_ne hc]
        exact hcur
      obtain ⟨e', he', hstatus, -⟩ := (h.step trapping hsafe hstep).user c (by simp) hmode
      obtain rfl : e = e' := Option.some.inj (hcur'.symm.trans he')
      rw [freed] at hstatus
      exact trapping.not_free hstatus

/-- The parent destroys the child that CPU 2 executes, and the next interrupt of CPU 2 frees
it. -/
theorem env_free_unshared_qemu : ∃ k₀ k k', Booted qemu [intProgram] k₀ ∧
    Run (Undisturbed Trapping) k₀ k ∧ k.RunsOn 0 0 ∧ k.RunsOn 2 1 ∧ k.status 1 = .dying ∧
    Step k (.trap 2 timerFrame 0 0) k' ∧ k'.status 1 = .free ∧
    ∀ c, c ≠ 2 → k.curenv c ≠ some 1 := by
  obtain ⟨k₀, k₁, d, d', f, hbooted, hclean, hshares, -, -⟩ := qemu_shares
  obtain ⟨k, hdoom, hlike⟩ := hshares.family.dooms
  have hrun : Run CleanStep k₀ k := hclean.tail ⟨_, hshares.family.clean_doom, hdoom⟩
  have hrun' : Run (Undisturbed Trapping) k₀ k := Run.mono hrun fun _ _ h => h.entry Trapping
  obtain ⟨L, -, -, hmem, -⟩ := hbooted.run (Run.mono hrun fun _ _ h => h.safe)
  have hzombie : k.status 1 = .dying := by
    rw [hlike.status]
    simp [Kernel.setStatus, Kernel.status]
  have hruns : k.RunsOn 2 1 := by
    rw [Kernel.RunsOn, Kernel.mode, Kernel.curenv, hlike.cpus]
    exact hshares.child.runsOn
  have hparent : k.RunsOn 0 0 := by
    rw [Kernel.RunsOn, Kernel.mode, Kernel.curenv, hlike.cpus]
    exact hshares.family.parent.runsOn
  have hlock : k.Unlocked := fun c => by
    rw [Kernel.mode, hlike.cpus]
    exact hshares.child.unlocked c
  have hring : timerFrame.cs &&& 3 = 3 := by decide
  obtain ⟨k', hstep, hfree⟩ := hmem.collects hruns hlock hzombie hring 0 0
  have hsafe : Undisturbed Trapping k (.trap 2 timerFrame 0 0) :=
    .of_calls fun _ hc => absurd hc.1 (by decide)
  exact ⟨k₀, k, k', hbooted, hrun', hparent, hruns, hzombie, hstep, hfree,
    (env_free_unshared hbooted hrun').2.1 _ _ 1 hsafe hstep (by rw [hzombie]; decide) hfree⟩

/-- The parent destroys its child twice while CPU 1 executes it. The second time the child is
no longer running but a zombie, and it is freed at once. -/
theorem env_free_while_running : ∃ k₀ k, Booted qemu [intProgram] k₀ ∧
    Run (fun _ _ => True) k₀ k ∧ k.RunsOn 1 1 ∧ k.status 1 = .free := by
  obtain ⟨k₀, k₁, d, d', hbooted, hrun, hfamily, hchild⟩ := qemu_family
  obtain ⟨k₂, hdoom, hlike⟩ := hfamily.dooms
  have hrun₂ : Run SafeStep k₀ k₂ :=
    (hrun.mono fun _ _ h => h.safe).tail ⟨_, hfamily.clean_doom.safe, hdoom⟩
  obtain ⟨L, -, -, hmem, -⟩ := hbooted.run hrun₂
  obtain ⟨k₃, hfree, hstatus, hcpus⟩ := (hfamily.setStatus.like hlike).frees hmem
  refine ⟨k₀, k₃, hbooted, (hrun₂.mono fun _ _ _ => trivial).tail ⟨_, trivial, hfree⟩, ?_, hstatus⟩
  rw [Kernel.RunsOn, Kernel.mode, Kernel.curenv, hcpus, hlike.cpus]
  exact hchild.runsOn

end Jos
