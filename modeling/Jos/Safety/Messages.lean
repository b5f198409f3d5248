import Jos.Safety.Family

/-!
# Messages go to environments that wait for one

Where no status change and no reuse of a slot carries `env_ipc_recving` over, a
message can only be sent to an environment that is blocked in `sys_ipc_recv`.
-/

namespace Jos

open Prog

variable {m : Machine} {binaries : List Binary} {k₀ k : Kernel}

/-- The step neither disturbs an environment that another CPU executes, nor makes one that
waits for a message runnable, nor reuses the slot of one that waited for a message. -/
structure MessageSafe (k : Kernel) (ev : Event) : Prop where
  entry : SafeEntry Executing k ev.cpu ev.frame
  clears : ClearsFlag k ev.cpu ev.frame

theorem Booted.flagSound (booted : Booted m binaries k₀) (run : Run MessageSafe k₀ k) :
    FlagSound none k ∧ Exclusive Executing none k := by
  obtain ⟨L, -, -, hidle⟩ := booted.memInv
  have hex := hidle.exclusive Executing
  have hflag : FlagSound none k₀ := by
    intro e _ hrecv
    rw [hidle.recving] at hrecv
    simp at hrecv
  exact ⟨hflag.run hex executing (fun _ _ h => h.entry) (fun _ _ h => h.clears) run,
    hex.run executing (fun _ _ h => h.entry) run⟩

/-- A send that succeeds had a target with the flag set. -/
theorem sysIpcTrySend_target {cur : EnvIdx} {envid value srcva perm : Word} {k' : Kernel}
    (h : sysIpcTrySend cur envid value srcva perm k = .ret 0 k') :
    ∃ dst, k.envid2env cur envid false = some dst ∧ (k.envs dst).ipcRecving = true := by
  have hid : sysGetenvid cur k = .ret (k.envs cur).id k := rfl
  rw [sysIpcTrySend, bind_ret _ hid] at h
  cases target : k.envid2env cur envid false with
  | none =>
      rw [bind_ret _ (envid2env_run target)] at h
      exact absurd (Outcome.ret.inj h).1 (by decide)
  | some dst =>
      rw [bind_ret _ (envid2env_run target)] at h
      dsimp only at h
      rw [get_bind] at h
      cases hrecv : (k.envs dst).ipcRecving with
      | false =>
          rw [if_pos hrecv] at h
          exact absurd (Outcome.ret.inj h).1 (by decide)
      | true => exact ⟨dst, rfl, hrecv⟩

/-- In every reachable state an environment with `env_ipc_recving` set is blocked in the call
of `sys_ipc_recv` that set it, and on no CPU; so a successful send had such a target. -/
theorem recving_blocked (booted : Booted m binaries k₀) (run : Run MessageSafe k₀ k) :
    (∀ e, k.status e ≠ .free → (k.envs e).ipcRecving = true →
      (k.envs e).Blocked ∧ ∀ c, ¬ k.RunsOn c e) ∧
      ∀ c cur tf envid value srcva perm k', k.RunsOn c cur →
        sysIpcTrySend cur envid value srcva perm (k.setTf cur tf) = .ret 0 k' →
        ∃ dst, k.envid2env cur envid false = some dst ∧ (k.envs dst).Blocked := by
  obtain ⟨hflag, hex⟩ := booted.flagSound run
  refine ⟨fun e hlive hrecv => ?_, fun c cur tf envid value srcva perm k' hruns hsend => ?_⟩
  · obtain ⟨hblocked, hidle⟩ := hflag e hlive hrecv
    exact ⟨hblocked, fun c => hidle c (by simp)⟩
  · obtain ⟨dst, htarget, hrecv⟩ := sysIpcTrySend_target hsend
    rw [Kernel.envid2env_setTf] at htarget
    have hrecv' : (k.envs dst).ipcRecving = true := by
      rw [← hrecv]
      exact (Kernel.setEnv_field (f := Env.ipcRecving) (by rfl) dst).symm
    have hcur : k.status cur ≠ .free := ((hex.enter executing hruns.1).own c cur rfl hruns.2).1
    exact ⟨dst, htarget, (hflag dst (MemInv.live_of_target hcur htarget) hrecv').1⟩

/-- The child waits for a message. -/
theorem recving_blocked_qemu : ∃ k₀ k, Booted qemu [intProgram] k₀ ∧ Run MessageSafe k₀ k ∧
    (k.envs 1).ipcRecving = true ∧ (k.envs 1).Blocked ∧ ∀ c, ¬ k.RunsOn c 1 := by
  obtain ⟨k₀, k₁, d, d', hbooted, hrun, hfamily, hchild⟩ := qemu_family
  obtain ⟨k, hrecv, hfamily', -, -, hflag, -⟩ :=
    hfamily.receives (by decide) hchild utop (by decide)
  have hcall := callFrame_calls .ipcRecv utop 0 0 0 0
  have hsafe : MessageSafe k₁ (.trap 1 (callFrame .ipcRecv utop 0 0 0 0) 0 0) :=
    ⟨.of_calls fun call hc => by rw [hc.unique hcall]; decide,
      .of_calls fun call hc => by rw [hc.unique hcall]; decide⟩
  have hrun' : Run MessageSafe k₀ k :=
    (hrun.mono fun _ _ h => ⟨h.safe.entry, h.clears⟩).tail ⟨_, hsafe, hrecv⟩
  have hlive : k.status 1 ≠ .free := by
    rw [hfamily'.child]
    decide
  exact ⟨k₀, k, hbooted, hrun', hflag, (recving_blocked hbooted hrun').1 1 hlive hflag⟩

/-- The parent makes its child runnable while the child waits for a message. -/
theorem recving_runnable : ∃ k₀ k, Booted qemu [intProgram] k₀ ∧ Run (fun _ _ => True) k₀ k ∧
    (k.envs 1).ipcRecving = true ∧ k.status 1 = .runnable := by
  obtain ⟨k₀, k₁, d, d', hbooted, hrun, hfamily, hchild⟩ := qemu_family
  obtain ⟨k₂, hrecv, hfamily₂, -, -, hflag, -⟩ :=
    hfamily.receives (by decide) hchild utop (by decide)
  obtain ⟨k₃, hset, hlike⟩ :=
    hfamily₂.setsStatus (by decide) (show statusArg 2 = some .runnable by decide)
  have hrun' := ((hrun.mono fun _ _ _ => trivial).tail ⟨_, trivial, hrecv⟩).tail ⟨_, trivial, hset⟩
  refine ⟨k₀, k₃, hbooted, hrun', ?_, (hfamily₂.setStatus.like hlike).child⟩
  rw [hlike.field (f := Env.ipcRecving) fun _ => rfl, ← hflag]
  exact Kernel.setEnv_field (f := Env.ipcRecving) (by rfl) 1

end Jos
