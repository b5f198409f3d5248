import Jos.Safety.Cputs
import Jos.Safety.Family
import Jos.User.Staged

/-!
# From the start of the machine to the first `fork`

The machine boots, and the first environment runs a program that begins with a `fork`.
-/

namespace Jos

open Prog

variable {S O : Type} {act : S → Actors.Action Word Word O S} {d d' n : Nat} {st st' : EnvStatus}
  {k k' : Kernel}

theorem World.enter_fresh (k : Kernel) (c : Nat) (k' : Kernel) :
    (World.fresh k).enter c k' = World.fresh k' :=
  World.enter_of_not_asked fun e _ req => by simp [World.fresh]

/-- An empty string is printed. -/
theorem Kernel.Executes.prints {c : Nat} {e : EnvIdx} (h : k.Executes c e d) :
    ∃ k', Step k (.trap c (callFrame .cputs 0 0 0 0 0) 0 0) k' ∧ k.Like k' := by
  have hlike := Kernel.Like.setTf k e (callFrame .cputs 0 0 0 0 0)
  have hx := hlike.executes h
  have hsys : syscall c e 0 (SysCall.cputs).number 0 0 0 0 0
      (k.setTf e (callFrame .cputs 0 0 0 0 0)) =
      .ret 0 (k.setTf e (callFrame .cputs 0 0 0 0 0)) := by
    rw [syscall, SysCall.ofNumber_number]
    dsimp only
    rw [sysCputs, bind_ret _ (userMemAssert_run hx.pgdir (userMemCheck_empty _ (by decide)))]
    rfl
  obtain ⟨k', hstep, hlike'⟩ := h.returns hsys hx
  exact ⟨k', hstep, hlike.trans hlike'⟩

/-- `sys_env_set_status` by the parent succeeds. -/
theorem Family.setsStatus_answer (h : Family d d' n st k) (live : st ≠ .free) {arg : Word}
    (harg : statusArg arg = some st')
    (step : Step k (.trap 0 (callFrame .envSetStatus 0x1001 arg 0 0 0) 0 0) k') :
    (k'.envs 0).tf.regs.eax = 0 := by
  generalize htf : callFrame .envSetStatus 0x1001 arg 0 0 0 = tf at step
  have hframe : tf.trapno = tSyscall ∧ tf.regs.eax = (SysCall.envSetStatus).number ∧
      tf.regs.edx = 0x1001 ∧ tf.regs.ecx = arg := by
    rw [← htf]
    exact ⟨rfl, rfl, rfl, rfl⟩
  obtain ⟨trapno, heax, hedx, hecx⟩ := hframe
  have htarget : (k.setTf 0 tf).envid2env 0 0x1001 true = some 1 := h.setTf.target live true
  have spec : wp (syscall 0 0 0 tf.regs.eax tf.regs.edx tf.regs.ecx tf.regs.ebx tf.regs.edi
      tf.regs.esi) (fun r k₁ => k₁.Executes 0 0 d ∧ r = 0) (fun _ _ => False) (fun _ => True)
      (k.setTf 0 tf) := by
    rw [heax, hedx, hecx, syscall, SysCall.ofNumber_number]
    dsimp only
    rw [sysEnvSetStatus, harg]
    dsimp only
    rw [wp_bind, wp_ret (envid2env_run htarget)]
    exact (wp_bind _ _).mpr ((wp_modify _).mpr ((wp_pure _).mpr ⟨h.setTf.setStatus.parent, rfl⟩))
  obtain ⟨r, -, rfl, -, -, hanswer, -⟩ := step.returns h.parent trapno spec
  exact hanswer

theorem FirstRuns.like (h : FirstRuns d k) (hl : k.Like k') : FirstRuns d k' := by
  refine ⟨hl.executes h.executes, ?_, ?_, ?_, ?_, fun e he => ?_, fun c hc => ?_, ?_, ?_⟩
  · rw [hl.field (f := Env.id) fun _ => rfl, h.id]
  · rw [hl.field (f := Env.ipcRecving) fun _ => rfl, h.recving]
  · rw [hl.phys]
    exact h.free
  · rw [hl.envFreeList, h.slots]
  · rw [hl.envs]
    exact h.others e he
  · rw [Kernel.curenv, Kernel.mode, hl.cpus]
    exact h.cpus c hc
  · rw [hl.phys, hl.dirs]
    exact h.mapped
  · rw [hl.phys, hl.dirs]
    exact h.unmapped

/-- There is one program, which has printed the lines `out`. -/
structure Alone (s : S) (out : List (Word × O)) (w : Stage S O) (k : Kernel) : Prop where
  world : w.world = .fresh k
  program : w.place 0 = some (.running s)
  others : ∀ e, e ≠ 0 → w.place e = none
  gone : ∀ i, w.gone i = none
  output : w.output = out

/-- The first program has forked, and the child has not started. -/
structure Launched (s child : S) (out : List (Word × O)) (w : Stage S O) (k : Kernel) : Prop where
  world : w.world = .fresh k
  parent : w.place 0 = some (.running s)
  child : w.place 1 = some (.running child)
  output : w.output = out

variable {s child next : S} {out : List (Word × O)} {w : Stage S O}

theorem Alone.fresh (k : Kernel) (s : S) : Alone s [] (Stage.fresh k 0 s : Stage S O) k :=
  ⟨rfl, Stage.fresh_place_self k 0 s, fun _ he => Stage.fresh_place_of_ne k s he, fun _ => rfl, rfl⟩

/-- CPU 0 executes the first program. -/
theorem qemu_begins (act : S → Actors.Action Word Word O S) (s : S) : ∃ k₀ k d,
    Booted qemu [intProgram] k₀ ∧ (k₀.envs 0).id = 0x1000 ∧ Run SafeStep k₀ k ∧ FirstRuns d k ∧
      Play act (Stage.fresh k₀ 0 s) (Stage.fresh k 0 s : Stage S O) := by
  obtain ⟨k₀, hbooted, hfirst, hcpus⟩ := qemu_boots
  obtain ⟨d, k, hstart, hruns⟩ := hfirst.runs hcpus
  have hid : (k₀.envs 0).id = 0x1000 := by
    obtain ⟨d, henv⟩ := hfirst.env
    rw [henv]
  have htrapno : (Event.start 0).frame.trapno ≠ tSyscall := show (0 : Word) ≠ tSyscall by decide
  have hplay : Play act (Stage.fresh k₀ 0 s) ((Stage.fresh k₀ 0 s : Stage S O).enter 0 k) :=
    .other htrapno hstart
  rw [Stage.enter, Stage.fresh, World.enter_fresh] at hplay
  exact ⟨k₀, k, d, hbooted, hid, .single ⟨.start 0, .start k₀ 0, hstart⟩, hruns, hplay⟩

/-- The first program prints a line. -/
theorem Alone.prints {line : O} (h : Alone s out w k) (hruns : FirstRuns d k)
    (prints : act s = .print line next) :
    ∃ k' w', Run SafeStep k k' ∧ FirstRuns d k' ∧ Play act w w' ∧
      Alone next (out ++ [(0x1000, line)]) w' k' := by
  obtain ⟨k', hstep, hlike⟩ := hruns.executes.prints
  have hcall := callFrame_calls .cputs 0 0 0 0 0
  have hkernel : w.kernel = k := by rw [Stage.kernel, h.world]; rfl
  have hprint : Play act w _ := .print (by rw [hkernel]; exact hruns.executes.runsOn) h.program
    (by rw [h.world]; rfl) prints hcall (by rw [hkernel]; exact hstep)
    (hlike.executes hruns.executes).runsOn
  refine ⟨k', _, .single ⟨_, .of_calls fun call hc => by rw [hc.unique hcall]; decide, hstep⟩,
    hruns.like hlike, hprint, ?_, ?_, fun e he => ?_, h.gone, ?_⟩
  · change w.world.enter 0 k' = _
    rw [h.world, World.enter_fresh]
  · exact Stage.setPlace_place_self (w.enter 0 k') 0 _
  · exact (Stage.setPlace_place_of_ne _ _ he).trans (h.others e he)
  · change w.output ++ [((w.kernel.envs 0).id, line)] = _
    rw [h.output, hkernel, hruns.id]

/-- The first program forks. -/
theorem Alone.launches {L : Layout} {f : Word → S} (h : Alone s out w k)
    (spawns : act s = .spawn child f) (hruns : FirstRuns d k) (hmem : MemInv L k)
    (slots : k.SlotsFree) :
    ∃ k' d' w', Run SafeStep k k' ∧ Relation.ReflTransGen (Play act) w w' ∧
      Launched (f 0x1001) child out w' k' ∧ Family d d' 1 .runnable k' := by
  obtain ⟨d', k₂, hfork, hfamily, -⟩ := hruns.forks hmem
  obtain ⟨k₃, hset, hlike⟩ :=
    hfamily.setsStatus (by decide) (show statusArg 2 = some .runnable by decide)
  have hfamily₃ : Family d d' 1 .runnable k₃ := hfamily.setStatus.like hlike
  have hrun₃ : Run SafeStep k k₃ := by
    have hforks := callFrame_calls .exofork 0 0 0 0 0
    have hsets := callFrame_calls .envSetStatus 0x1001 2 0 0 0
    refine Relation.ReflTransGen.tail (.single ⟨_, .of_calls fun call hc => ?_, hfork⟩) ⟨_, ?_, hset⟩
    · rw [hc.unique hforks]
      decide
    · refine SafeStep.setStatus hsets fun _ e _ _ ⟨c, hc, runs⟩ => ?_
      exact absurd ((hfamily.cpus c (by omega)).1.symm.trans runs.2) (by simp)
  have hkernel : w.kernel = k := by rw [Stage.kernel, h.world]; rfl
  -- `sys_exofork`
  have hanswer : (k₂.envs 0).tf.regs.eax = 0x1001 := by
    obtain ⟨-, hforks⟩ := hfork.forkStep hruns.executes slots (callFrame_calls ..)
    cases hforks with
    | @made x head answer id status others regs =>
        obtain rfl : 1 = x := Option.some.inj (hruns.slots.symm.trans head)
        rw [answer, ← id, hfamily.childId]
    | refused answer ids regs =>
        have hzero : (k.envs 1).id = 0 := congrArg Env.id (hruns.others 1 (by decide))
        have hchild := hfamily.childId
        rw [ids, hzero] at hchild
        exact absurd hchild (by decide)
  have hquiet : ∀ x, w.kernel.envFreeList = some x → Place.Quiet (w.place x) := fun x head => by
    rw [hkernel] at head
    obtain rfl : 1 = x := Option.some.inj (hruns.slots.symm.trans head)
    exact .inl (h.others 1 (by decide))
  have hnew : w.state 0x1001 = none := by
    rw [Stage.state, show envx 0x1001 = 1 by decide, h.others 1 (by decide), h.gone]
    exact ite_self _
  obtain ⟨w₂, hplay₂, hworld₂, hparent₂, hchild₂, houtput₂⟩ : ∃ w₂ : Stage S O,
      Play act w w₂ ∧ w₂.world = .fresh k₂ ∧
      w₂.place 0 = some (.forking 1 (f 0x1001)) ∧ w₂.place 1 = some (.embryo child) ∧
      w₂.output = out := by
    refine ⟨_, .fork (by rw [hkernel]; exact hruns.executes.runsOn) h.program
      (by rw [h.world]; rfl) spawns (callFrame_calls ..) hquiet (by rw [hkernel]; exact hfork)
      hanswer (by decide) hnew, ?_, ?_, ?_, h.output⟩
    · change w.world.enter 0 k₂ = _
      rw [h.world, World.enter_fresh]
    · rw [show envx 0x1001 = 1 by decide, Stage.setPlace_place_of_ne _ _ (by decide),
        Stage.setPlace_place_self]
    · exact Stage.setPlace_place_self _ _ _
  -- `sys_env_set_status`
  have hkernel₂ : w₂.kernel = k₂ := by rw [Stage.kernel, hworld₂]; rfl
  have hzero := hfamily.setsStatus_answer (by decide)
    (show statusArg 2 = some .runnable by decide) hset
  obtain ⟨w₃, hplay₃, hlaunched⟩ : ∃ w₃ : Stage S O, Play act w₂ w₃ ∧
      Launched (f 0x1001) child out w₃ k₃ := by
    refine ⟨_, .start (by rw [hkernel₂]; exact hfamily.parent.runsOn) hparent₂ hchild₂
      (by rw [hworld₂]; rfl) (callFrame_calls ..) (by rw [hkernel₂, hfamily.childId]; rfl) rfl
      (by rw [hkernel₂]; exact hset), ?_, ?_, ?_, houtput₂⟩
    · change w₂.world.enter 0 k₃ = _
      rw [hworld₂, World.enter_fresh]
    · rw [Stage.setPlace_place_self, hzero]
      rfl
    · rw [Stage.setPlace_place_of_ne _ _ (by decide)]
      exact Stage.setPlace_place_self _ _ _
  exact ⟨k₃, d', w₃, hrun₃, .tail (.single hplay₂) hplay₃, hlaunched, hfamily₃⟩

theorem qemu_launch {f : Word → S} (spawns : act s = .spawn child f) :
    ∃ k₀ k d d' w, Booted qemu [intProgram] k₀ ∧ (k₀.envs 0).id = 0x1000 ∧ Run SafeStep k₀ k ∧
      Relation.ReflTransGen (Play act) (Stage.fresh k₀ 0 s) w ∧ Launched (f 0x1001) child [] w k ∧
      Family d d' 1 .runnable k := by
  obtain ⟨k₀, k₁, d, hbooted, hid, hrun, hruns, hplay⟩ := qemu_begins act s
  obtain ⟨L, -, -, hmem, hex⟩ := hbooted.run hrun
  obtain ⟨k, d', w, hrun', hplays, hlaunched, hfamily⟩ :=
    (Alone.fresh k₁ s).launches spawns hruns hmem hex.slots
  exact ⟨k₀, k, d, d', w, hbooted, hid, hrun.trans hrun',
    (Relation.ReflTransGen.single hplay).trans hplays, hlaunched, hfamily⟩

/-- The next CPU starts the child. -/
theorem Launched.starts (act : S → Actors.Action Word Word O S) {d' : Nat}
    (h : Launched s child out w k) (hfamily : Family d d' 1 .runnable k) :
    ∃ w', Play act w w' ∧ Launched s child out w' (k.ran 1 1 d') := by
  obtain ⟨hstart, -⟩ := hfamily.starts (by decide) (by decide)
  have htrapno : (Event.start 1).frame.trapno ≠ tSyscall := show (0 : Word) ≠ tSyscall by decide
  refine ⟨_, .other htrapno (by rw [Stage.kernel, h.world]; exact hstart), ?_, h.parent, h.child,
    h.output⟩
  rw [Stage.enter_world, h.world, World.enter_fresh]

/-- The child runs on CPU 1 and waits for a message, the parent sends one, and CPU 2 picks the
child up. -/
theorem Launched.delivers {g : Word → Word → S} {v : Word} {k₀ : Kernel}
    (h : Launched s child out w k) (hbooted : Booted qemu [intProgram] k₀)
    (hrun : Run SafeStep k₀ k) (hfamily : Family d d' 1 .runnable k)
    (sends : act s = .send 0x1001 v next) (waits : act child = .receive g) :
    ∃ w' value src, Relation.ReflTransGen (Play act) w w' ∧
      w'.place 1 = some (.running (g value src)) ∧ w'.world.phase 1 = .outside ∧
      w'.output = out ∧ w'.kernel.Executes 2 1 d' := by
  have htrapno : (Event.start 2).frame.trapno ≠ tSyscall := show (0 : Word) ≠ tSyscall by decide
  -- the child starts
  obtain ⟨hstart₁, hchild₁, hfamily₁⟩ := hfamily.starts (by decide) (by decide)
  have hrun₁ := hrun.tail ⟨_, .start k 1, hstart₁⟩
  obtain ⟨w₁, hplay₁, hworld₁, hparent₁, hplace₁, houtput₁⟩ := h.starts act hfamily
  generalize k.ran 1 1 d' = k₁ at hchild₁ hfamily₁ hrun₁ hworld₁
  have hkernel₁ : w₁.kernel = k₁ := by rw [Stage.kernel, hworld₁]; rfl
  -- it waits
  obtain ⟨k₂, hrecv, hfamily₂, -, -, hflag, -, hidle, -⟩ :=
    hfamily₁.receives (by decide) hchild₁ utop (by decide)
  have hcall := callFrame_calls .ipcRecv utop 0 0 0 0
  have hrun₂ := hrun₁.tail ⟨_, .of_calls fun call hc => by rw [hc.unique hcall]; decide, hrecv⟩
  obtain ⟨w₂, hplay₂, hkernel₂, houtside₂, hasked₂, hparent₂, hplace₂, houtput₂⟩ : ∃ w₂,
      Play act w₁ w₂ ∧ w₂.kernel = k₂ ∧ w₂.world.phase 0 = .outside ∧
      w₂.world.phase 1 = .asked .recv ∧ w₂.place 0 = some (.running s) ∧
      w₂.place 1 = some (.running child) ∧ w₂.output = out := by
    have hnobody : ∀ e, k₂.RunsOn 1 e → ∀ req,
        (w₁.world.setPhase 1 (.asked .recv)).phase e ≠ .asked req :=
      fun e runs => absurd (hidle.symm.trans runs.2) (by simp)
    refine ⟨_, .recv (by rw [hkernel₁]; exact hchild₁.runsOn) hplace₁ (by rw [hworld₁]; rfl) waits
      hcall rfl (by rw [hkernel₁]; exact hrecv), World.enter_kernel, ?_, ?_, hparent₁, hplace₁,
      houtput₁⟩
    · rw [World.enter_of_not_asked hnobody, hworld₁]
      rfl
    · rw [World.enter_of_not_asked hnobody]
      exact w₁.world.setPhase_self 1 (.asked .recv)
  -- the parent sends
  obtain ⟨L, hsets, h₀, hmem, -⟩ := hbooted.run hrun₂
  have hexists : k₂.phys.LookupExists d utop := by
    intro _
    obtain ⟨-, -, -, -, hentry⟩ := hbooted.utop_mapped hsets h₀ hmem hfamily₂.parent.pgdir
    rw [hentry, pgnum_mkPte (by decide) (by decide), hmem.phys.npages, hsets.npages]
    decide
  obtain ⟨k₃, hsend, -, hlike⟩ : ∃ k₃, Step k₂ (sendEvent v utop 0) k₃ ∧ _ ∧
      (k₂.delivered 1 0x1000 v).Like k₃ :=
    hfamily₂.sendsValue hmem hflag (BitVec.le_refl utop) hexists
  have hfamily₃ : Family d d' 2 .runnable k₃ := (hfamily₂.delivered 0x1000 v).like hlike
  obtain ⟨w₃, hplay₃, hkernel₃, hasked₃, hplace₃, houtput₃⟩ : ∃ w₃,
      Relation.ReflTransGen (Play act) w₂ w₃ ∧ w₃.kernel = k₃ ∧
      w₃.world.phase 1 = .asked .recv ∧ w₃.place 1 = some (.running child) ∧ w₃.output = out := by
    have hruns : w₂.kernel.RunsOn 0 0 := by
      rw [hkernel₂]
      exact hfamily₂.parent.runsOn
    have hbegin := Play.begin hruns hparent₂ houtside₂ sends
    refine ⟨_, (Relation.ReflTransGen.single hbegin).tail (.trySend hruns hparent₂
      (World.setPhase_self _ _ _) sends sendEvent_calls rfl (by
        change Step w₂.kernel (sendEvent v utop 0) k₃
        rw [hkernel₂]
        exact hsend)), World.enter_kernel, ?_, ?_, houtput₂⟩
    · refine ((World.answers hfamily₃.parent.runsOn (World.setPhase_self _ 0 _)).2.2 1
        (by decide)).1.trans ?_
      refine (World.setPhase_of_ne _ _ (by decide)).trans ?_
      exact (w₂.world.setPhase_of_ne _ (by decide)).trans hasked₂
    · exact (Stage.setPlace_place_of_ne _ _ (by decide)).trans hplace₂
  -- another CPU picks the child up
  obtain ⟨hstart₄, hchild₄, -⟩ := hfamily₃.starts (by decide) (by decide)
  obtain ⟨w₄, hplay₄, hkernel₄, ⟨r, hphase₄⟩, hplace₄, houtput₄⟩ : ∃ w₄, Play act w₃ w₄ ∧
      w₄.kernel = k₃.ran 2 1 d' ∧ (∃ r, w₄.world.phase 1 = .answered .recv r) ∧
      w₄.place 1 = some (.running child) ∧ w₄.output = out := by
    obtain ⟨hkernel, ⟨r, hphase, -⟩, -⟩ := World.answers hchild₄.runsOn hasked₃
    exact ⟨_, .other htrapno (by rw [hkernel₃]; exact hstart₄), hkernel, ⟨r, hphase⟩, hplace₃,
      houtput₃⟩
  -- it reads the fields
  obtain ⟨w₅, sender, hplay₅, hkernel₅, hphase₅, hplace₅, houtput₅⟩ : ∃ w₅ sender, Play act w₄ w₅ ∧
      w₅.kernel = k₃.ran 2 1 d' ∧ w₅.world.phase 1 = .reading r sender ∧
      w₅.place 1 = some (.running child) ∧ w₅.output = out :=
    ⟨_, _, .goOn (by rw [hkernel₄]; exact hchild₄.runsOn) (by rw [hphase₄]; simp)
      (by rw [hphase₄]; exact .readFrom), hkernel₄, World.setPhase_self _ _ _, hplace₄, houtput₄⟩
  refine ⟨_, _, _, (((((Relation.ReflTransGen.single hplay₁).tail hplay₂).trans hplay₃).tail
    hplay₄).tail hplay₅).tail (.receive (by rw [hkernel₅]; exact hchild₄.runsOn) hplace₅ waits
    (by rw [hphase₅]; exact .readValue)), Stage.setPlace_place_self _ _ _,
    World.setPhase_self _ _ _, houtput₅, ?_⟩
  change w₅.kernel.Executes 2 1 d'
  rw [hkernel₅]
  exact hchild₄

/-- What programs do on the kernel, actors do that know nothing of it: the states of the programs
are those of the actors, what was sent to a program has been returned by `ipc_recv` or is the mail of
its actor, which is at most one message, and the next step is one action of an actor or none. -/
theorem programs_are_actors {k : Kernel} {e : EnvIdx} {s : S} {w : Stage S O}
    (start : (World.fresh k).Start) (slot : envx (k.envs e).id = e)
    (plays : Relation.ReflTransGen (Play act) (Stage.fresh k e s) w) :
    Actors.Run act (.single (k.envs e).id s) w.view ∧
      (∀ e p, w.place e = some p → w.view.state (w.kernel.envs e).id = some p.state ∧
        w.world.sent e = w.world.received e ++ w.view.mail (w.kernel.envs e).id ∧
        (w.view.mail (w.kernel.envs e).id).length ≤ 1) ∧
      ∀ w', Play act w w' → w'.view = w.view ∨ Actors.Step act w.view w'.view := by
  have hinv := ((Stage.fresh_inv start slot).plays plays).1
  refine ⟨Stage.run_of_plays start slot plays, fun e p place => ?_,
    fun w' play => (hinv.play play).2⟩
  have hslot := hinv.slots e p place
  rw [Stage.view_state_id hslot, Stage.view_mail_id hslot, hinv.mail, place]
  refine ⟨rfl, (hinv.world.faithful e).exact, ?_⟩
  rw [Phase.unread]
  split
  · exact le_rfl
  · exact Nat.zero_le 1

/-- The first environment forks a child that ends. -/
theorem programs_are_actors_first :
    ∃ (act : Bool → Actors.Action Word Word Unit Bool) (k₀ : Kernel) (w : Stage Bool Unit),
      Booted qemu [intProgram] k₀ ∧ Relation.ReflTransGen (Play act) (Stage.fresh k₀ 0 true) w ∧
      Actors.Run act (.single 0x1000 true) w.view ∧ w.view.state 0x1001 = some false := by
  let act : Bool → Actors.Action Word Word Unit Bool :=
    fun s => if s then .spawn false fun _ => false else .stop
  have hspawns : act true = .spawn false fun _ => false := rfl
  obtain ⟨k₀, k, d, d', w, hbooted, hid, -, hplays, hlaunched, hfamily⟩ := qemu_launch hspawns
  obtain ⟨hrun, hview, -⟩ := programs_are_actors hbooted.start (by rw [hid]; decide) hplays
  have hchild : (w.kernel.envs 1).id = 0x1001 := by
    rw [Stage.kernel, hlaunched.world]
    exact hfamily.childId
  have hstate := (hview 1 _ hlaunched.child).1
  rw [hid] at hrun
  rw [hchild] at hstate
  exact ⟨act, k₀, w, hbooted, hplays, hrun, hstate⟩

end Jos
