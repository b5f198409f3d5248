import Jos.Safety.Messages
import Jos.Safety.Scheduling
import Jos.Safety.Sending
import Jos.Sched.Answers
import Jos.User.Ipc

/-!
# Every message is received once

Any number of environments that send each other values with `ipc_send` and wait for them with
`ipc_recv`, on any number of CPUs. A successful send leaves its message in the fields of a
target that waits in `sys_ipc_recv`, and the target reads them before it waits again; the
fields belong to the sender until the one wakes up and to the receiver until the other waits.
-/

namespace Jos

open Prog

/-- The message of a call of `e`, if its result `r` says that it got through. -/
def Request.message (k : Kernel) (e : EnvIdx) (r : Word) : Request → List Message
  | .trySend toEnv value perm =>
      if r = 0 then
        ((k.envid2env e toEnv false).map fun dst =>
          ⟨dst, (k.envs e).id, value, sendArg 0, perm⟩).toList
      else []
  | _ => []

/-- The machine and the programs on it. `log` has the messages of the calls of
`sys_ipc_try_send` that returned 0, and `received` what the calls of `ipc_recv` returned. -/
structure World where
  kernel : Kernel
  phase : EnvIdx → Phase
  log : List Message
  received : EnvIdx → List (Word × Word)

namespace World

def setPhase (w : World) (e : EnvIdx) (φ : Phase) : World :=
  { w with phase := Function.update w.phase e φ }

/-- The CPU `c` has left the kernel with the state `k`. The environment that it executes now
finds the result of its system call in `%eax`. -/
def enter (w : World) (c : Nat) (k : Kernel) : World :=
  if k.mode c = .user then
    match k.curenv c with
    | none => { w with kernel := k }
    | some e =>
        match w.phase e with
        | .asked req =>
            { w with
              kernel := k
              phase := Function.update w.phase e (.answered req (k.envs e).tf.regs.eax)
              log := w.log ++ req.message w.kernel e (k.envs e).tf.regs.eax }
        | _ => { w with kernel := k }
  else { w with kernel := k }

/-- The messages to `e`, as pairs of the value and the sender. -/
def sent (w : World) (e : EnvIdx) : List (Word × Word) :=
  (w.log.filter (·.dst = e)).map fun msg => (msg.value, msg.sender)

end World

/-- From the call of `sys_ipc_recv` to the last read of `ipc_recv`. -/
def Phase.inRecv : Phase → Bool
  | .asked .recv => true
  | .answered .recv _ => true
  | .reading _ _ => true
  | _ => false

/-- What an environment in `ipc_recv` has been sent there and has not returned yet. -/
def Phase.unread (φ : Phase) (i : Inbox) : List (Word × Word) :=
  if φ.inRecv ∧ i.recving = false then [(i.value, i.sender)] else []

/-- One step of a program or of the machine: user code that the CPU `c` executes, a system call
that it makes, or anything but a system call. -/
inductive Move : World → World → Prop
  | compute {w : World} {c : Nat} {e : EnvIdx} {φ : Phase} {out : List (Word × Word)}
      (runs : w.kernel.RunsOn c e)
      (computes : Phase.Computes (w.kernel.inbox e) (w.phase e) φ out) :
      Move w { w.setPhase e φ with
        received := Function.update w.received e (w.received e ++ out) }
  | call {w : World} {c : Nat} {e : EnvIdx} {φ : Phase} {tf : Trapframe} {cr2 input : Word}
      {k' : Kernel} (runs : w.kernel.RunsOn c e) (asks : Phase.Asks tf (w.phase e) φ)
      (step : Step w.kernel (.trap c tf cr2 input) k') : Move w ((w.setPhase e φ).enter c k')
  | other {w : World} {ev : Event} {k' : Kernel} (trapno : ev.frame.trapno ≠ tSyscall)
      (step : Step w.kernel ev k') : Move w (w.enter ev.cpu k')

/-- The programs have not started: nobody is in `ipc_recv` or `ipc_send`, and nobody ever was. -/
structure World.Start (w : World) : Prop where
  exclusive : Exclusive Trapping none w.kernel
  alive : ∀ e, w.kernel.status e ≠ .dying
  recving : ∀ e, (w.kernel.inbox e).recving = false
  phase : ∀ e, w.phase e = .outside
  log : w.log = []
  received : ∀ e, w.received e = []

/-- The programs that are in `k` have just been started. -/
def World.fresh (k : Kernel) : World := ⟨k, fun _ => .outside, [], fun _ => []⟩

/-! ### One receiver -/

/-- How the phase of an environment, its fields and its saved `%eax` go together with the
messages that it has received, `l`, and those that were sent to it, `l'`. -/
structure Faithful (φ : Phase) (i : Inbox) (eax : Word) (l l' : List (Word × Word)) : Prop where
  /-- `sys_ipc_try_send` does not block. -/
  prompt : ∀ toEnv value perm, φ ≠ .asked (.trySend toEnv value perm)
  waiting : i.recving = true → φ = .asked .recv
  woken : φ = .asked .recv → i.recving = false → eax = 0
  answer : ∀ r, φ = .answered .recv r → r = 0
  reading : ∀ r sender, φ = .reading r sender → r = 0 ∧ sender = i.sender
  exact : l' = l ++ φ.unread i

namespace Faithful

variable {φ φ' : Phase} {i : Inbox} {eax eax' : Word} {l l' out : List (Word × Word)}

theorem unread_of_not (h : φ.inRecv = false) (i : Inbox) : φ.unread i = [] := by
  rw [Phase.unread, if_neg]
  rintro ⟨hin, -⟩
  exact absurd (h.symm.trans hin) (by decide)

/-- Outside of `ipc_recv` nothing is left to read. -/
theorem of_not_inRecv (hin : φ.inRecv = false) (prompt : ∀ toEnv value perm,
    φ ≠ .asked (.trySend toEnv value perm)) (clear : i.recving = false) (exact : l' = l) :
    Faithful φ i eax l l' where
  prompt := prompt
  waiting h := absurd (clear.symm.trans h) (by decide)
  woken h := by simp [h, Phase.inRecv] at hin
  answer r h := by simp [h, Phase.inRecv] at hin
  reading r sender h := by simp [h, Phase.inRecv] at hin
  exact := by rw [unread_of_not hin, exact, List.append_nil]

theorem clear (h : Faithful φ i eax l l') (hφ : φ ≠ .asked .recv) : i.recving = false := by
  by_contra hrecv
  exact hφ (h.waiting (by simpa using hrecv))

/-- The registers that were saved do not matter but after a wake-up. -/
theorem setEax (h : Faithful φ i eax l l') (hφ : φ ≠ .asked .recv) : Faithful φ i eax' l l' where
  prompt := h.prompt
  waiting := h.waiting
  woken heq := absurd heq hφ
  answer := h.answer
  reading := h.reading
  exact := h.exact

/-- Nothing happens outside of `ipc_recv`. -/
theorem change (h : Faithful φ i eax l l') (after : φ'.inRecv = false) (before : φ.inRecv = false)
    (prompt : ∀ toEnv value perm, φ' ≠ .asked (.trySend toEnv value perm)) :
    Faithful φ' i eax' l l' := by
  have hexact := h.exact
  rw [unread_of_not before, List.append_nil] at hexact
  refine of_not_inRecv after prompt (h.clear fun heq => ?_) hexact
  rw [heq] at before
  exact absurd before (by decide)

/-- A step in user mode. -/
theorem computes (h : Faithful φ i eax l l') (step : Phase.Computes i φ φ' out) :
    Faithful φ' i eax (l ++ out) l' := by
  have hexact := h.exact
  have quiet : φ.inRecv = false → φ'.inRecv = false → (∀ toEnv value perm,
      φ' ≠ .asked (.trySend toEnv value perm)) → Faithful φ' i eax (l ++ []) l' := by
    intro before after prompt
    rw [List.append_nil]
    exact h.change after before prompt
  cases step with
  | send toEnv value perm => exact quiet rfl rfl (by simp)
  | panics error other => exact quiet rfl rfl (by simp)
  | sent fine arrived => exact quiet rfl rfl (by simp)
  | again => exact quiet rfl rfl (by simp)
  | yielded => exact quiet rfl rfl (by simp)
  | @readFrom r =>
      obtain rfl := h.answer r rfl
      exact ⟨by simp, fun hrecv => absurd (h.waiting hrecv) (by simp), by simp, by simp,
        fun r sender heq => by
          obtain ⟨rfl, rfl⟩ := Phase.reading.inj heq
          exact ⟨rfl, if_neg (by decide)⟩, by rw [List.append_nil]; exact hexact⟩
  | @readValue r sender =>
      -- the value is still the one that came with the sender
      obtain ⟨rfl, rfl⟩ := h.reading r sender rfl
      have clear := h.clear (by simp)
      rw [Phase.unread, if_pos ⟨rfl, clear⟩] at hexact
      refine of_not_inRecv rfl (by simp) clear ?_
      rw [hexact, Inbox.recvValue, if_neg (by decide)]

/-- `sys_ipc_recv`. -/
theorem await (h : Faithful .outside i eax l l') (va : Word) :
    Faithful (.asked .recv) (i.await va) eax' l l' where
  prompt := by simp
  waiting _ := rfl
  woken _ hclear := absurd hclear (by simp [Inbox.await])
  answer := by simp
  reading := by simp
  exact := by
    have hexact := h.exact
    rw [unread_of_not rfl, List.append_nil] at hexact
    rw [hexact, Phase.unread, if_neg (by simp [Inbox.await]), List.append_nil]

/-- A message arrives. -/
theorem put (h : Faithful φ i eax l l') (recving : i.recving = true) (msg : Message) :
    Faithful φ (i.put msg) 0 l (l' ++ [(msg.value, msg.sender)]) := by
  obtain rfl := h.waiting recving
  have hexact := h.exact
  rw [Phase.unread, if_neg (by simp [recving]), List.append_nil] at hexact
  refine ⟨by simp, fun _ => rfl, fun _ _ => rfl, by simp, by simp, ?_⟩
  rw [hexact, Phase.unread, if_pos ⟨rfl, rfl⟩, Inbox.put]

/-- Back in user mode the result is in `%eax`. -/
theorem enter {req : Request} (h : Faithful (.asked req) i eax l l') (clear : i.recving = false) :
    Faithful (.answered req eax) i eax' l l' := by
  cases req with
  | recv =>
      obtain rfl := h.woken rfl clear
      refine ⟨by simp, fun hrecv => absurd (clear.symm.trans hrecv) (by decide), by simp,
        fun r heq => ?_, by simp, h.exact⟩
      obtain ⟨-, rfl⟩ := Phase.answered.inj heq
      rfl
  | trySend toEnv value perm => exact h.change rfl rfl (by simp)
  | retry toEnv value perm => exact h.change rfl rfl (by simp)
  | yield => exact h.change rfl rfl (by simp)

end Faithful

theorem Phase.Computes.not_asked {i : Inbox} {φ φ' : Phase} {out : List (Word × Word)}
    (h : Phase.Computes i φ φ' out) (req : Request) : φ' ≠ .asked req := by
  cases h <;> simp

/-! ### All of them -/

/-- The invariant; `inside` is the CPU that is about to leave the kernel, if any. Whoever
executes user code on another CPU is in no system call. -/
structure World.Inv (inside : Option Nat) (w : World) : Prop where
  exclusive : Exclusive Trapping none w.kernel
  sound : FlagSound none w.kernel
  alive : ∀ e, w.kernel.status e ≠ .dying
  active : ∀ c e, inside ≠ some c → w.kernel.RunsOn c e → ∀ req, w.phase e ≠ .asked req
  faithful : ∀ e, Faithful (w.phase e) (w.kernel.inbox e) (w.kernel.envs e).tf.regs.eax
    (w.received e) (w.sent e)

namespace World

variable {w w' : World} {k' : Kernel} {c : Nat} {e : EnvIdx} {φ : Phase} {tf : Trapframe}
  {ev : Event}

theorem Start.inv (h : w.Start) : w.Inv none where
  exclusive := h.exclusive
  sound e _ hrecv := absurd ((h.recving e).symm.trans hrecv) (by decide)
  alive := h.alive
  active c e _ _ req := by simp [h.phase e]
  faithful e := by
    rw [h.phase e]
    refine .of_not_inRecv rfl (by simp) (h.recving e) ?_
    rw [World.sent, h.log, h.received e]
    rfl

/-- Nobody has been waiting for a result on this CPU. -/
theorem enter_of_not_asked (h : ∀ e, k'.RunsOn c e → ∀ req, w.phase e ≠ .asked req) :
    w.enter c k' = { w with kernel := k' } := by
  rw [World.enter]
  split
  · rename_i mode
    cases own : k'.curenv c with
    | none => rfl
    | some e =>
        cases hφ : w.phase e with
        | asked req => exact absurd hφ (h e ⟨mode, own⟩ req)
        | _ => simp [hφ]
  · rfl

theorem enter_asked {req : Request} (runs : k'.RunsOn c e) (h : w.phase e = .asked req) :
    w.enter c k' = { w with
      kernel := k'
      phase := Function.update w.phase e (.answered req (k'.envs e).tf.regs.eax)
      log := w.log ++ req.message w.kernel e (k'.envs e).tf.regs.eax } := by
  rw [World.enter, if_pos runs.1, runs.2]
  simp only [h]

@[simp] theorem setPhase_kernel (w : World) (e : EnvIdx) (φ : Phase) :
    (w.setPhase e φ).kernel = w.kernel := rfl

@[simp] theorem setPhase_log (w : World) (e : EnvIdx) (φ : Phase) :
    (w.setPhase e φ).log = w.log := rfl

@[simp] theorem setPhase_received (w : World) (e : EnvIdx) (φ : Phase) :
    (w.setPhase e φ).received = w.received := rfl

@[simp] theorem setPhase_self (w : World) (e : EnvIdx) (φ : Phase) :
    (w.setPhase e φ).phase e = φ := by
  simp [setPhase]

theorem setPhase_of_ne (w : World) (φ : Phase) {e' : EnvIdx} (h : e' ≠ e) :
    (w.setPhase e φ).phase e' = w.phase e' := Function.update_of_ne h _ _

theorem setPhase_other (w : World) (φ : Phase) (runs : w.kernel.RunsOn c e) (e' : EnvIdx)
    (h : ¬ w.kernel.RunsOn c e') : (w.setPhase e φ).phase e' = w.phase e' := by
  refine w.setPhase_of_ne φ ?_
  rintro rfl
  exact h runs

theorem message_sent {k : Kernel} {dst : EnvIdx} {toEnv value perm r : Word} (hr : r = 0)
    (target : k.envid2env e toEnv false = some dst) :
    (Request.trySend toEnv value perm).message k e r =
      [⟨dst, (k.envs e).id, value, sendArg 0, perm⟩] := by
  simp [Request.message, hr, target]

theorem message_failed {k : Kernel} {toEnv value perm r : Word} (hr : r ≠ 0) :
    (Request.trySend toEnv value perm).message k e r = [] := if_neg hr

/-- Another message for `e`. -/
theorem sent_append_self (w : World) {msg : Message} (h : msg.dst = e) :
    World.sent { w with log := w.log ++ [msg] } e = w.sent e ++ [(msg.value, msg.sender)] := by
  simp [World.sent, List.filter_append, h]

theorem sent_append_other (w : World) {msg : Message} (h : msg.dst ≠ e) :
    World.sent { w with log := w.log ++ [msg] } e = w.sent e := by
  simp [World.sent, List.filter_append, h]

/-- The way out only changes the phase of who waits for a result. -/
theorem enter_phase (h : ∀ req, w.phase e ≠ .asked req) : (w.enter c k').phase e = w.phase e := by
  by_cases hasked : ∃ e' req, k'.RunsOn c e' ∧ w.phase e' = .asked req
  · obtain ⟨e', req, runs, heq⟩ := hasked
    rw [enter_asked runs heq]
    refine Function.update_of_ne ?_ _ _
    rintro rfl
    exact h req heq
  · rw [enter_of_not_asked fun e' runs req heq => hasked ⟨e', req, runs, heq⟩]

/-- The system call of the step, if it is one, is among those of the programs. -/
def Programs (ev : Event) : Prop :=
  ∀ call, ev.frame.Calls call →
    call ∈ [SysCall.yield, .ipcRecv, .ipcTrySend, .cputs, .cgetc, .getenvid]

namespace Inv

/-- An environment that a CPU executes runs, and waits for nothing. -/
theorem running (h : w.Inv none) (runs : w.kernel.RunsOn c e) :
    w.kernel.status e = .running ∧ (w.kernel.envs e).ipcRecving = false := by
  obtain ⟨e', own, hstatus, -⟩ := h.exclusive.user c (by simp) runs.1
  obtain rfl : e = e' := Option.some.inj (runs.2.symm.trans own)
  refine ⟨hstatus.resolve_right (h.alive e), ?_⟩
  exact (h.faithful e).clear (h.active c e (by simp) runs .recv)

/-- The calls that programs make do not touch other environments, messages apart. -/
theorem safe (h : w.Inv none) (programs : Programs ev) :
    SafeEntry Trapping w.kernel ev.cpu ev.frame := by
  refine ⟨fun _ _ _ _ hc => absurd (programs _ hc) (by decide),
    fun _ _ _ hc => absurd (programs _ hc) (by decide), fun cur e enters _ target recving => ?_⟩
  rintro ⟨c, -, runs⟩
  exact absurd (recving.symm.trans (h.running runs).2) (by decide)

/-- A step of the machine, before the programs notice. In the new state `e` has the phase
`φ e`, and its own phase can only be new if it made the step. -/
theorem step_of_safe (h : w.Inv none) (safe : SafeEntry Trapping w.kernel ev.cpu ev.frame)
    (clears : ClearsFlag w.kernel ev.cpu ev.frame) (alive : ∀ e, k'.status e ≠ .dying)
    (step : Step w.kernel ev k')
    {phase : EnvIdx → Phase} (phase_eq : ∀ e, ¬ w.kernel.RunsOn ev.cpu e → phase e = w.phase e)
    {log : List Message} (faithful : ∀ e, Faithful (phase e) (k'.inbox e)
      (k'.envs e).tf.regs.eax (w.received e) (World.sent { w with log } e)) :
    World.Inv (some ev.cpu) ⟨k', phase, log, w.received⟩ := by
  refine ⟨h.exclusive.step trapping safe step, h.sound.step h.exclusive trapping safe clears step,
    alive, fun c e hc runs req => ?_, faithful⟩
  have hne : c ≠ ev.cpu := fun heq => hc (congrArg some heq.symm)
  have hcpu : k'.cpus c = w.kernel.cpus c := by
    rcases h.exclusive.step_cases step with same | ⟨-, entry⟩
    · rw [same.cpus]
    · exact entry.cpus_of_ne hne
  have runs₀ : w.kernel.RunsOn c e := by
    rw [Kernel.RunsOn, Kernel.mode, Kernel.curenv, ← hcpu]
    exact runs
  change phase e ≠ .asked req
  rw [phase_eq e fun own => hne (h.exclusive.unique c ev.cpu e (by simp) (by simp) runs₀ own)]
  exact h.active c e (by simp) runs₀ req

/-- A step for messages, or one that does not concern other environments. -/
theorem step (h : w.Inv none) (programs : Programs ev) (step : Step w.kernel ev k')
    {phase : EnvIdx → Phase} (phase_eq : ∀ e, ¬ w.kernel.RunsOn ev.cpu e → phase e = w.phase e)
    {log : List Message} (faithful : ∀ e, Faithful (phase e) (k'.inbox e)
      (k'.envs e).tf.regs.eax (w.received e) (World.sent { w with log } e)) :
    World.Inv (some ev.cpu) ⟨k', phase, log, w.received⟩ := by
  refine h.step_of_safe (h.safe programs) (.of_calls fun call hc hmem => ?_) ?_ step phase_eq
    faithful
  · have := programs call hc
    cases call <;> simp at this hmem
  · rcases h.exclusive.step_cases step with same | ⟨-, entry⟩
    · exact same.noZombie h.alive
    · exact entry.noZombie (fun hc => absurd (programs _ hc) (by decide)) h.alive

/-- The registers of an environment that is not on the CPU of a step. -/
theorem tf_eq (h : w.Inv none) (programs : Programs ev) (send : ¬ ev.frame.Calls .ipcTrySend)
    (step : Step w.kernel ev k') (idle : ¬ w.kernel.RunsOn ev.cpu e) :
    (k'.envs e).tf = (w.kernel.envs e).tf := by
  rcases h.exclusive.step_cases step with same | ⟨lock, entry⟩
  · exact (same.envs e).tf
  · refine entry.tf_eq (fun hc => absurd (programs _ hc) (by decide)) send fun own => idle ?_
    exact ⟨h.exclusive.mode_of_curenv lock own, own⟩

/-- The CPU has left the kernel. -/
theorem close (h : w.Inv (some c))
    (phase : ∀ e, w.kernel.RunsOn c e → ∀ req, w.phase e ≠ .asked req) : w.Inv none := by
  refine ⟨h.exclusive, h.sound, h.alive, fun c' e _ runs req => ?_, h.faithful⟩
  by_cases hc : c' = c
  · subst hc
    exact phase e runs req
  · exact h.active c' e (fun heq => hc (Option.some.inj heq).symm) runs req

/-- The CPU goes on with user code. -/
theorem leave (h : World.Inv (some c) { w with kernel := k' }) : (w.enter c k').Inv none := by
  by_cases hasked : ∃ e req, k'.RunsOn c e ∧ w.phase e = .asked req
  · obtain ⟨e, req, runs, heq⟩ := hasked
    have hself : Faithful (w.phase e) (k'.inbox e) (k'.envs e).tf.regs.eax (w.received e)
      (w.sent e) := h.faithful e
    rw [heq] at hself
    have hmessage : req.message w.kernel e (k'.envs e).tf.regs.eax = [] := by
      cases req with
      | trySend toEnv value perm => exact absurd rfl (hself.prompt toEnv value perm)
      | retry toEnv value perm => rfl
      | yield => rfl
      | recv => rfl
    have clear : (k'.inbox e).recving = false := by
      obtain ⟨e', own, hstatus, -⟩ := h.exclusive.user c (by simp) runs.1
      obtain rfl : e = e' := Option.some.inj (runs.2.symm.trans own)
      by_contra hrecv
      have hused : k'.status e ≠ .free := fun hf => trapping.not_free (hf ▸ hstatus)
      exact (h.sound e hused ((Bool.not_eq_false _).mp hrecv)).2 c (by simp) runs
    rw [enter_asked runs heq, hmessage, List.append_nil]
    refine ⟨h.exclusive, h.sound, h.alive, fun c' e' _ runs' req' => ?_, fun e' => ?_⟩
    · change Function.update w.phase e _ e' ≠ _
      by_cases he : e' = e
      · rw [he, Function.update_self]
        simp
      · rw [Function.update_of_ne he]
        refine h.active c' e' (fun hc => he ?_) runs' req'
        obtain rfl := Option.some.inj hc
        exact Option.some.inj (runs'.2.symm.trans runs.2)
    · change Faithful (Function.update w.phase e _ e') _ _ _ _
      by_cases he : e' = e
      · subst he
        rw [Function.update_self]
        exact hself.enter clear
      · rw [Function.update_of_ne he]
        exact h.faithful e'
  · have hphase : ∀ e, k'.RunsOn c e → ∀ req, w.phase e ≠ .asked req :=
      fun e runs req heq => hasked ⟨e, req, runs, heq⟩
    rw [enter_of_not_asked hphase]
    exact h.close hphase

theorem parked (h : w.Inv none) (mode : w.kernel.mode c = .starting ∨ w.kernel.mode c = .halted) :
    w.kernel.curenv c = none := by
  refine h.exclusive.parked c (by simp) ?_ ?_
  · rcases mode with hm | hm <;> rw [hm] <;> decide
  · rcases mode with hm | hm <;> rw [hm] <;> decide

/-- A step that is no call for messages leaves all fields alone. -/
theorem quiet (h : w.Inv none) (step : Step w.kernel ev k') (send : ¬ ev.frame.Calls .ipcTrySend)
    (recv : ¬ ev.frame.Calls .ipcRecv) : k'.inbox = w.kernel.inbox := by
  cases step.ipcStep h.parked with
  | quiet unsent unasked same => exact same
  | send sends recving put => exact absurd sends.call send
  | receive receives await => exact absurd receives.call recv

/-- A step of the machine that is no call for messages. -/
theorem other (h : w.Inv none) (programs : Programs ev) (send : ¬ ev.frame.Calls .ipcTrySend)
    (recv : ¬ ev.frame.Calls .ipcRecv) (step : Step w.kernel ev k') :
    (w.enter ev.cpu k').Inv none := by
  refine leave (h.step programs step (fun _ _ => rfl) fun e => ?_)
  rw [h.quiet step send recv]
  by_cases runs : w.kernel.RunsOn ev.cpu e
  · exact (h.faithful e).setEax (h.active ev.cpu e (by simp) runs .recv)
  · rw [h.tf_eq programs send step runs]
    exact h.faithful e

/-- A system call of `e` that is not for messages. -/
theorem call (h : w.Inv none) {cr2 input : Word} {call : SysCall} (runs : w.kernel.RunsOn c e)
    (calls : tf.Calls call) (kind : call ∈ [SysCall.yield, .cputs, .cgetc, .getenvid])
    (before : (w.phase e).inRecv = false) (after : φ.inRecv = false)
    (prompt : ∀ toEnv value perm, φ ≠ .asked (.trySend toEnv value perm))
    (step : Step w.kernel (.trap c tf cr2 input) k') : ((w.setPhase e φ).enter c k').Inv none := by
  have programs : Programs (.trap c tf cr2 input) := fun call' calls' => by
    rw [calls'.unique calls]
    cases call <;> simp at kind ⊢
  have hne : ∀ call', call' ∉ [SysCall.yield, .cputs, .cgetc, .getenvid] → ¬ tf.Calls call' :=
    fun call' hmem calls' => hmem (calls'.unique calls ▸ kind)
  have hother := w.setPhase_other φ runs
  refine leave (w := w.setPhase e φ) (h.step programs step hother fun e' => ?_)
  rw [h.quiet step (hne _ (by decide)) (hne _ (by decide))]
  by_cases he : e' = e
  · subst he
    rw [setPhase_self]
    exact (h.faithful e').change after before prompt
  · have hrest : ¬ w.kernel.RunsOn c e' := fun runs' =>
      he (Option.some.inj (runs'.2.symm.trans runs.2))
    rw [hother e' hrest, h.tf_eq programs (hne _ (by decide)) step hrest]
    exact h.faithful e'

/-- `sys_ipc_recv` of `e`. -/
theorem recv (h : w.Inv none) {cr2 input : Word} (runs : w.kernel.RunsOn c e)
    (before : w.phase e = .outside) (calls : tf.Calls .ipcRecv) (dstva : tf.regs.edx = recvArg 0)
    (step : Step w.kernel (.trap c tf cr2 input) k') :
    ((w.setPhase e (.asked .recv)).enter c k').Inv none := by
  have programs : Programs (.trap c tf cr2 input) := fun call' calls' => by
    rw [calls'.unique calls]
    decide
  have hsend : ¬ tf.Calls .ipcTrySend := fun calls' => absurd (calls'.unique calls) (by decide)
  have hother := w.setPhase_other (.asked .recv) runs
  have receives : w.kernel.Receives (.trap c tf cr2 input) e tf.regs.edx :=
    ⟨runs.2, h.alive e, calls, rfl, by rw [dstva]; decide⟩
  obtain ⟨va, await⟩ : ∃ va, k'.inbox =
      Function.update w.kernel.inbox e ((w.kernel.inbox e).await va) := by
    cases step.ipcStep h.parked with
    | quiet unsent unasked same => exact absurd receives (unasked e _)
    | send sends recving put => exact absurd sends.call hsend
    | @receive cur va receives' await =>
        obtain rfl : e = cur := Option.some.inj (receives.own.symm.trans receives'.own)
        exact ⟨va, await⟩
  refine leave (w := w.setPhase e (.asked .recv)) (h.step programs step hother fun e' => ?_)
  rw [await]
  by_cases he : e' = e
  · subst he
    rw [setPhase_self, Function.update_self]
    have hself := h.faithful e'
    rw [before] at hself
    exact hself.await va
  · have hrest : ¬ w.kernel.RunsOn c e' := fun runs' =>
      he (Option.some.inj (runs'.2.symm.trans runs.2))
    rw [hother e' hrest, Function.update_of_ne he, h.tf_eq programs hsend step hrest]
    exact h.faithful e'

/-- `sys_ipc_try_send` of `e`. -/
theorem send (h : w.Inv none) {cr2 input : Word} (runs : w.kernel.RunsOn c e)
    (before : w.phase e = .sending tf.regs.edx tf.regs.ecx tf.regs.edi)
    (calls : tf.Calls .ipcTrySend) (step : Step w.kernel (.trap c tf cr2 input) k') :
    World.Inv none
      ((w.setPhase e (.asked (.trySend tf.regs.edx tf.regs.ecx tf.regs.edi))).enter c k') := by
  have programs : Programs (.trap c tf cr2 input) := fun call' calls' => by
    rw [calls'.unique calls]
    decide
  obtain ⟨running, clear⟩ := h.running runs
  obtain ⟨runs', sends⟩ := step.sendStep runs running clear calls
  have hself := h.faithful e
  rw [before] at hself
  rw [enter_asked runs' (setPhase_self ..), setPhase_kernel, setPhase_log, setPhase_received]
  have hphase : ∀ e' φ φ', e' ≠ e →
      Function.update (w.setPhase e φ).phase e φ' e' = w.phase e' := fun e' φ φ' he => by
    rw [Function.update_of_ne he, setPhase_of_ne w φ he]
  refine close (h.step programs step (fun e' he => hphase e' _ _ ?_) fun e' => ?_)
    fun e' own req => ?_
  · rintro rfl
    exact he runs
  · by_cases he : e' = e
    · subst he
      rw [Function.update_self]
      cases sends with
      | @sent dst target recving put answer woken others =>
          have hne : dst ≠ e' := by
            rintro rfl
            exact absurd (recving.symm.trans clear) (by decide)
          rw [put, Function.update_of_ne hne.symm, message_sent answer target, sent_append_other]
          · exact hself.change rfl rfl (by simp)
          · exact hne
      | failed same answer others =>
          rw [same, message_failed answer, List.append_nil]
          exact hself.change rfl rfl (by simp)
    · rw [hphase e' _ _ he]
      cases sends with
      | @sent dst target recving put answer woken others =>
          rw [put, message_sent answer target]
          by_cases hdst : e' = dst
          · subst hdst
            rw [Function.update_self, woken, sent_append_self _ rfl]
            exact (h.faithful e').put recving _
          · rw [Function.update_of_ne hdst, others e' he hdst, sent_append_other _ (Ne.symm hdst)]
            exact h.faithful e'
      | failed same answer others =>
          rw [same, message_failed answer, List.append_nil, others e' he]
          exact h.faithful e'
  · obtain rfl := Option.some.inj (runs'.2.symm.trans own.2)
    simp

/-- Every move keeps the invariant. -/
theorem move (h : w.Inv none) (step : Move w w') : w'.Inv none := by
  cases step with
  | @compute c e φ out runs computes =>
      refine ⟨h.exclusive, h.sound, h.alive, fun c' e' _ runs' req => ?_, fun e' => ?_⟩
      · change (w.setPhase e φ).phase e' ≠ .asked req
        by_cases he : e' = e
        · rw [he, setPhase_self]
          exact computes.not_asked req
        · rw [setPhase_of_ne w φ he]
          exact h.active c' e' (by simp) runs' req
      · change Faithful ((w.setPhase e φ).phase e') (w.kernel.inbox e') _
          (Function.update w.received e _ e') (w.sent e')
        by_cases he : e' = e
        · subst he
          rw [setPhase_self, Function.update_self]
          exact (h.faithful e').computes computes
        · rw [setPhase_of_ne w φ he, Function.update_of_ne he]
          exact h.faithful e'
  | @call c e φ tf cr2 input k' runs asks step =>
      generalize hφ : w.phase e = φ₀ at asks
      cases asks with
      | trySend calls srcva => exact h.send runs hφ calls step
      | retry calls => exact h.call runs calls (by decide) (by rw [hφ]; rfl) rfl (by simp) step
      | yield calls => exact h.call runs calls (by decide) (by rw [hφ]; rfl) rfl (by simp) step
      | recv calls dstva => exact h.recv runs hφ calls dstva step
      | @print call _ calls kind idle =>
          have kind' : call ∈ [SysCall.yield, .cputs, .cgetc, .getenvid] :=
            List.mem_cons_of_mem _ kind
          rcases List.mem_pair.mp idle with rfl | rfl
          · exact h.call runs calls kind' (by rw [hφ]; rfl) rfl (by simp) step
          · exact h.call runs calls kind' (by rw [hφ]; rfl) rfl (by simp) step
  | other trapno step =>
      have none : ∀ call, ¬ (Event.frame _).Calls call := fun call calls => trapno calls.1
      exact h.other (fun call calls => absurd calls (none call)) (none _) (none _) step

/-- It holds in every state that can be reached. -/
theorem run (h : w.Inv none) (moves : Relation.ReflTransGen Move w w') : w'.Inv none := by
  induction moves with
  | refl => exact h
  | tail _ last ih => exact ih.move last

/-- A send that does not get through leaves no trace. -/
theorem unsent (h : w.Inv none) (step : Move w w') {toEnv value perm r : Word}
    (before : w.phase e = .sending toEnv value perm)
    (after : w'.phase e = .answered (.trySend toEnv value perm) r) (hr : r ≠ 0) :
    w'.log = w.log ∧ w'.kernel.inbox = w.kernel.inbox := by
  have hsending : ∀ req, w.phase e ≠ .asked req := by simp [before]
  cases step with
  | compute runs computes => exact ⟨rfl, rfl⟩
  | @call c e' φ tf cr2 input k' runs asks step =>
      by_cases he : e = e'
      · subst he
        rw [before] at asks
        cases asks with
        | trySend calls srcva =>
            obtain ⟨running, clear⟩ := h.running runs
            obtain ⟨runs', sends⟩ := step.sendStep runs running clear calls
            rw [enter_asked runs' (setPhase_self ..), setPhase_kernel, setPhase_log] at after ⊢
            obtain ⟨-, rfl⟩ := Phase.answered.inj ((Function.update_self e _ _).symm.trans after)
            cases sends with
            | sent target recving put answer woken others => exact absurd answer hr
            | failed same answer others =>
                exact ⟨by rw [message_failed answer, List.append_nil], same⟩
        | print calls kind idle => simp at idle
      · rw [enter_phase (by rwa [setPhase_of_ne w φ he]), setPhase_of_ne w φ he, before] at after
        simp at after
  | other trapno step =>
      rw [enter_phase hsending, before] at after
      simp at after

end Inv

end World

/-- Whatever the programs and the scheduler do, what the calls of `ipc_recv` of an environment
have returned, with the message that still waits in its fields, if any, is what the successful
calls of `sys_ipc_try_send` to it have sent, in that order; and a call that fails leaves no
message behind. -/
theorem ipc_exactly_once {w₀ w : World} (start : w₀.Start)
    (moves : Relation.ReflTransGen Move w₀ w) :
    (∀ e, w.sent e = w.received e ++ (w.phase e).unread (w.kernel.inbox e)) ∧
      ∀ w' e toEnv value perm r, Move w w' → w.phase e = .sending toEnv value perm →
        w'.phase e = .answered (.trySend toEnv value perm) r → r ≠ 0 →
        w'.log = w.log ∧ w'.kernel.inbox = w.kernel.inbox := by
  have h := start.inv.run moves
  exact ⟨fun e => (h.faithful e).exact, fun w' e toEnv value perm r step before after hr =>
    h.unsent step before after hr⟩

/-! ### At the start -/

section Boot

variable {m : Machine} {binaries : List Binary} {k k₀ : Kernel} {e : EnvIdx} {b : Binary}

theorem loadIcode_keepsStatus : Keeps Kernel.status (loadIcode e b) := by
  have hpmap : ∀ {α : Type} (m : Pmap α), Keeps Kernel.status (pmap m) := fun m =>
    .zoom m fun _ _ => rfl
  refine .ite (fun _ => .panic _) fun _ => .bind (.read fun k => ?_) fun _ => .bind (hpmap _)
    fun _ => .bind (.modify fun k => funext Kernel.setTf_status) fun _ => hpmap _
  cases (k.envs e).pgdir with
  | none => exact .panic _
  | some d => exact .pure d

/-- `env_create` makes no zombies. -/
theorem envCreate_alive (alive : ∀ e, k.status e ≠ .dying) :
    wp (envCreate b) (fun _ k' => ∀ e, k'.status e ≠ .dying) (fun _ _ => True)
      (fun _ => True) k := by
  rw [envCreate, wp_bind, envAlloc, wp_bind, wp_get]
  cases k.envFreeList with
  | none => exact (wp_pure _).mpr ((wp_panic _).mpr trivial)
  | some slot =>
      simp only [wp_bind]
      apply wp_imp envSetupVm_op
      rintro r k₁ (⟨hr, -⟩ | ⟨rfl, d, same⟩)
      · rw [if_pos hr]
        exact (wp_pure _).mpr ((wp_panic _).mpr trivial)
      · have alive₁ : ∀ e, k₁.status e ≠ .dying :=
          same.noZombie (Kernel.setEnv_noZombie alive (alive slot))
        rw [if_neg (by decide)]
        simp only [wp_bind, wp_modify, wp_pure]
        generalize hk₂ : ({ k₁.setEnv slot _ with envFreeList := _ } : Kernel) = k₂
        have alive₂ : ∀ e, k₂.status e ≠ .dying := by
          rw [← hk₂]
          exact Kernel.setEnv_noZombie alive₁ (by simp)
        refine wp_mono (loadIcode_keepsStatus k₂) (fun _ k₃ h₃ => ?_) (fun _ _ _ => trivial)
          fun _ he => he
        refine Kernel.setEnv_noZombie (fun e => ?_) ?_
        · rw [h₃]
          exact alive₂ e
        · change k₃.status slot ≠ .dying
          rw [h₃]
          exact alive₂ slot

theorem envCreates_alive (binaries : List Binary) (alive : ∀ e, k.status e ≠ .dying) :
    wp (envCreates binaries) (fun _ k' => ∀ e, k'.status e ≠ .dying) (fun _ _ => True)
      (fun _ => True) k := by
  induction binaries generalizing k with
  | nil => exact (wp_pure _).mpr alive
  | cons b rest ih =>
      rw [envCreates, wp_bind]
      exact wp_imp (envCreate_alive alive) fun _ _ alive' => ih alive'

/-- The programs that the kernel has booted with have not started. -/
theorem Booted.start (booted : Booted m binaries k₀) : (World.fresh k₀).Start := by
  obtain ⟨L, -, -, hidle⟩ := booted.memInv
  refine ⟨hidle.exclusive Trapping, ?_, hidle.recving, fun _ => rfl, rfl, fun _ => rfl⟩
  obtain ⟨n, l, p, -, hcreate⟩ := booted.kernTree
  obtain ⟨-, -, -, -, -, hzero, -⟩ := envInit_spec m.toHardware p
  generalize envInit m.toHardware p = k₁ at hzero hcreate
  refine (wp_ret hcreate).mp (envCreates_alive binaries fun e => ?_)
  rw [show k₁.status e = .free from congrArg Env.status (hzero e)]
  decide

end Boot

/-! ### A parent and its child -/

/-- Other bounds on the statuses. -/
theorem Exclusive.of_status {ok ok' : EnvStatus → Prop} {k : Kernel} (h : Exclusive ok none k)
    (status : ∀ c e, k.RunsOn c e → ok' (k.status e)) : Exclusive ok' none k := by
  refine ⟨fun c hc mode => ?_, h.parked, h.unique, h.own, h.slots⟩
  obtain ⟨e, own, -, hcr3⟩ := h.user c hc mode
  exact ⟨e, own, status c e ⟨mode, own⟩, hcr3⟩

theorem Family.start {d d' : Nat} {k : Kernel} (h : Family d d' 2 .running k)
    (hchild : k.Executes 1 1 d') (hex : Exclusive Executing none k)
    (recving : ∀ e, (k.envs e).ipcRecving = false) : (World.fresh k).Start := by
  have hrunning : ∀ c e, k.RunsOn c e → k.status e = .running := by
    rintro c e ⟨-, own⟩
    by_cases h0 : c = 0
    · subst h0
      obtain rfl := Option.some.inj (h.parent.own.symm.trans own)
      exact h.parent.running
    · by_cases h1 : c = 1
      · subst h1
        obtain rfl := Option.some.inj (hchild.own.symm.trans own)
        exact h.child
      · exact absurd ((h.cpus c (by omega)).1.symm.trans own) (by simp)
  refine ⟨hex.of_status fun c e runs => .inl (hrunning c e runs), fun e => ?_, recving,
    fun _ => rfl, rfl, fun _ => rfl⟩
  change k.status e ≠ .dying
  by_cases h0 : e = 0
  · rw [h0, h.parent.running]
    decide
  · by_cases h1 : e = 1
    · rw [h1, h.child]
      decide
    · rw [h.others e h0 h1]
      decide

/-- What a step in user mode leaves. -/
theorem World.computes {w : World} {c : Nat} {e : EnvIdx} {φ φ' : Phase}
    {out : List (Word × Word)} (runs : w.kernel.RunsOn c e) (before : w.phase e = φ)
    (computes : Phase.Computes (w.kernel.inbox e) φ φ' out) :
    ∃ w', Move w w' ∧ w'.kernel = w.kernel ∧ w'.phase e = φ' ∧ w'.log = w.log ∧
      ∀ e', e' ≠ e → w'.phase e' = w.phase e' ∧ w'.received e' = w.received e' := by
  subst before
  refine ⟨_, .compute runs computes, rfl, w.setPhase_self e φ', rfl, fun e' he => ?_⟩
  exact ⟨w.setPhase_of_ne φ' he, Function.update_of_ne he _ _⟩

/-- What a way out leaves. -/
theorem World.answers {w : World} {k' : Kernel} {c : Nat} {e : EnvIdx} {req : Request}
    (runs : k'.RunsOn c e) (before : w.phase e = .asked req) :
    (w.enter c k').kernel = k' ∧ (∃ r, (w.enter c k').phase e = .answered req r ∧
      (w.enter c k').log = w.log ++ req.message w.kernel e r) ∧
      ∀ e', e' ≠ e → (w.enter c k').phase e' = w.phase e' ∧
        (w.enter c k').received e' = w.received e' := by
  rw [World.enter_asked runs before]
  exact ⟨rfl, ⟨_, Function.update_self e _ _, rfl⟩,
    fun e' he => ⟨Function.update_of_ne he _ _, rfl⟩⟩

/-- The child waits on CPU 1. -/
theorem World.waits {k k' : Kernel} {d' : Nat} (hchild : k.Executes 1 1 d')
    (step : Step k (.trap 1 (callFrame .ipcRecv utop 0 0 0 0) 0 0) k') (idle : k'.curenv 1 = none) :
    Move (World.fresh k) { (World.fresh k).setPhase 1 (.asked .recv) with kernel := k' } := by
  have hmove := Move.call (w := World.fresh k) hchild.runsOn
    (.recv (callFrame_calls .ipcRecv utop 0 0 0 0) rfl) step
  rwa [World.enter_of_not_asked fun e runs => absurd (idle.symm.trans runs.2) (by simp)] at hmove

/-- The parent sends 7, and goes on. -/
theorem World.sends {w : World} {k' : Kernel} {d : Nat} (before : w.phase 0 = .outside)
    (hparent : w.kernel.Executes 0 0 d) (hparent' : k'.Executes 0 0 d)
    (step : Step w.kernel (sendEvent 7 utop 0) k') :
    ∃ w', Relation.ReflTransGen Move w w' ∧ w'.kernel = k' ∧ w'.phase 1 = w.phase 1 ∧
      w'.received 1 = w.received 1 := by
  obtain ⟨w₁, hbegin, hkernel, hphase, -, hother⟩ :=
    World.computes hparent.runsOn before (.send 0x1001 7 0)
  rw [← hkernel] at hparent step
  have hasks : Phase.Asks (sendEvent 7 utop 0).frame (w₁.phase 0)
      (.asked (.trySend 0x1001 7 0)) := by
    rw [hphase]
    exact .trySend sendEvent_calls rfl
  obtain ⟨hkernel', -, hother'⟩ := World.answers hparent'.runsOn
    (w₁.setPhase_self 0 (.asked (.trySend 0x1001 7 0)))
  obtain ⟨hphase₁, hreceived₁⟩ := hother 1 (by decide)
  obtain ⟨hphase', hreceived'⟩ := hother' 1 (by decide)
  refine ⟨_, (Relation.ReflTransGen.single hbegin).tail (.call hparent.runsOn hasks step),
    hkernel', ?_, hreceived'.trans hreceived₁⟩
  rw [hphase', World.setPhase_of_ne w₁ _ (by decide), hphase₁]

/-- CPU 2 picks the child up, and `ipc_recv` reads the fields. -/
theorem World.reads {w : World} {k' : Kernel} {d' : Nat} (before : w.phase 1 = .asked .recv)
    (hchild : k'.Executes 2 1 d') (step : Step w.kernel (.start 2) k') :
    ∃ w', Relation.ReflTransGen Move w w' ∧ w'.phase 1 = .outside ∧ w'.log = w.log := by
  have htrapno : (Event.start 2).frame.trapno ≠ tSyscall := show (0 : Word) ≠ tSyscall by decide
  have hstart : Move w (w.enter 2 k') := .other htrapno step
  obtain ⟨hkernel, ⟨r, hphase, hlog⟩, -⟩ := World.answers hchild.runsOn before
  generalize w.enter 2 k' = w₁ at hstart hkernel hphase hlog
  rw [← hkernel] at hchild
  obtain ⟨w₂, hfrom, hkernel₂, hphase₂, hlog₂, -⟩ :=
    World.computes hchild.runsOn hphase .readFrom
  rw [← hkernel₂] at hchild
  obtain ⟨w₃, hvalue, -, hphase₃, hlog₃, -⟩ := World.computes hchild.runsOn hphase₂ .readValue
  refine ⟨w₃, ((Relation.ReflTransGen.single hstart).tail hfrom).tail hvalue, hphase₃, ?_⟩
  rw [hlog₃, hlog₂, hlog]
  exact List.append_nil _

/-- The child waits for a value, the parent sends 7, and the child gets it. -/
theorem ipc_exactly_once_qemu : ∃ k₀ k w, Booted qemu [intProgram] k₀ ∧ Run SafeStep k₀ k ∧
    (World.fresh k).Start ∧ Relation.ReflTransGen Move (World.fresh k) w ∧
    w.sent 1 = [(7, 0x1000)] ∧ w.received 1 = [(7, 0x1000)] := by
  obtain ⟨k₀, k, d, d', hbooted, hclean, hfamily, hchild, -, -, hclear⟩ := qemu_family_free
  have hrun : Run SafeStep k₀ k := hclean.mono fun _ _ h => h.safe
  obtain ⟨L, -, -, -, hex⟩ := hbooted.run hrun
  have hstart := hfamily.start hchild hex hclear
  -- the child waits
  obtain ⟨k₁, hrecv, hfamily₁, -, -, hflag, -, hidle, -⟩ :=
    hfamily.receives (by decide) hchild utop (by decide)
  have hwaits := World.waits hchild hrecv hidle
  have hcall := callFrame_calls .ipcRecv utop 0 0 0 0
  have hrun₁ := hrun.tail ⟨_, .of_calls fun call hc => by rw [hc.unique hcall]; decide, hrecv⟩
  -- the parent sends
  obtain ⟨L', hsets, h₀, hmem, -⟩ := hbooted.run hrun₁
  have hexists : k₁.phys.LookupExists d utop := by
    intro _
    obtain ⟨-, -, -, -, hentry⟩ := hbooted.utop_mapped hsets h₀ hmem hfamily₁.parent.pgdir
    rw [hentry, pgnum_mkPte (by decide) (by decide), hmem.phys.npages, hsets.npages]
    decide
  obtain ⟨k₂, hsend, -, hlike⟩ : ∃ k₂, Step k₁ (sendEvent 7 utop 0) k₂ ∧ _ ∧
      (k₁.delivered 1 0x1000 7).Like k₂ :=
    hfamily₁.sendsValue hmem hflag (BitVec.le_refl utop) hexists
  have hfamily₂ : Family d d' 2 .runnable k₂ := (hfamily₁.delivered 0x1000 7).like hlike
  obtain ⟨w₂, hsends, hkernel₂, hphase₂, hreceived₂⟩ :=
    World.sends (w := { (World.fresh k).setPhase 1 (.asked .recv) with kernel := k₁ })
      rfl hfamily₁.parent hfamily₂.parent hsend
  have hrun₂ := (Relation.ReflTransGen.single hwaits).trans hsends
  have hsent : w₂.sent 1 = [(7, 0x1000)] := by
    have hinbox : k₂.inbox 1 = (k₁.delivered 1 0x1000 7).inbox 1 :=
      hlike.field (f := Env.inbox) (fun _ => rfl) 1
    rw [(ipc_exactly_once hstart hrun₂).1 1, hreceived₂, hphase₂, hkernel₂, hinbox, Kernel.inbox,
      Kernel.delivered, Kernel.setEnv_envs_self]
    rfl
  -- the child reads
  obtain ⟨hstep, hchild₃, -⟩ := hfamily₂.starts (by decide) (by decide)
  obtain ⟨w, hreads, hphase, hlog⟩ := World.reads hphase₂ hchild₃ (hkernel₂ ▸ hstep)
  have hrun₃ := hrun₂.trans hreads
  have hsent₃ : w.sent 1 = [(7, 0x1000)] := by
    rw [World.sent, hlog]
    exact hsent
  refine ⟨k₀, k, w, hbooted, hrun, hstart, hrun₃, hsent₃, ?_⟩
  have hexact := (ipc_exactly_once hstart hrun₃).1 1
  rw [hsent₃, hphase, Faithful.unread_of_not rfl, List.append_nil] at hexact
  exact hexact.symm

end Jos
