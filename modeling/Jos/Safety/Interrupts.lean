import Jos.Kernel.Frame
import Jos.Kernel.Inbox
import Jos.Safety.Frames

/-!
# Device interrupts

An interrupt should not be noticed by the environment that it interrupts: when it runs again
it goes on with the same registers and the same address space. `trap_init` installs six gates,
but `trap_dispatch` has cases for two of them only; the others are unexpected traps, for
which it destroys the environment or panics.
-/

namespace Jos

open Prog

variable {L : Layout} {k k' k₁ : Kernel} {c d : Nat} {cur e : EnvIdx} {tf : Trapframe}
  {cr2 input : Word}

/-- The interrupts for which `trap_init` installs a gate. -/
inductive Irq where
  | timer | kbd | serial | spurious | ide | error
  deriving DecidableEq, Repr

/-- `IRQ_OFFSET + IRQ_WHATEVER`. -/
def Irq.vector : Irq → Word
  | .timer => 32 + 0
  | .kbd => 32 + 1
  | .serial => 32 + 4
  | .spurious => 32 + 7
  | .ide => 32 + 14
  | .error => 32 + 19

/-- `trap_dispatch` has a case for it. -/
def Irq.Handled (irq : Irq) : Prop := irq = .timer ∨ irq = .spurious

instance (irq : Irq) : Decidable irq.Handled :=
  inferInstanceAs (Decidable (irq = .timer ∨ irq = .spurious))

/-- The environment exists and has not been destroyed. -/
def Kernel.Alive (k : Kernel) (e : EnvIdx) : Prop := k.status e ≠ .free ∧ k.status e ≠ .dying

/-- What may happen while the environment `e` does not run. It leaves out the messages and the
system calls of the parent of `e`, which may be about `e`. -/
def Others (e : EnvIdx) (k : Kernel) : Event → Prop
  | .start _ => True
  | .trap c tf cr2 input => k.curenv c ≠ some e ∧ (tf.trapno = tSyscall →
      SafeStep k (.trap c tf cr2 input) ∧ ¬ tf.Calls .ipcTrySend ∧
        ∀ cur, k.curenv c = some cur → (k.envs e).parentId ≠ (k.envs cur).id)
  | .store c _ _ => k.curenv c ≠ some e

/-- The environment `e` goes on in `k'` where it was in `k`, with the registers `tf`. -/
structure Interrupted (e : EnvIdx) (tf : Trapframe) (k k' : Kernel) : Prop where
  alive : k'.Alive e
  frame : (k'.envs e).tf = tf
  pgdir : k'.dirs e = k.dirs e
  entries : ∀ i j, k'.phys.pteAt k'.dirs e i j = k.phys.pteAt k.dirs e i j

/-- The interrupt `irq` of `e` on CPU `c` does not change memory, and whatever the others do
until `e` runs again, it finds its registers and its address space as they were. -/
def Transparent (k : Kernel) (c : Nat) (e : EnvIdx) (irq : Irq) : Prop :=
  ∀ tf cr2 input, tf.cs &&& 3 = 3 → tf.trapno = irq.vector →
    ∃ k', trap c tf cr2 input k = .exit () k' ∧ k'.phys = k.phys ∧
      ∀ k₂, Run (Others e) k' k₂ → Interrupted e tf k k₂

/-- The interrupt `irq` of the halted CPU `c` does not panic. -/
def HaltSafe (k : Kernel) (c : Nat) (irq : Irq) : Prop :=
  ∀ tf cr2 input, tf.cs = gdKt → tf.trapno = irq.vector → ∀ why,
    trap c tf cr2 input k ≠ .panic why

/-- For the others `trap_dispatch` has no case. -/
theorem trapDispatch_unexpected {irq : Irq} (h : ¬ irq.Handled) (trapno : tf.trapno = irq.vector) :
    trapDispatch c tf cr2 input k =
      (if tf.cs = gdKt then panic .unhandledTrap
      else match k.curenv c with
        | none => panic .assertion
        | some e => envDestroy c e) k := by
  have hcases : irq.vector ≠ tPgflt ∧ irq.vector ≠ tBrkpt ∧ irq.vector ≠ tSyscall ∧
      (irq.vector = irqSpurious → irq.Handled) ∧ (irq.vector = irqTimer → irq.Handled) := by
    cases irq with
    | timer => exact absurd (.inl rfl) h
    | spurious => exact absurd (.inr rfl) h
    | _ => decide
  obtain ⟨hpgflt, hbrkpt, hsyscall, hspurious, htimer⟩ := hcases
  cases hcur : k.curenv c
  all_goals
    rw [trapDispatch, get_bind, trapno, if_neg hpgflt, if_neg hbrkpt, if_neg hsyscall,
      if_neg (fun hs => h (hspurious hs)), if_neg (fun ht => h (htimer ht)), hcur]

/-- The timer lets the scheduler choose; after a spurious interrupt the environment goes on if
it may. -/
theorem MemInv.handles (h : MemInv L k) {irq : Irq} (handled : irq.Handled)
    (trapno : tf.trapno = irq.vector) (cr2 input : Word) :
    ∃ k', (do Jos.trapDispatch c tf cr2 input; Jos.trapReturn c) k = .exit () k' ∧ Dispatch c k k' ∧
      MemInv L k' := by
  have hwp : wp (do Jos.trapDispatch c tf cr2 input; Jos.trapReturn c) (fun _ _ => False)
      (fun _ k' => Dispatch c k k' ∧ MemInv L k') (fun _ => False) k := by
    rw [wp_bind, Jos.trapDispatch, wp_bind, wp_get, trapno]
    rcases handled with rfl | rfl
    · rw [if_neg (by decide), if_neg (by decide), if_neg (by decide), if_neg (by decide),
        if_pos (by decide)]
      exact wp_mono (wp_and (schedYield_dispatch (Q := fun _ _ => False))
        (h.schedYield (Q := fun _ _ => False) (E := fun _ => False)))
        (fun _ _ hf => hf.1.elim) (fun _ _ hx => hx) fun _ he => he.2
    · rw [if_neg (by decide), if_neg (by decide), if_neg (by decide), if_pos (by decide), wp_pure]
      exact wp_mono (wp_and (trapReturn_dispatch (Q := fun _ _ => False))
        (h.trapReturn (Q := fun _ _ => False) (E := fun _ => False)))
        (fun _ _ hf => hf.1) (fun _ _ hx => hx) fun _ he => he.2
  obtain ⟨⟨⟩, k', hrun, hout, hmem⟩ := exists_exit_of_wp hwp
  exact ⟨k', hrun, hout, hmem⟩

/-! ### What the others do -/

/-- Page tables are private. -/
theorem MemInv.separated (h : MemInv L k) (slots : k.SlotsFree) : k.Separated := by
  have hunshared := h.phys.tables.unshared
  refine ⟨fun e f _ hf hlisted => ?_, fun e e' f _ _ hne hf hf' => ?_, h.phys.npages_le,
    fun f hf => h.phys.lt_npages (h.phys.counts.ref_of_listed hf).1, slots⟩
  · rcases hf with hd | ⟨i, ht⟩
    · exact h.phys.listed_fresh hlisted (.dir e) hd
    · exact h.phys.listed_fresh hlisted (.pde e i) ht
  · rcases hf with hd | ⟨i, ht⟩ <;> rcases hf' with hd' | ⟨i', ht'⟩
    · exact hne (hunshared.dir_inj hd hd')
    · exact hunshared.dir_ne_table hd ht' rfl
    · exact hunshared.dir_ne_table hd' ht rfl
    · exact hne (hunshared.table_inj ht ht').1

theorem Kernel.Unrelated.setTf (h : k.Unrelated cur e) : (k.setTf cur tf).Unrelated cur e := by
  have hid : ∀ e', ((k.setTf cur tf).envs e').id = (k.envs e').id :=
    Kernel.setEnv_field (f := Env.id) (by rfl)
  have hparent : ∀ e', ((k.setTf cur tf).envs e').parentId = (k.envs e').parentId :=
    Kernel.setEnv_field (f := Env.parentId) (by rfl)
  refine ⟨?_, ?_, h.other, ?_⟩
  · rw [Kernel.setTf_status]
    exact h.caller
  · rw [Kernel.setTf_status]
    exact h.live
  · rw [hid, hparent]
    exact h.stranger

section Alive

theorem Kernel.Alive.congr (h : k.Alive e) (status : k'.status e = k.status e) : k'.Alive e := by
  rwa [Kernel.Alive, status]

theorem Kernel.Alive.setEnv (h : k.Alive e) {e' : EnvIdx} (hne : e ≠ e') (env : Env) :
    (k.setEnv e' env).Alive e :=
  h.congr (congrArg Env.status (Kernel.setEnv_envs_of_ne env hne))

theorem Kernel.Alive.setTf (h : k.Alive e) {e' : EnvIdx} : (k.setTf e' tf).Alive e :=
  h.congr (Kernel.setTf_status e)

theorem Kernel.Alive.ran (h : k.Alive e) {e' : EnvIdx} : (k.ran c e' d).Alive e := by
  by_cases he : e = e'
  · subst he
    rw [Kernel.Alive, Kernel.ran_status_self]
    decide
  · rw [Kernel.Alive, Kernel.status, Kernel.ran_envs_of_ne he]
    rcases Kernel.preempted_envs (k := k) (c := c) e with hsame | ⟨-, -, hsame⟩
    · rw [hsame]
      exact h
    · rw [hsame]
      exact ⟨by simp, by simp⟩

/-- The scheduler neither ends nor revives anybody. -/
theorem Dispatch.alive (out : Dispatch c k k') (h : k.Alive e) : k'.Alive e := by
  cases out with
  | run ready pgdir => exact h.ran
  | halt => exact h
  | monitor => exact h

theorem Kernel.Alive.exited (h : k.Alive e) (hne : e ≠ cur) (same : (k.exited c cur).Same k₁) :
    k₁.Alive e := by
  refine h.congr ?_
  rw [Kernel.status, (same.envs e).status, Kernel.status]
  exact congrArg Env.status (Kernel.released_envs_of_ne hne)

/-- A system call ends only the caller or what it may name. -/
theorem Op.alive (op : Op c tf cur k k') (slots : k.SlotsFree) (h : k.Alive e)
    (calls : tf.trapno = tSyscall → k.Unrelated cur e) : k'.Alive e := by
  cases op with
  | quiet same => exact h.congr (same.envs e).status
  | setStatus call target arg => exact h.setEnv ((calls call.1).target target).1 _
  | doom call target other running => exact h.setEnv ((calls call.1).target target).1 _
  | release call target other idle same =>
      refine h.congr ((same.envs e).status.trans ?_)
      exact congrArg Env.status (Kernel.released_envs_of_ne ((calls call.1).target target).1)
  | @fork _ e' _ _ call head same =>
      have hne : e ≠ e' := by
        rintro rfl
        exact h.1 (slots.forked head 0 0 .zero).1
      refine h.congr ((same.envs e).status.trans ?_)
      exact congrArg Env.status (Kernel.setEnv_envs_of_ne _ hne)
  | @deliver _ e' call target recving same =>
      by_cases hne : e = e'
      · subst hne
        rw [Kernel.Alive, Kernel.status, (same.envs e).status, Kernel.delivered,
          Kernel.setEnv_envs_self]
        exact ⟨by simp, by simp⟩
      · refine h.congr ((same.envs e).status.trans ?_)
        exact congrArg Env.status (Kernel.setEnv_envs_of_ne _ hne)

theorem Finish.alive (out : Finish c tf cur k k') (h : k.Alive e) (hne : e ≠ cur) :
    k'.Alive e := by
  cases out with
  | dispatch out => exact out.alive h
  | result r out => exact out.alive h.setTf
  | wait call out => exact out.alive (h.setEnv hne _)
  | exit same out => exact out.alive (h.exited hne same)
  | upcall tf' pgdir => exact h.setTf.ran

/-- A kernel entry of another environment does not end `e`. -/
theorem Entry.alive (entry : Entry c tf k k') (slots : k.SlotsFree) (h : k.Alive e)
    (other : k.curenv c ≠ some e)
    (calls : ∀ cur, k.curenv c = some cur → tf.trapno = tSyscall → k.Unrelated cur e) :
    k'.Alive e := by
  cases entry with
  | idle none out => exact out.alive h
  | @collect _ _ cur own zombie same out =>
      exact out.alive (h.exited (fun he => other (he ▸ own)) same)
  | @act _ _ cur own alive op out =>
      exact out.alive (op.alive slots.setTf h.setTf fun trapno => (calls cur own trapno).setTf)
        fun he => other (he ▸ own)

end Alive

section Memory

variable (h : MemInv L k) (slots : k.SlotsFree) (own : k.curenv c = some cur)
  (used : k.status cur ≠ .free) (cr3 : k.dirs cur = some (k.cpus c).cr3)
  (hne : e ≠ cur) (live : k.status e ≠ .free)
include h slots own used cr3 hne live

/-- The record of a page fault is stored in a page of its own environment. -/
theorem MemInv.pageFaultHandler_spares {faultVa : Word} :
    Spares e (Jos.pageFaultHandler c tf faultVa) k := by
  have havoid : ∀ dir, k.dirs cur = some dir → Phys.Avoids (k.TableOf e) k.phys dir :=
    fun dir hdir => (h.separated slots).avoids used live hne.symm hdir
  refine .get (.ite (fun _ => .panic _) fun _ => ?_)
  rw [own]
  refine .ite (fun _ => ?_) fun _ => envDestroy_spares hne havoid
  rw [Spares, wp_bind]
  refine wp_mono (wp_and (userMemAssert_spares hne havoid)
    (h.userMemAssert (E := fun _ => True) own used)) ?_ (fun _ _ hx => hx.1) fun _ he => he.1
  rintro _ k₁ ⟨-, rfl, hcheck⟩
  have haccess : ∀ i < (utrapframe tf faultVa).length,
      k₁.phys.userAccess (k₁.cpus c).cr3 (utrapframeAddr tf.esp + BitVec.ofNat 32 i) true :=
    fun i hi => h.utrapframe_access cr3 (hcheck _ cr3) (by simpa using hi)
  obtain ⟨q, hrun, -, -, -, hagree⟩ := h.phys.kernelStores cr3 haccess
  rw [wp_bind, wp_get, wp_bind, wp_ret (pmap_ret hrun), wp_bind, wp_modify]
  have htables : k₁.Untouched e { k₁ with phys := q } := by
    refine .phys fun f hf => hagree f ?_
    rcases hf with hd | ht
    · exact .inl ⟨e, hd⟩
    · exact .inr ⟨e, ht⟩
  refine (wp_exit_eq (envRun_run (d := (k₁.cpus c).cr3) ?_)).mpr
    (htables.trans (.trans (.setEnv hne _) .ran))
  rw [Kernel.setTf, Kernel.setEnv_envs_self]
  exact cr3

variable (calls : tf.trapno = tSyscall → ¬ tf.Calls .ipcTrySend ∧ k.Unrelated cur e)
include calls

theorem MemInv.trapDispatch_spares : Spares e (Jos.trapDispatch c tf cr2 input) k := by
  refine .get ?_
  rw [own]
  refine .ite (fun _ => h.pageFaultHandler_spares slots own used cr3 hne live) fun _ =>
    .ite (fun _ => .monitor) fun _ => .ite (fun trapno => ?_) fun _ => .ite (fun _ => .pure _)
    fun _ => .ite (fun _ => .schedYield) fun _ => .ite (fun _ => .panic _) fun _ => ?_
  · obtain ⟨hsend, rel⟩ := calls trapno
    refine .bind (syscall_spares (h.separated slots) rel (fun hc => hsend ⟨trapno, hc⟩) _ _ _ _ _ _)
      fun _ _ _ => .modify (.setEnv hne _)
  · exact envDestroy_spares hne fun dir hd => (h.separated slots).avoids used live hne.symm hd

theorem MemInv.trap_spares (ring : tf.cs &&& 3 = 3) : Spares e (Jos.trap c tf cr2 input) k := by
  by_cases zombie : k.status cur = .dying
  · -- the CPU collects what is left of its environment
    rw [Spares, Jos.trap, when_pos _ ring, wp_bind, trapEnter, wp_bind, wp_get, own]
    dsimp only
    rw [if_pos zombie, wp_bind]
    refine wp_mono (envFree_spares hne fun dir hd =>
      (h.separated slots).avoids used live hne.symm hd) ?_ (fun _ _ hx => hx) fun _ he => he
    intro _ k₁ hk₁
    rw [wp_bind, wp_modify]
    refine wp_mono (schedYield_dispatch (Q := fun _ _ => False)) (fun _ _ hf => hf.elim)
      (fun _ k' out => ?_) fun _ he => he
    exact hk₁.trans (.trans (.setCpu _) (.dispatch out))
  · have hsaved : k.Untouched e (k.setTf cur tf) := .setEnv hne _
    rw [Spares, Jos.trap, when_pos _ ring, wp_bind, wp_ret (trapEnter_saves own zombie)]
    refine wp_mono (?_ : Spares e _ (k.setTf cur tf)) (fun _ _ hk => hsaved.trans hk)
      (fun _ _ hk => hsaved.trans hk) fun _ he => he
    refine .bind (h.setTf.trapDispatch_spares slots.setTf own ?_ ?_ hne ?_ ?_)
      fun _ _ _ => .trapReturn
    · rwa [Kernel.setTf_status]
    · rwa [Kernel.dirs_setTf]
    · rwa [Kernel.setTf_status]
    · exact fun trapno => ⟨(calls trapno).1, (calls trapno).2.setTf⟩

end Memory

theorem Irq.vector_ne_syscall (irq : Irq) : irq.vector ≠ tSyscall := by
  cases irq <;> decide

/-- What is no system call is safe. -/
theorem SafeStep.of_trapno {ev : Event} (h : ev.frame.trapno ≠ tSyscall) : SafeStep k ev :=
  .of_calls fun _ hc => absurd hc.1 h

theorem Others.safe {ev : Event} (h : Others e k ev) : SafeStep k ev := by
  cases ev with
  | start c => exact .start k c
  | trap c tf cr2 input =>
      by_cases trapno : tf.trapno = tSyscall
      · exact (h.2 trapno).1
      · exact .of_trapno trapno
  | store c va b => exact .of_trapno (show (0 : Word) ≠ tSyscall by decide)

/-- One step of the others. -/
theorem MemInv.others (h : MemInv L k) (hex : Exclusive Executing none k) {ev : Event}
    (alive : k.Alive e) (others : Others e k ev) (step : Step k ev k') :
    k.Untouched e k' ∧ k'.Alive e := by
  cases step with
  | start mode lock run =>
      have out := (wp_exit_eq run).mp (schedYield_dispatch (Q := fun _ _ => False))
      exact ⟨.dispatch out, out.alive alive⟩
  | trap mode lock ring run =>
      obtain ⟨other, calls⟩ := others
      obtain ⟨cur, own, hstatus, hcr3⟩ := hex.user _ (by simp) mode
      have used : k.status cur ≠ .free := fun hf => executing.not_free (hf ▸ hstatus)
      have hne : e ≠ cur := fun he => other (he ▸ own)
      have hrel := fun trapno =>
        (⟨used, alive.1, hne, (calls trapno).2.2 cur own⟩ : k.Unrelated cur e)
      refine ⟨(wp_exit_eq run).mp (h.trap_spares hex.slots own used hcr3 hne alive.1
        (fun trapno => ⟨(calls trapno).2.1, hrel trapno⟩) ring), ?_⟩
      refine ((wp_exit_eq run).mp (Jos.trap_entry own ring)).alive hex.slots alive other ?_
      intro cur' own'
      rw [Option.some.inj (own'.symm.trans own)]
      exact hrel
  | wake mode lock ring run =>
      have idle := hex.parked _ (by simp) (by rw [mode]; decide) (by rw [mode]; decide)
      have out := (wp_exit_eq run).mp (Jos.trap_idle idle (by rw [ring]; decide))
      exact ⟨.dispatch out, out.alive alive⟩
  | store mode walk user write =>
      obtain ⟨e', -, -, hcr3⟩ := hex.user _ (by simp) mode
      have hpage := h.phys.tables.unshared.page_not_structural
        (h.phys.user_write hcr3 walk user write).2
      refine ⟨.phys fun f hf => ?_, alive⟩
      refine Phys.mem_setPage_of_ne _ _ ?_
      rintro rfl
      rcases hf with hd | ⟨i, ht⟩
      · exact hpage (.inl ⟨e, hd⟩)
      · exact hpage (.inr ⟨e, i, ht⟩)

/-- While only the others are active, `e` stays where it is. -/
theorem MemInv.others_run (h : MemInv L k) (hex : Exclusive Executing none k) (alive : k.Alive e)
    (run : Run (Others e) k k') : k.Untouched e k' ∧ k'.Alive e := by
  suffices hall : MemInv L k' ∧ Exclusive Executing none k' ∧ k.Untouched e k' ∧ k'.Alive e from
    hall.2.2
  induction run with
  | refl => exact ⟨h, hex, .refl e k, alive⟩
  | tail _ last ih =>
      obtain ⟨hmem, hex', huntouched, halive⟩ := ih
      obtain ⟨ev, hothers, hstep⟩ := last
      obtain ⟨hnext, halive'⟩ := hmem.others hex' halive hothers hstep
      exact ⟨hmem.step hex' executing hothers.safe.memory hstep,
        hex'.step executing hothers.safe.entry hstep, huntouched.trans hnext, halive'⟩

/-- An interrupt with a case in `trap_dispatch`. -/
theorem MemInv.transparent (h : MemInv L k) (hex : Exclusive Executing none k)
    (lock : k.Unlocked) (runs : k.RunsOn c e) (alive : k.status e ≠ .dying) {irq : Irq}
    (handled : irq.Handled) : Transparent k c e irq := by
  obtain ⟨mode, own⟩ := runs
  intro tf cr2 input ring trapno
  obtain ⟨k', hrun, out, hmem⟩ := (h.setTf (e := e) (t := tf)).handles handled trapno cr2 input
  have htrap : Jos.trap c tf cr2 input k = .exit () k' := by
    rw [Jos.trap, when_pos _ ring, bind_ret _ (trapEnter_saves own alive)]
    exact hrun
  obtain ⟨hphys, hdirs⟩ := out.memory
  rw [Kernel.dirs_setTf] at hdirs
  have hstep : Step k (.trap c tf cr2 input) k' := .trap mode lock ring htrap
  have hsafe : SafeStep k (.trap c tf cr2 input) :=
    .of_trapno (trapno.trans_ne irq.vector_ne_syscall)
  have hused : k.status e ≠ .free := by
    obtain ⟨e', own', hok, -⟩ := hex.user c (by simp) mode
    rw [Option.some.inj (own.symm.trans own')]
    exact fun hf => executing.not_free (hf ▸ hok)
  have halive : k'.Alive e := out.alive (.setTf ⟨hused, alive⟩)
  refine ⟨k', htrap, hphys, fun k₂ hothers => ?_⟩
  obtain ⟨huntouched, halive₂⟩ :=
    hmem.others_run (hex.step executing hsafe.entry hstep) halive hothers
  refine ⟨halive₂, ?_, ?_, fun i j => ?_⟩
  · rw [huntouched.field (f := Env.tf) fun _ => rfl,
      out.field (f := Env.tf) (fun _ _ _ _ => rfl) e, Kernel.setTf, Kernel.setEnv_envs_self]
  · rw [huntouched.pgdir, hdirs]
  · rw [huntouched.pteAt, hphys, hdirs]
    rfl

/-- Any other interrupt destroys the environment; a zombie goes in any case. -/
theorem MemInv.unexpected (h : MemInv L k) (own : k.curenv c = some e)
    (used : k.status e ≠ .free) (ring : tf.cs &&& 3 = 3) {irq : Irq}
    (unhandled : ¬ (irq.Handled ∧ k.status e ≠ .dying)) (trapno : tf.trapno = irq.vector)
    (run : Jos.trap c tf cr2 input k = .exit () k') : k'.status e = .free := by
  by_cases zombie : k.status e = .dying
  · cases (wp_exit_eq run).mp (Jos.trap_entry own ring) with
    | idle none out => exact absurd (none.symm.trans own) (by simp)
    | collect own' zombie' same out =>
        obtain rfl := Option.some.inj (own'.symm.trans own)
        exact (out.stays_free same.exited.1 same.exited.2).1
    | act own' alive op out =>
        obtain rfl := Option.some.inj (own'.symm.trans own)
        exact absurd zombie alive
  · have hring : tf.cs ≠ gdKt := by
      intro hcs
      rw [hcs] at ring
      exact absurd ring (by decide)
    have own' : (k.setTf e tf).curenv c = some e := own
    have used' : (k.setTf e tf).status e ≠ .free := by rwa [Kernel.setTf_status]
    obtain ⟨k₁, hdestroy, hfree, -⟩ := h.setTf.envDestroy_exits own' used'
    have hdispatch : Jos.trapDispatch c tf cr2 input (k.setTf e tf) = .exit () k₁ := by
      rw [trapDispatch_unexpected (fun hh => unhandled ⟨hh, zombie⟩) trapno, if_neg hring, own']
      exact hdestroy
    rw [Jos.trap, when_pos _ ring, bind_ret _ (trapEnter_saves own zombie),
      bind_exit _ hdispatch] at run
    obtain ⟨-, rfl⟩ := Outcome.exit.inj run
    exact hfree

theorem MemInv.transparent_iff (h : MemInv L k) (hex : Exclusive Executing none k)
    (lock : k.Unlocked) (runs : k.RunsOn c e) (irq : Irq) :
    Transparent k c e irq ↔ irq.Handled ∧ k.status e ≠ .dying := by
  refine ⟨fun htransparent => ?_, fun hh => h.transparent hex lock runs hh.2 hh.1⟩
  by_contra unhandled
  obtain ⟨mode, own⟩ := runs
  let tf : Trapframe := { Trapframe.fresh with trapno := irq.vector }
  have ring : tf.cs &&& 3 = 3 := by
    change (gdUt ||| 3) &&& 3 = 3
    decide
  have trapno : tf.trapno = irq.vector := rfl
  obtain ⟨e', own', hok, -⟩ := hex.user c (by simp) mode
  obtain rfl := Option.some.inj (own.symm.trans own')
  obtain ⟨k', hrun, -, hothers⟩ := htransparent tf 0 0 ring trapno
  have used : k.status e ≠ .free := fun hf => executing.not_free (hf ▸ hok)
  exact (hothers k' .refl).alive.1 (h.unexpected own used ring unhandled trapno hrun)

theorem MemInv.haltSafe_iff (h : MemInv L k) (c : Nat) (irq : Irq) :
    HaltSafe k c irq ↔ irq.Handled := by
  have htrap : ∀ {tf : Trapframe} {cr2 input : Word}, tf.cs = gdKt → Jos.trap c tf cr2 input k =
      (do Jos.trapDispatch c tf cr2 input; Jos.trapReturn c) k := by
    intro tf cr2 input ring
    rw [Jos.trap, when_neg _ (by rw [ring]; decide)]
    rfl
  constructor
  · intro hsafe
    by_contra unhandled
    refine hsafe { Trapframe.fresh with cs := gdKt, trapno := irq.vector } 0 0 rfl rfl
      .unhandledTrap ?_
    rw [htrap rfl]
    refine bind_panic _ ?_
    rw [trapDispatch_unexpected unhandled rfl, if_pos rfl]
    rfl
  · intro handled tf cr2 input ring trapno why hpanic
    obtain ⟨k', hrun, -⟩ := h.handles handled trapno cr2 input
    rw [htrap ring, hrun] at hpanic
    cases hpanic

/-- Of the interrupts with a gate, the timer and the spurious one are transparent for each
environment that has not been destroyed, and no other interrupt is for any; on a halted CPU
these two do not panic, and every other does. -/
theorem interrupts_transparent_iff (mem : MemInv L k) (hex : Exclusive Executing none k)
    (lock : k.Unlocked) (irq : Irq) :
    (∀ c e, k.RunsOn c e → (Transparent k c e irq ↔ irq.Handled ∧ k.status e ≠ .dying)) ∧
      ∀ c, k.mode c = .halted → (HaltSafe k c irq ↔ irq.Handled) := by
  exact ⟨fun c e runs => mem.transparent_iff hex lock runs irq, fun c _ => mem.haltSafe_iff c irq⟩

/-- The timer interrupts the first environment. -/
theorem interrupts_transparent_iff_first : ∃ k₀ k d, Booted qemu [intProgram] k₀ ∧
    Run SafeStep k₀ k ∧ k.Executes 0 0 d ∧ Transparent k 0 0 .timer := by
  obtain ⟨k₀, k, d, -, hbooted, hrun, hruns, -, -⟩ := qemu_runs
  obtain ⟨L, -, -, hmem, hex⟩ := hbooted.run hrun
  have hx := hruns.executes
  refine ⟨k₀, k, d, hbooted, hrun, hx,
    ((interrupts_transparent_iff hmem hex hx.unlocked .timer).1 0 0 hx.runsOn).mpr ⟨.inl rfl, ?_⟩⟩
  rw [hx.running]
  decide

/-- A key is pressed while the first environment runs. -/
theorem keyboard_destroys : ∃ k₀ k d, Booted qemu [intProgram] k₀ ∧ Run SafeStep k₀ k ∧
    k.Executes 0 0 d ∧ ¬ Transparent k 0 0 .kbd := by
  obtain ⟨k₀, k, d, -, hbooted, hrun, hruns, -, -⟩ := qemu_runs
  obtain ⟨L, -, -, hmem, hex⟩ := hbooted.run hrun
  have hx := hruns.executes
  refine ⟨k₀, k, d, hbooted, hrun, hx, fun htransparent => ?_⟩
  have hhandled := ((hmem.transparent_iff hex hx.unlocked hx.runsOn .kbd).mp htransparent).1
  exact absurd hhandled (by decide)

end Jos
