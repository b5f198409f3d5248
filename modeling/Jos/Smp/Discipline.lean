import Jos.Boot.Program
import Jos.Smp.Machine

/-!
# The discipline of the big kernel lock

Lock and unlock are in different functions, on paths that do not return. `LockInv` says
at which program counters a processor has the lock, at which of them it has also
recorded so, and at which its status is `CPU_HALTED`. One step of one processor keeps
this, whatever the others are doing.
-/

namespace Jos

open Prog

/-- `kernel_lock.cpu` is this processor. -/
def Pc.recorded : Pc → Bool
  | .spinLock _ _ => false
  | .spinUnlock pc _ => pc ≠ .xchg
  | pc => pc.inside

/-- The interrupt came in user mode. -/
def Interrupt.fromUser (t : Interrupt) : Bool := t.tf.cs &&& 3 = 3

/-- The status of this processor is `CPU_HALTED`. -/
def Pc.asleep : Pc → Bool
  | .spinUnlock _ exit => exit = .schedHalt
  | .halted => true
  | .trapPanicstr t | .trapStatus t | .stopped t => !t.fromUser
  | _ => false

/-- `trap` locks on its first occasion exactly if the processor was not in user mode. -/
def Pc.Sound : Pc → Prop
  | .spinLock _ (.trapHalted t) => t.fromUser = false
  | .trapRing t woken => woken = !t.fromUser
  | .returned | .alreadyHolding | .notHolding => False
  | _ => True

/-- The first processor that `boot_aps` has not started yet. -/
def Pc.boots : Pc → Option Nat
  | .i386Init | .spinLock _ .i386Init => some 0
  | .bootAps i => some i
  | .awaitAp i => some (i + 1)
  | _ => none

theorem Pc.inside_of_recorded {pc : Pc} (h : pc.recorded) : pc.inside := by
  cases pc with
  | spinUnlock => rfl
  | spinLock => simp [recorded] at h
  | _ => exact h

/-- A way out of the kernel. -/
def CpuMode.Out (mode : CpuMode) : Prop := mode = .user ∨ mode = .halted ∨ mode = .monitor

section Ends

variable {c : Nat} {tf : Trapframe} {k k' : Kernel} {cur : EnvIdx}

theorem Dispatch.out (h : Dispatch c k k') : (k'.mode c).Out := by
  cases h with
  | run => simp [Kernel.mode, Kernel.ran, Kernel.setCpu, CpuMode.Out]
  | halt => simp [Kernel.mode, Kernel.setCpu, CpuMode.Out]
  | monitor => simp [Kernel.mode, Kernel.setCpu, CpuMode.Out]

theorem Finish.out (h : Finish c tf cur k k') : (k'.mode c).Out := by
  cases h with
  | dispatch out => exact out.out
  | result _ out => exact out.out
  | wait _ out => exact out.out
  | exit _ out => exact out.out
  | upcall => simp [Kernel.mode, Kernel.ran, Kernel.setCpu, CpuMode.Out]

theorem Entry.out (h : Entry c tf k k') : (k'.mode c).Out := by
  cases h with
  | idle _ out => exact out.out
  | collect _ _ _ out => exact out.out
  | act _ _ _ out => exact out.out

/-- `m` does not return: it leaves the kernel, or panics. -/
def Ends (c : Nat) (m : KM Unit) (k : Kernel) : Prop :=
  wp m (fun _ _ => False) (fun _ k' => (k'.mode c).Out) (fun _ => True) k

theorem schedYield_ends : Ends c (schedYield c) k :=
  wp_mono (schedYield_dispatch (Q := fun _ _ => False)) (fun _ _ hf => hf) (fun _ _ out => out.out)
    (fun _ he => he)

theorem trap_ends {cr2 input : Word} : Ends c (trap c tf cr2 input) k := by
  by_cases ring : tf.cs &&& 3 = 3
  · cases own : k.curenv c with
    | none =>
        rw [Ends, trap, when_pos _ ring, trapEnter, wp_bind, wp_bind, wp_get, own, wp_panic]
        trivial
    | some cur =>
        exact wp_mono (trap_entry own ring) (fun _ _ hf => hf) (fun _ _ entry => entry.out)
          (fun _ he => he)
  · cases own : k.curenv c with
    | none =>
        exact wp_mono (trap_idle own ring) (fun _ _ hf => hf) (fun _ _ out => out.out)
          (fun _ he => he)
    | some cur =>
        rw [Ends, trap, when_neg _ ring, wp_bind, wp_pure]
        refine wp_mono (trapDispatch_op own) (fun _ _ hf => hf) ?_ (fun _ he => he)
        rintro _ k' ⟨k₁, -, out⟩
        exact out.out

theorem envAlloc_stays (parentId : Word) :
    wp (envAlloc parentId) (fun _ _ => True) (fun _ _ => False) (fun _ => True) k := by
  rw [envAlloc, wp_bind, wp_get]
  cases k.envFreeList with
  | none =>
      rw [wp_pure]
      trivial
  | some e =>
      rw [wp_bind]
      apply wp_imp envSetupVm_op
      intro r k₁ _
      rw [wp_ite]
      simp only [wp_bind, wp_modify, wp_pure, implies_true, and_self]

theorem loadIcode_stays (e : EnvIdx) (binary : Binary) :
    wp (loadIcode e binary) (fun _ _ => True) (fun _ _ => False) (fun _ => True) k := by
  rw [loadIcode, wp_ite]
  refine ⟨fun _ => (wp_panic _).mpr trivial, fun _ => ?_⟩
  have hpmap : ∀ (m : Pmap Unit) (k : Kernel),
      wp (pmap m) (fun _ _ => True) (fun _ _ => False) (fun _ => True) k :=
    fun m k => wp_zoom_frame fun _ _ => trivial
  rw [wp_bind, paddrPgdir, wp_bind, wp_get]
  cases (k.envs e).pgdir with
  | none => exact (wp_panic _).mpr trivial
  | some d =>
      rw [wp_pure, wp_bind]
      apply wp_imp (hpmap _ _)
      intro _ k₁ _
      rw [wp_bind, wp_modify]
      exact hpmap _ _

/-- Only `sched_yield` leaves `i386_init`. -/
theorem envCreates_stays (binaries : List Binary) :
    wp (envCreates binaries) (fun _ _ => True) (fun _ _ => False) (fun _ => True) k := by
  induction binaries generalizing k with
  | nil => exact (wp_pure _).mpr trivial
  | cons binary rest ih =>
      rw [envCreates, wp_bind, envCreate, wp_bind]
      apply wp_imp (envAlloc_stays 0)
      intro r k₁ _
      cases r with
      | error w => exact (wp_panic _).mpr trivial
      | ok e =>
          rw [wp_bind]
          apply wp_imp (loadIcode_stays e binary)
          intro _ k₂ _
          rw [wp_modify]
          exact ih

end Ends

namespace Smp

/-- The lock and the processors inside. -/
structure LockInv (s : Smp) : Prop where
  bit : s.lock.locked = 0 ∨ s.lock.locked = 1
  locked : s.lock.locked = 1 ↔ ∃ c, (s.pc c).inside
  unique : ∀ c c', (s.pc c).inside → (s.pc c').inside → c = c'
  cpu : ∀ c, s.lock.cpu = some c ↔ (s.pc c).recorded

/-- What a processor's program counter tells about it. -/
structure PcInv (s : Smp) : Prop where
  status : ∀ c, s.status c = .halted ↔ (s.pc c).asleep
  sound : ∀ c, (s.pc c).Sound
  boots : ∀ c i, (s.pc c).boots = some i → ∀ j, i ≤ j → j ≠ c → s.pc j = .off
  bootcpu : ∀ c c', (s.pc c).boots ≠ none → (s.pc c').boots ≠ none → c = c'

section Move

variable {s t : Smp} {c : Nat} {pc : Pc}

namespace PcInv

/-- Processor `c` goes on to `pc`. -/
theorem move (h : PcInv s) (awake : s.pc c ≠ .off) (goes : t.pc = Function.update s.pc c pc)
    (others : ∀ c', c' ≠ c → t.status c' = s.status c')
    (status : t.status c = .halted ↔ pc.asleep) (sound : pc.Sound)
    (boots : ∀ i, pc.boots = some i → ∃ i' ≤ i, (s.pc c).boots = some i') : PcInv t where
  status c' := by
    by_cases hc : c' = c
    · subst hc
      rwa [goes, Function.update_self]
    · rw [goes, Function.update_of_ne hc, others c' hc]
      exact h.status c'
  sound c' := by
    by_cases hc : c' = c
    · subst hc
      rwa [goes, Function.update_self]
    · rw [goes, Function.update_of_ne hc]
      exact h.sound c'
  boots c' i hi j hij hj := by
    by_cases hc : c' = c
    · subst hc
      rw [goes, Function.update_self] at hi
      obtain ⟨i', hle, hi'⟩ := boots i hi
      rw [goes, Function.update_of_ne hj]
      exact h.boots c' i' hi' j (hle.trans hij) hj
    · rw [goes, Function.update_of_ne hc] at hi
      have hoff := h.boots c' i hi j hij hj
      have hne : j ≠ c := by
        rintro rfl
        exact awake hoff
      rw [goes, Function.update_of_ne hne, hoff]
  bootcpu c₁ c₂ h₁ h₂ := by
    have hold : ∀ c', (t.pc c').boots ≠ none → (s.pc c').boots ≠ none := by
      intro c' hboot
      by_cases hc : c' = c
      · subst hc
        rw [goes, Function.update_self, Option.ne_none_iff_exists'] at hboot
        obtain ⟨i, hi⟩ := hboot
        obtain ⟨i', -, hi'⟩ := boots i hi
        simp [hi']
      · rwa [goes, Function.update_of_ne hc] at hboot
    exact h.bootcpu c₁ c₂ (hold c₁ h₁) (hold c₂ h₂)

/-- `boot_aps` starts processor `i`. -/
theorem wake {i : Nat} (h : PcInv s) (off : s.pc i = .off)
    (next : ∀ c' i', (s.pc c').boots = some i' → i < i') : PcInv (s.goto i .mpMain) := by
  have hboots : ∀ c', ((s.goto i .mpMain).pc c').boots = (s.pc c').boots := by
    intro c'
    by_cases hc : c' = i
    · subst hc
      rw [goto_self, off]
      rfl
    · rw [goto_of_ne _ _ hc]
  refine ⟨fun c' => ?_, fun c' => ?_, fun c' i' hi j hij hj => ?_, fun c₁ c₂ h₁ h₂ => ?_⟩
  · have hst := h.status c'
    by_cases hc : c' = i
    · subst hc
      rw [off] at hst
      rw [goto_self]
      exact hst
    · rwa [goto_of_ne _ _ hc]
  · by_cases hc : c' = i
    · subst hc
      simp [Pc.Sound]
    · rw [goto_of_ne _ _ hc]
      exact h.sound c'
  · rw [hboots] at hi
    have hlt := next c' i' hi
    rw [goto_of_ne _ _ (by omega)]
    exact h.boots c' i' hi j hij hj
  · rw [hboots] at h₁ h₂
    exact h.bootcpu c₁ c₂ h₁ h₂

end PcInv

namespace LockInv

theorem not_inside (h : LockInv s) (free : s.lock.locked = 0) (c : Nat) :
    (s.pc c).inside = false := by
  by_contra hin
  have hone := h.locked.mpr ⟨c, by simpa using hin⟩
  rw [free] at hone
  simp at hone

/-- Processor `c` neither takes the lock nor gives it back. -/
theorem move (h : LockInv s) (lock : t.lock = s.lock) (goes : t.pc = Function.update s.pc c pc)
    (inside : pc.inside = (s.pc c).inside) (recorded : pc.recorded = (s.pc c).recorded) :
    LockInv t := by
  have hinside : ∀ c', (t.pc c').inside = (s.pc c').inside := by
    intro c'
    by_cases hc : c' = c
    · subst hc
      rwa [goes, Function.update_self]
    · rw [goes, Function.update_of_ne hc]
  have hrecorded : ∀ c', (t.pc c').recorded = (s.pc c').recorded := by
    intro c'
    by_cases hc : c' = c
    · subst hc
      rwa [goes, Function.update_self]
    · rw [goes, Function.update_of_ne hc]
  refine ⟨?_, ?_, fun c₁ c₂ => ?_, fun c' => ?_⟩
  · rw [lock]
    exact h.bit
  · simpa only [lock, hinside] using h.locked
  · simpa only [hinside] using h.unique c₁ c₂
  · rw [lock, hrecorded]
    exact h.cpu c'

/-- Processor `c` finds the lock free and takes it. -/
theorem acquire (h : LockInv s) (free : s.lock.locked = 0) (locked : t.lock.locked = 1)
    (cpu : t.lock.cpu = s.lock.cpu) (goes : t.pc = Function.update s.pc c pc)
    (inside : pc.inside = true) (recorded : pc.recorded = false) : LockInv t := by
  have hout := h.not_inside free
  have honly : ∀ c', (t.pc c').inside → c' = c := by
    intro c' hin
    by_contra hc
    rw [goes, Function.update_of_ne hc, hout] at hin
    simp at hin
  have hself : (t.pc c).inside := by rwa [goes, Function.update_self]
  refine ⟨.inr locked, ⟨fun _ => ⟨c, hself⟩, fun _ => locked⟩, fun c₁ c₂ h₁ h₂ => ?_, fun c' => ?_⟩
  · rw [honly c₁ h₁, honly c₂ h₂]
  · rw [cpu, h.cpu c', goes]
    by_cases hc : c' = c
    · subst hc
      have hno : (s.pc c').recorded = false := by
        by_contra hrec
        have hin := Pc.inside_of_recorded (by simpa using hrec)
        rw [hout] at hin
        simp at hin
      rw [Function.update_self, recorded, hno]
    · rw [Function.update_of_ne hc]

/-- A processor inside writes to `kernel_lock.cpu`. -/
theorem write (h : LockInv s) (own : (s.pc c).inside) (locked : t.lock.locked = s.lock.locked)
    (goes : t.pc = Function.update s.pc c pc) (inside : pc.inside)
    (cpu : ∀ c', t.lock.cpu = some c' ↔ c' = c ∧ pc.recorded) : LockInv t := by
  have hinside : ∀ c', (t.pc c').inside = (s.pc c').inside := by
    intro c'
    by_cases hc : c' = c
    · subst hc
      rw [goes, Function.update_self, inside, own]
    · rw [goes, Function.update_of_ne hc]
  refine ⟨?_, ?_, fun c₁ c₂ => ?_, fun c' => ?_⟩
  · rw [locked]
    exact h.bit
  · simpa only [locked, hinside] using h.locked
  · simpa only [hinside] using h.unique c₁ c₂
  · rw [cpu c', goes]
    by_cases hc : c' = c
    · subst hc
      simp
    · -- the others are not inside, so they have recorded nothing
      have hno : ¬ (s.pc c').recorded := fun hrec =>
        hc (h.unique c' c (Pc.inside_of_recorded hrec) own)
      simp [hc, hno]

/-- The processor inside gives the lock back. -/
theorem release (h : LockInv s) (own : (s.pc c).inside) (cleared : (s.pc c).recorded = false)
    (locked : t.lock.locked = 0) (cpu : t.lock.cpu = s.lock.cpu)
    (goes : t.pc = Function.update s.pc c pc) (inside : pc.inside = false)
    (recorded : pc.recorded = false) : LockInv t := by
  have hout : ∀ c', (t.pc c').inside = false := by
    intro c'
    by_cases hc : c' = c
    · subst hc
      rwa [goes, Function.update_self]
    · rw [goes, Function.update_of_ne hc]
      by_contra hin
      exact hc (h.unique c' c (by simpa using hin) own)
  refine ⟨.inl locked, ?_, fun c₁ c₂ h₁ => ?_, fun c' => ?_⟩
  · rw [locked]
    simp [hout]
  · simp [hout] at h₁
  · rw [cpu, h.cpu c', goes]
    by_cases hc : c' = c
    · subst hc
      rw [Function.update_self, recorded, cleared]
    · rw [Function.update_of_ne hc]

end LockInv

end Move

/-- Everything that every processor's step keeps. -/
structure Inv (s : Smp) : Prop where
  lock : LockInv s
  pcs : PcInv s

namespace Inv

variable {s t : Smp} {m : Config} {c : Nat} {pc : Pc}

/-- A step that does not touch the lock. -/
theorem move (h : Inv s) (awake : s.pc c ≠ .off) (lock : t.lock = s.lock)
    (goes : t.pc = Function.update s.pc c pc)
    (others : ∀ c', c' ≠ c → t.status c' = s.status c')
    (inside : pc.inside = (s.pc c).inside) (recorded : pc.recorded = (s.pc c).recorded)
    (status : t.status c = .halted ↔ pc.asleep) (sound : pc.Sound)
    (boots : ∀ i, pc.boots = some i → ∃ i' ≤ i, (s.pc c).boots = some i') : Inv t :=
  ⟨h.lock.move lock goes inside recorded, h.pcs.move awake goes others status sound boots⟩

/-- A step to another program counter, and nothing else. -/
theorem goto {old : Pc} (h : Inv s) (at_ : s.pc c = old) (awake : old ≠ .off)
    (inside : pc.inside = old.inside) (recorded : pc.recorded = old.recorded)
    (asleep : pc.asleep = old.asleep) (sound : pc.Sound)
    (boots : ∀ i, pc.boots = some i → ∃ i' ≤ i, old.boots = some i') : Inv (s.goto c pc) := by
  subst at_
  refine h.move awake rfl rfl (fun _ _ => rfl) inside recorded ?_ sound boots
  rw [asleep]
  exact h.pcs.status c

/-- A step that also sets the status of the processor. -/
theorem setStatus {old : Pc} {st : CpuStatus} (h : Inv s) (at_ : s.pc c = old) (awake : old ≠ .off)
    (inside : pc.inside = old.inside) (recorded : pc.recorded = old.recorded)
    (asleep : st = .halted ↔ pc.asleep) (sound : pc.Sound)
    (boots : ∀ i, pc.boots = some i → ∃ i' ≤ i, old.boots = some i') :
    Inv ((s.setCpuStatus c st).goto c pc) := by
  subst at_
  refine h.move awake rfl rfl (fun c' hc => Function.update_of_ne hc _ _) inside recorded ?_ sound
    boots
  simpa only [Smp.goto, setCpuStatus, Function.update_self] using asleep

theorem spinLock {at_ : LockPc} {caller : Caller} (h : Inv s) (hpc : s.pc c = .spinLock at_ caller) :
    Inv (s.spinLock c caller at_) := by
  have hsound := h.pcs.sound c
  have hboots : ∀ pc' i, (Pc.spinLock pc' caller).boots = some i →
      ∃ i' ≤ i, (Pc.spinLock at_ caller).boots = some i' := by
    intro pc' i hi
    refine ⟨i, Nat.le_refl i, ?_⟩
    cases caller <;> exact hi
  rw [hpc] at hsound
  have hnext : ∀ pc', (Pc.spinLock pc' caller).Sound := by
    intro pc'
    cases caller <;> exact hsound
  cases at_ with
  | testLocked =>
      rw [Smp.spinLock]
      split
      · exact h.goto hpc (by simp) rfl rfl rfl (hnext _) (hboots _)
      · exact h.goto hpc (by simp) rfl rfl rfl (hnext _) (hboots _)
  | testCpu =>
      have hcpu : s.lock.cpu ≠ some c := by
        rw [Ne, h.lock.cpu c, hpc]
        simp [Pc.recorded]
      rw [Smp.spinLock, if_neg hcpu]
      exact h.goto hpc (by simp) rfl rfl rfl (hnext _) (hboots _)
  | xchg =>
      rw [Smp.spinLock]
      dsimp only
      split
      · rename_i htaken
        have hone := h.lock.bit.resolve_left htaken
        have hsame : ({ s with lock := { s.lock with locked := 1 } } : Smp) = s := by
          rw [← hone]
        rwa [hsame]
      · rename_i hfree
        refine ⟨h.lock.acquire (not_not.mp hfree) rfl rfl rfl rfl rfl, ?_⟩
        refine h.pcs.move (by simp [hpc]) rfl (fun _ _ => rfl) ?_ (hnext _) ?_
        · have hst := h.pcs.status c
          rwa [hpc] at hst
        · rw [hpc]
          exact hboots _
  | setCpu =>
      have hinside : caller.next.inside ∧ caller.next.recorded := by
        cases caller <;> exact ⟨rfl, rfl⟩
      refine ⟨h.lock.write (by rw [hpc]; rfl) rfl rfl hinside.1 fun c' => ?_, ?_⟩
      · change some c = some c' ↔ _
        simp [hinside.2, eq_comm]
      · refine h.pcs.move (by simp [hpc]) rfl (fun _ _ => rfl) ?_ ?_ ?_
        · have hst := h.pcs.status c
          rw [hpc] at hst
          cases caller <;> exact hst
        · cases caller with
          | trapHalted t =>
              have hring : t.fromUser = false := hsound
              simp [Caller.next, Pc.Sound, hring]
          | _ => trivial
        · rw [hpc]
          cases caller with
          | i386Init => exact fun i hi => ⟨i, Nat.le_refl i, hi⟩
          | _ => simp [Caller.next, Pc.boots]

theorem spinUnlock {at_ : UnlockPc} {exit : Exit} (h : Inv s)
    (hpc : s.pc c = .spinUnlock at_ exit) : Inv (s.spinUnlock c exit at_) := by
  have hinside : (s.pc c).inside := by rw [hpc]; rfl
  cases at_ with
  | testLocked =>
      have hone := h.lock.locked.mpr ⟨c, hinside⟩
      rw [Smp.spinUnlock, if_pos (by rw [hone]; decide)]
      exact h.goto hpc (by simp) rfl rfl rfl trivial (by simp [Pc.boots])
  | testCpu =>
      have hcpu : s.lock.cpu = some c := by
        rw [h.lock.cpu c, hpc]
        rfl
      rw [Smp.spinUnlock, if_pos hcpu]
      exact h.goto hpc (by simp) rfl rfl rfl trivial (by simp [Pc.boots])
  | clearCpu =>
      refine ⟨h.lock.write hinside rfl rfl rfl fun c' => ?_, ?_⟩
      · change none = some c' ↔ _
        simp [Pc.recorded]
      · refine h.pcs.move (by simp [hpc]) rfl (fun _ _ => rfl) ?_ trivial (by simp [Pc.boots])
        have hst := h.pcs.status c
        rwa [hpc] at hst
  | xchg =>
      have hout : exit.next.inside = false ∧ exit.next.recorded = false := by
        cases exit <;> exact ⟨rfl, rfl⟩
      refine ⟨h.lock.release hinside (by rw [hpc]; rfl) rfl rfl rfl hout.1 hout.2, ?_⟩
      refine h.pcs.move (by simp [hpc]) rfl (fun _ _ => rfl) ?_ ?_ ?_
      · have hst := h.pcs.status c
        rw [hpc] at hst
        cases exit <;> exact hst
      · cases exit <;> trivial
      · cases exit <;> simp [Exit.next, Pc.boots]

/-- Work that does not return goes on to `unlock_kernel`, or to the monitor. -/
theorem leave {w : Work} {o : KM Unit} (h : Inv s) (hpc : s.pc c = .work w)
    (ends : Ends c o s.kernel) : Inv (s.leave c (o s.kernel)) := by
  have hgo : ∀ (t : Smp) (pc : Pc), t.lock = s.lock → t.status = s.status →
      t.pc = Function.update s.pc c pc → pc.inside → pc.recorded → pc.asleep = false →
      pc.Sound → pc.boots = none → Inv t := by
    intro t pc hlock hstatus hgoes hin hrec hasleep hsound hboots
    refine h.move (by simp [hpc]) hlock hgoes (fun _ _ => by rw [hstatus]) ?_ ?_ ?_ hsound ?_
    · rw [hin, hpc]
      rfl
    · rw [hrec, hpc]
      rfl
    · rw [hstatus, hasleep, h.pcs.status c, hpc]
      rfl
    · simp [hboots]
  rw [Ends] at ends
  cases ho : o s.kernel with
  | ret a k => exact ((wp_ret ho).mp ends).elim
  | panic e => exact hgo _ .monitor rfl rfl rfl rfl rfl rfl trivial rfl
  | exit r k =>
      rcases (wp_exit_eq ho).mp ends with hmode | hmode | hmode
      · refine hgo _ (.spinUnlock .testLocked .envRun) rfl rfl ?_ rfl rfl rfl trivial rfl
        simp only [Smp.leave, hmode]
        rfl
      · refine hgo _ .haltStatus rfl rfl ?_ rfl rfl rfl trivial rfl
        simp only [Smp.leave, hmode]
        rfl
      · refine hgo _ .monitor rfl rfl ?_ rfl rfl rfl trivial rfl
        simp only [Smp.leave, hmode]
        rfl

theorem work {w : Work} (h : Inv s) (hpc : s.pc c = .work w) (binaries : List Binary) :
    Inv (s.work c binaries w) := by
  cases w with
  | create =>
      have hstays := envCreates_stays (k := s.kernel) binaries
      rw [Smp.work]
      cases hrun : envCreates binaries s.kernel with
      | ret _ k =>
          refine h.move (by simp [hpc]) rfl rfl (fun _ _ => rfl) ?_ ?_ ?_ trivial (by simp [Pc.boots])
          · rw [hpc]
            rfl
          · rw [hpc]
            rfl
          · have hst := h.pcs.status c
            rwa [hpc] at hst
      | exit r k => exact ((wp_exit_eq hrun).mp hstays).elim
      | panic e =>
          have hends : Ends c (envCreates binaries) s.kernel := (wp_panic_eq hrun).mpr trivial
          have hleave := h.leave hpc hends
          rwa [hrun] at hleave
  | sched => exact h.leave hpc schedYield_ends
  | trap t => exact h.leave hpc trap_ends

/-- `boot_aps` starts the next processor. -/
theorem startAp {i : Nat} (h : Inv s) (hpc : s.pc c = .bootAps i) (other : i ≠ c) :
    Inv ((s.goto i .mpMain).goto c (.awaitAp i)) := by
  have hoff := h.pcs.boots c i (by rw [hpc]; rfl) i (Nat.le_refl i) other
  have hcomm : (s.goto i .mpMain).goto c (.awaitAp i) =
      (s.goto c (.awaitAp i)).goto i .mpMain := by
    simp only [Smp.goto, Function.update_comm (Ne.symm other)]
  have hwait : Inv (s.goto c (.awaitAp i)) := by
    refine h.goto hpc (by simp) rfl rfl rfl trivial fun j hj => ⟨i, ?_, rfl⟩
    rw [Pc.boots, Option.some.injEq] at hj
    omega
  have hoff' : (s.goto c (.awaitAp i)).pc i = .off := by rw [goto_of_ne _ _ other, hoff]
  rw [hcomm]
  refine ⟨hwait.lock.move rfl rfl ?_ ?_, hwait.pcs.wake hoff' fun c' i' hi' => ?_⟩
  · rw [hoff']
    rfl
  · rw [hoff']
    rfl
  · obtain rfl : c' = c := hwait.pcs.bootcpu c' c (by simp [hi']) (by simp [Pc.boots])
    rw [goto_self, Pc.boots, Option.some.injEq] at hi'
    omega

/-- An interrupt in user mode, or on a halted processor. -/
theorem interrupt {old : Pc} {t : Interrupt} (h : Inv s) (hpc : s.pc c = old)
    (out : old = .user ∧ t.fromUser ∨ old = .halted ∧ t.fromUser = false) :
    Inv (s.goto c (.trapPanicstr t)) := by
  rcases out with ⟨rfl, hring⟩ | ⟨rfl, hring⟩
  · refine h.goto hpc (by simp) rfl rfl ?_ trivial (by simp [Pc.boots])
    simp [Pc.asleep, hring]
  · refine h.goto hpc (by simp) rfl rfl ?_ trivial (by simp [Pc.boots])
    simp [Pc.asleep, hring]

theorem userStore (h : Inv s) (va : Word) (b : Byte) : Inv (s.userStore c va b) := by
  rw [Smp.userStore]
  split
  · split
    · exact ⟨⟨h.lock.bit, h.lock.locked, h.lock.unique, h.lock.cpu⟩,
        ⟨h.pcs.status, h.pcs.sound, h.pcs.boots, h.pcs.bootcpu⟩⟩
    · exact h
  · exact h

theorem step (h : Inv s) (m : Config) (c : Nat) (signal : Signal) : Inv (s.step c m signal) := by
  have hsound := h.pcs.sound c
  have hstatus := h.pcs.status c
  cases hpc : s.pc c with
  | off | monitor | stopped | returned | alreadyHolding | notHolding =>
      simpa only [Smp.step, hpc] using h
  | i386Init =>
      simp only [Smp.step, hpc]
      split
      · exact h.setStatus hpc (by simp) rfl rfl (by simp [Pc.asleep]) trivial
          fun i hi => ⟨i, Nat.le_refl i, hi⟩
      · exact h.goto hpc (by simp) rfl rfl rfl trivial fun i hi => ⟨i, Nat.le_refl i, hi⟩
  | mpMain =>
      simp only [Smp.step, hpc]
      exact h.setStatus hpc (by simp) rfl rfl (by simp [Pc.asleep]) trivial (by simp [Pc.boots])
  | spinLock pc caller =>
      simp only [Smp.step, hpc]
      exact h.spinLock hpc
  | bootAps i =>
      simp only [Smp.step, hpc]
      split
      · split
        · refine h.goto hpc (by simp) rfl rfl rfl trivial fun j hj => ⟨i, ?_, rfl⟩
          rw [Pc.boots, Option.some.injEq] at hj
          omega
        · rename_i hother
          exact h.startAp hpc hother
      · exact h.goto hpc (by simp) rfl rfl rfl trivial (by simp [Pc.boots])
  | awaitAp i =>
      simp only [Smp.step, hpc]
      split
      · exact h.goto hpc (by simp) rfl rfl rfl trivial fun j hj => ⟨j, Nat.le_refl j, hj⟩
      · exact h
  | trapPanicstr t =>
      simp only [Smp.step, hpc]
      split
      · exact h.goto hpc (by simp) rfl rfl rfl trivial (by simp [Pc.boots])
      · exact h.goto hpc (by simp) rfl rfl rfl trivial (by simp [Pc.boots])
  | trapStatus t =>
      rw [hpc] at hstatus
      simp only [Smp.step, hpc]
      split
      · rename_i hhalted
        have hring : t.fromUser = false := by simpa [Pc.asleep] using hstatus.mp hhalted
        exact h.setStatus hpc (by simp) rfl rfl (by simp [Pc.asleep]) hring (by simp [Pc.boots])
      · rename_i hawake
        have hring : t.fromUser = true := by simpa [Pc.asleep, hawake] using hstatus
        exact h.setStatus hpc (by simp) rfl rfl (by simp [Pc.asleep]) (by simp [Pc.Sound, hring])
          (by simp [Pc.boots])
  | trapRing t woken =>
      rw [hpc] at hsound
      simp only [Smp.step, hpc]
      have hwoken : woken = !t.fromUser := hsound
      split
      · rename_i hring
        have hout : woken = false := by rw [hwoken, Interrupt.fromUser, decide_eq_true hring]; rfl
        subst hout
        exact h.goto hpc (by simp) rfl rfl rfl trivial (by simp [Pc.boots])
      · rename_i hring
        have hin : woken = true := by rw [hwoken, Interrupt.fromUser, decide_eq_false hring]; rfl
        subst hin
        exact h.goto hpc (by simp) rfl rfl rfl trivial (by simp [Pc.boots])
  | work w =>
      simp only [Smp.step, hpc]
      exact h.work hpc m.binaries
  | haltStatus =>
      simp only [Smp.step, hpc]
      exact h.setStatus hpc (by simp) rfl rfl (by simp [Pc.asleep]) trivial (by simp [Pc.boots])
  | spinUnlock pc exit =>
      simp only [Smp.step, hpc]
      exact h.spinUnlock hpc
  | user =>
      simp only [Smp.step, hpc]
      cases signal with
      | none => exact h
      | store va b => exact h.userStore va b
      | interrupt t =>
          dsimp only
          split
          · rename_i hring
            exact h.interrupt hpc (.inl ⟨rfl, decide_eq_true hring⟩)
          · exact h
  | halted =>
      simp only [Smp.step, hpc]
      cases signal with
      | none => exact h
      | store va b => exact h
      | interrupt t =>
          dsimp only
          split
          · rename_i hring
            refine h.interrupt hpc (.inr ⟨rfl, ?_⟩)
            rw [Interrupt.fromUser, hring]
            decide
          · exact h

theorem run (h : Inv s) (m : Config) (steps : List (Nat × Signal)) : Inv (s.run m steps) := by
  induction steps generalizing s with
  | nil => exact h
  | cons a rest ih => exact ih (h.step m a.1 a.2)

theorem start (m : Config) (k : Kernel) : Inv (start m k) := by
  have hpc : ∀ c, (Smp.start m k).pc c = if c = m.bootcpu then .i386Init else .off := fun _ => rfl
  have hcases : ∀ c, (Smp.start m k).pc c = .i386Init ∧ c = m.bootcpu ∨
      (Smp.start m k).pc c = .off := by
    intro c
    rw [hpc]
    by_cases hc : c = m.bootcpu
    · exact .inl ⟨if_pos hc, hc⟩
    · exact .inr (if_neg hc)
  have hout : ∀ c, ((Smp.start m k).pc c).inside = false := by
    intro c
    rcases hcases c with ⟨h, -⟩ | h <;> rw [h] <;> rfl
  refine ⟨⟨.inl rfl, ?_, fun c c' h => ?_, fun c => ?_⟩,
    ⟨fun c => ?_, fun c => ?_, fun c i hi j _ hj => ?_, fun c c' h h' => ?_⟩⟩
  · have hfree : (Smp.start m k).lock.locked = 0 := rfl
    simp [hout, hfree]
  · simp [hout] at h
  · rcases hcases c with ⟨h, -⟩ | h <;> rw [h] <;> simp [Smp.start, SpinLock.init, Pc.recorded, Pc.inside]
  · rcases hcases c with ⟨h, -⟩ | h <;> rw [h] <;> simp [Smp.start, Pc.asleep]
  · rcases hcases c with ⟨h, -⟩ | h <;> rw [h] <;> trivial
  · rcases hcases c with ⟨-, rfl⟩ | h
    · exact (hcases j).resolve_left fun hj' => hj hj'.2
    · simp [h, Pc.boots] at hi
  · have honly : ∀ c, ((Smp.start m k).pc c).boots ≠ none → c = m.bootcpu := by
      intro c hboot
      rcases hcases c with ⟨-, hc⟩ | h
      · exact hc
      · simp [h, Pc.boots] at hboot
    rw [honly c h, honly c' h']

end Inv

/-- The big kernel lock, in every state of every run of the processors. -/
theorem kernel_lock_discipline (m : Config) (k : Kernel) (steps : List (Nat × Signal)) :
    let s := (start m k).run m steps
    (s.lock.locked = 0 ∨ s.lock.locked = 1) ∧
      (s.lock.locked = 1 ↔ ∃ c, (s.pc c).inside) ∧
      (∀ c c', (s.pc c).inside → (s.pc c').inside → c = c') ∧
      (∀ c, s.status c = .halted → (s.pc c).inside →
        ∃ pc, s.pc c = .spinUnlock pc .schedHalt) ∧
      (∀ c, s.pc c ≠ .alreadyHolding) ∧ ∀ c, s.pc c ≠ .notHolding := by
  intro s
  have h : Inv s := (Inv.start m k).run m steps
  refine ⟨h.lock.bit, h.lock.locked, h.lock.unique, fun c hhalted hin => ?_, fun c hc => ?_,
    fun c hc => ?_⟩
  · have hasleep := (h.pcs.status c).mp hhalted
    generalize s.pc c = pc at hin hasleep
    cases pc with
    | spinUnlock pc exit =>
        have hexit : exit = .schedHalt := by simpa [Pc.asleep] using hasleep
        exact ⟨pc, by rw [hexit]⟩
    | _ => simp_all [Pc.asleep, Pc.inside]
  · have hsound := h.pcs.sound c
    rw [hc] at hsound
    exact hsound
  · have hsound := h.pcs.sound c
    rw [hc] at hsound
    exact hsound

/-- The processors of `qemu`, with one program. -/
def trio : Config := ⟨qemu.ncpu, 0, true, [intProgram]⟩

/-- Processor 0 starts the others and runs the program; then processor 1 gets the lock
and finds nothing to run. -/
def trioSteps : List (Nat × Signal) :=
  (List.replicate 6 0 ++ [1, 0, 0, 2] ++ List.replicate 8 0 ++ List.replicate 5 1).map (·, .none)

theorem trio_halts {k₀ k k₁ k₂ : Kernel} (create : envCreates [intProgram] k₀ = .ret () k)
    (first : (schedYield 0 : KM Unit) k = .exit () k₁) (user : k₁.mode 0 = .user)
    (second : (schedYield 1 : KM Unit) k₁ = .exit () k₂) (halted : k₂.mode 1 = .halted) :
    let s := (start trio k₀).run trio trioSteps
    s.status 1 = .halted ∧ s.pc 1 = .spinUnlock .testLocked .schedHalt ∧ s.lock = ⟨1, some 1⟩ := by
  simp [run, step, start, trio, qemu, trioSteps, spinLock, spinUnlock, goto, setCpuStatus, work, leave,
    create, first, user, second, halted, SpinLock.init, Caller.next, Exit.next, List.replicate]

/-- `sched_halt` sets the status before it gives the lock back. -/
theorem halted_holds_lock : ∃ k₀ k, Booted qemu [intProgram] k ∧
    envCreates [intProgram] k₀ = .ret () k ∧
    ∃ steps, let s := (start trio k₀).run trio steps
      s.status 1 = .halted ∧ (s.pc 1).inside ∧ s.lock = ⟨1, some 1⟩ := by
  obtain ⟨k, hbooted, hfirst, hcpus⟩ := qemu_boots
  obtain ⟨d, k₁, hstep, hruns⟩ := hfirst.runs hcpus
  have hyield : (schedYield 0 : KM Unit) k = .exit () k₁ := by
    cases hstep with
    | start _ _ run => exact run
  have hidle := (hruns.cpus 1 (by decide)).1
  have hscan : k₁.schedScan nenv none = none := by
    refine schedScan_none fun e => ?_
    by_cases he : e = 0
    · rw [he, hruns.executes.running]
      decide
    · have hfree := congrArg Env.status (hruns.others e he)
      rw [Kernel.status]
      exact ne_of_eq_of_ne hfree (by decide)
  have hhalt : (schedYield 1 : KM Unit) k₁ =
      .exit () (k₁.setCpu 1 { env := none, mode := .halted, cr3 := k₁.kernPgdir }) := by
    rw [schedYield, get_bind, hidle, Option.map_none, hscan]
    dsimp only
    rw [schedHalt, get_bind, if_pos ⟨0, .inr (.inl hruns.executes.running)⟩]
    rfl
  have hcreates := hbooted
  obtain ⟨_, _, _, _, _, _, _, _, _, _, _, _, hcreate⟩ := hcreates
  obtain ⟨hstatus, hpc, hlock⟩ := trio_halts hcreate hyield hruns.executes.mode hhalt
    (by simp [Kernel.mode, Kernel.setCpu])
  exact ⟨_, k, hbooted, hcreate, trioSteps, hstatus, by rw [hpc]; rfl, hlock⟩

end Smp

end Jos
