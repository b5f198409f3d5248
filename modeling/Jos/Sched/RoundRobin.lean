import Jos.Boot.Program
import Mathlib.Data.Set.Finite.Lemmas

/-!
# Round robin (`sched_yield`)

What the index loop of `sched_yield` finds is the runnable environment that is nearest
after the current one, counted around the table from 1 to `NENV`; the current one itself
comes last. The four ways out of the scheduler follow.
-/

namespace Jos

open Prog

/-- How far the slot `e` is behind `start`, from 1 to `NENV`. Without a start the count
begins at slot 0. -/
def circularDistance (start : Option EnvIdx) (e : EnvIdx) : Nat :=
  match start with
  | none => e.val + 1
  | some s => (e.val + (nenv - 1) - s.val) % nenv + 1

section Distance

variable {start : Option EnvIdx} {e e' : EnvIdx}

theorem circularDistance_pos : 1 ≤ circularDistance start e := by
  cases start <;> exact Nat.succ_le_succ (Nat.zero_le _)

theorem circularDistance_le : circularDistance start e ≤ nenv := by
  cases start with
  | none => exact e.isLt
  | some s => exact Nat.mod_lt _ (show 0 < nenv by decide)

theorem nextIndex_val (s : EnvIdx) : (nextIndex (some s)).val = (s.val + 1) % nenv := by
  have hs := s.isLt
  rw [nextIndex]
  split
  · rename_i hlast
    rw [hlast, Nat.mod_self]
    rfl
  · rw [Nat.mod_eq_of_lt (by omega)]

/-- The next slot is the only one at distance 1. -/
theorem circularDistance_eq_one : circularDistance start e = 1 ↔ e = nextIndex start := by
  cases start with
  | none =>
      rw [circularDistance, nextIndex, Fin.ext_iff]
      exact Nat.succ_inj
  | some s =>
      have hs := s.isLt
      have he := e.isLt
      rw [Fin.ext_iff, nextIndex_val, circularDistance]
      simp only [nenv] at hs he ⊢
      omega

/-- Any other slot is one step nearer to the next one. -/
theorem circularDistance_next (h : e ≠ nextIndex start) :
    circularDistance start e = circularDistance (some (nextIndex start)) e + 1 := by
  have he := e.isLt
  cases start with
  | none =>
      have hzero : e.val ≠ 0 := fun hz => h (Fin.ext hz)
      have hval : (nextIndex none).val = 0 := rfl
      simp only [circularDistance, hval, nenv] at he ⊢
      omega
  | some s =>
      have hs := s.isLt
      rw [Ne, Fin.ext_iff, nextIndex_val] at h
      simp only [circularDistance, nextIndex_val, nenv] at h hs he ⊢
      omega

/-- Every slot is visited once. -/
theorem circularDistance_inj (h : circularDistance start e = circularDistance start e') :
    e = e' := by
  have he := e.isLt
  have he' := e'.isLt
  apply Fin.ext
  cases start with
  | none => simpa [circularDistance] using h
  | some s =>
      have hs := s.isLt
      simp only [circularDistance, nenv] at h he he' hs
      omega

end Distance

section Scan

variable {k : Kernel}

/-- The first `n` slots after `start` are searched. -/
theorem schedScan_nearest {n : Nat} (hn : n ≤ nenv) {start : Option EnvIdx} {e : EnvIdx} :
    k.schedScan n start = some e ↔ k.status e = .runnable ∧ circularDistance start e ≤ n ∧
      ∀ e', k.status e' = .runnable → circularDistance start e ≤ circularDistance start e' := by
  induction n generalizing start with
  | zero =>
      have hpos : 1 ≤ circularDistance start e := circularDistance_pos
      refine ⟨fun h => absurd h (by simp [Kernel.schedScan]), fun h => ?_⟩
      have hzero := h.2.1
      omega
  | succ n ih =>
      by_cases hnext : k.status (nextIndex start) = .runnable
      · rw [schedScan_here n hnext]
        have hone : circularDistance start (nextIndex start) = 1 :=
          circularDistance_eq_one.mpr rfl
        constructor
        · intro h
          obtain rfl := Option.some.inj h
          rw [hone]
          exact ⟨hnext, Nat.succ_le_succ (Nat.zero_le n), fun _ _ => circularDistance_pos⟩
        · rintro ⟨-, -, hleast⟩
          have hle := hleast _ hnext
          have hpos : 1 ≤ circularDistance start e := circularDistance_pos
          rw [circularDistance_eq_one.mp (show circularDistance start e = 1 by omega)]
      · rw [schedScan_next n hnext, ih (Nat.le_of_succ_le hn)]
        -- a runnable slot is not the next one, so both distances shrink by one
        have hshift : ∀ e', k.status e' = .runnable →
            circularDistance start e' = circularDistance (some (nextIndex start)) e' + 1 := by
          intro e' he'
          refine circularDistance_next ?_
          rintro rfl
          exact hnext he'
        refine and_congr_right fun he => ?_
        rw [hshift e he, Nat.add_le_add_iff_right]
        refine and_congr_right fun _ => forall_congr' fun e' => ?_
        refine forall_congr' fun he' => ?_
        rw [hshift e' he', Nat.add_le_add_iff_right]

/-- A whole round finds nothing exactly if nothing is runnable. -/
theorem schedScan_eq_none {start : Option EnvIdx} :
    k.schedScan nenv start = none ↔ ∀ e, k.status e ≠ .runnable := by
  refine ⟨fun h e he => ?_, fun h => schedScan_none h⟩
  -- otherwise some runnable slot would be the nearest
  obtain ⟨e₀, he₀, hleast⟩ := Set.exists_min_image {e | k.status e = .runnable}
    (circularDistance start) (Set.toFinite _) ⟨e, he⟩
  rw [(schedScan_nearest (Nat.le_refl nenv)).mpr ⟨he₀, circularDistance_le, hleast⟩] at h
  simp at h

end Scan

/-- Who runs after the scheduler, if anybody: the nearest runnable environment, or else the
current one if it is still running. -/
inductive Kernel.Chooses (k : Kernel) (c : Nat) : Option EnvIdx → Prop
  | next {e : EnvIdx} (runnable : k.status e = .runnable)
      (nearest : ∀ e', k.status e' = .runnable →
        circularDistance (k.curenv c) e ≤ circularDistance (k.curenv c) e') : Chooses k c (some e)
  | stay {e : EnvIdx} (others : ∀ e', k.status e' ≠ .runnable) (own : k.curenv c = some e)
      (running : k.status e = .running) : Chooses k c (some e)
  | nobody (others : ∀ e', k.status e' ≠ .runnable)
      (idle : ∀ e, k.curenv c = some e → k.status e ≠ .running) : Chooses k c none

/-- The CPU after the scheduler: it executes the choice, or it halts, or it is in the monitor
because no environment can ever run again. -/
def Kernel.Follows (k : Kernel) (c : Nat) (choice : Option EnvIdx) (k' : Kernel) : Prop :=
  match choice with
  | some e => k'.curenv c = some e ∧ k'.mode c = .user
  | none =>
      if ∃ e, k.status e = .running ∨ k.status e = .dying then
        k'.curenv c = none ∧ k'.mode c = .halted
      else k'.mode c = .monitor

/-- The statuses after the scheduler. -/
def Kernel.statusAfter (k : Kernel) (c : Nat) (choice : Option EnvIdx) (e : EnvIdx) : EnvStatus :=
  if choice = some e then .running
  else if choice ≠ none ∧ k.curenv c = some e ∧ k.status e = .running then .runnable
  else k.status e

/-- `sched_yield` on CPU `c` does a step of round robin. -/
def RoundRobin (c : Nat) (k k' : Kernel) : Prop :=
  ∃ choice, k.Chooses c choice ∧ k.Follows c choice k' ∧
    ∀ e, k'.status e = k.statusAfter c choice e

section Yield

variable {k : Kernel} {c : Nat} {e : EnvIdx}

theorem Kernel.Chooses.unique {o o' : Option EnvIdx} (h : k.Chooses c o) (h' : k.Chooses c o') :
    o = o' := by
  cases h with
  | next runnable nearest =>
      cases h' with
      | next runnable' nearest' =>
          exact congrArg some
            (circularDistance_inj (Nat.le_antisymm (nearest _ runnable') (nearest' _ runnable)))
      | stay others own running => exact absurd runnable (others _)
      | nobody others idle => exact absurd runnable (others _)
  | stay others own running =>
      cases h' with
      | next runnable' nearest' => exact absurd runnable' (others _)
      | stay others' own' running' => exact own.symm.trans own'
      | nobody others' idle => exact absurd running (idle _ own)
  | nobody others idle =>
      cases h' with
      | next runnable' nearest' => exact absurd runnable' (others _)
      | stay others' own running => exact absurd running (idle _ own)
      | nobody others' idle' => rfl

/-- Nobody is taken away from another CPU, and nobody who is not ready to run is chosen. -/
theorem Kernel.Chooses.ready (h : k.Chooses c (some e)) :
    k.status e = .runnable ∨ k.curenv c = some e ∧ k.status e = .running := by
  cases h with
  | next runnable nearest => exact .inl runnable
  | stay others own running => exact .inr ⟨own, running⟩

theorem Kernel.ran_status {d : Nat} (e' : EnvIdx) :
    (k.ran c e d).status e' = k.statusAfter c (some e) e' := by
  by_cases he : e' = e
  · subst he
    rw [Kernel.ran_status_self, Kernel.statusAfter, if_pos rfl]
  · rw [Kernel.status, Kernel.ran_envs_of_ne he, Kernel.statusAfter,
      if_neg fun h => he (Option.some.inj h).symm]
    rcases Kernel.preempted_envs (k := k) (c := c) e' with hsame | ⟨own, running, hput⟩
    · rw [hsame]
      split
      · rename_i h
        rw [Kernel.preempted, h.2.1] at hsame
        dsimp only at hsame
        rw [if_pos h.2.2, Kernel.setStatus, Kernel.setEnv_envs_self] at hsame
        exact (congrArg Env.status hsame).symm
      · rfl
    · rw [hput, if_pos ⟨by simp, own, running⟩]

/-- The four ways out of `sched_yield`. -/
theorem sched_yield_round_robin
    (ids : ∀ cur, k.curenv c = some cur → envx (k.envs cur).id = cur)
    (dirs : ∀ e, k.status e = .runnable ∨ k.status e = .running → (k.envs e).pgdir ≠ none) :
    ∃ k', (schedYield c : KM Unit) k = .exit () k' ∧ RoundRobin c k k' := by
  have hstart : (k.curenv c).map (fun idle => envx (k.envs idle).id) = k.curenv c := by
    cases hcur : k.curenv c with
    | none => rfl
    | some cur => rw [Option.map_some, ids cur hcur]
  have hruns : ∀ e, k.Chooses c (some e) → ∃ k', (envRun c e : KM Unit) k = .exit () k' ∧
      RoundRobin c k k' := by
    intro e choice
    obtain ⟨d, hd⟩ := Option.ne_none_iff_exists'.mp (dirs e (choice.ready.imp id And.right))
    refine ⟨_, envRun_run hd, some e, choice, ⟨?_, ?_⟩, fun e' => Kernel.ran_status e'⟩
    · rw [Kernel.curenv, Kernel.ran_cpus_self]
    · rw [Kernel.mode, Kernel.ran_cpus_self]
  rw [schedYield, get_bind, hstart]
  cases hscan : k.schedScan nenv (k.curenv c) with
  | some e =>
      obtain ⟨runnable, -, nearest⟩ := (schedScan_nearest (Nat.le_refl nenv)).mp hscan
      exact hruns e (.next runnable nearest)
  | none =>
      have others := schedScan_eq_none.mp hscan
      have hhalt : (∀ e, k.curenv c = some e → k.status e ≠ .running) →
          ∃ k', (schedHalt c : KM Unit) k = .exit () k' ∧ RoundRobin c k k' := by
        intro idle
        have hsome : (∃ e, k.status e = .runnable ∨ k.status e = .running ∨ k.status e = .dying) ↔
            ∃ e, k.status e = .running ∨ k.status e = .dying :=
          exists_congr fun e => or_iff_right (others e)
        rw [schedHalt, get_bind]
        by_cases hbusy : ∃ e, k.status e = .running ∨ k.status e = .dying
        · rw [if_pos (hsome.mpr hbusy)]
          refine ⟨_, rfl, none, .nobody others idle, ?_, fun e => ?_⟩
          · rw [Kernel.Follows, if_pos hbusy]
            simp [Kernel.curenv, Kernel.mode, Kernel.setCpu]
          · simp [Kernel.statusAfter, Kernel.status, Kernel.setCpu]
        · rw [if_neg fun h => hbusy (hsome.mp h)]
          refine ⟨_, rfl, none, .nobody others idle, ?_, fun e => ?_⟩
          · rw [Kernel.Follows, if_neg hbusy]
            simp [Kernel.mode, Kernel.setCpu]
          · simp [Kernel.statusAfter, Kernel.status, Kernel.setCpu]
      cases hcur : k.curenv c with
      | none => exact hhalt fun e own => absurd (hcur.symm.trans own) (by simp)
      | some cur =>
          dsimp only
          split
          · rename_i running
            exact hruns cur (.stay others hcur running)
          · rename_i idle
            refine hhalt fun e own => ?_
            obtain rfl := Option.some.inj (hcur.symm.trans own)
            exact idle

end Yield

/-- The first environment is chosen when CPU 0 starts. -/
theorem sched_yield_round_robin_first : ∃ k k', Booted qemu [intProgram] k ∧
    (schedYield 0 : KM Unit) k = .exit () k' ∧ RoundRobin 0 k k' ∧ k'.curenv 0 = some 0 := by
  obtain ⟨k, hbooted, hfirst, hcpus⟩ := qemu_boots
  obtain ⟨d, henv⟩ := hfirst.env
  have hnone : k.curenv 0 = none := (hcpus 0).1
  have hrunnable : k.status 0 = .runnable := by rw [Kernel.status, henv]
  have hfree : ∀ e, e ≠ 0 → k.status e = .free := fun e he =>
    congrArg Env.status (hfirst.others e he)
  obtain ⟨k', hrun, hstep⟩ := sched_yield_round_robin (k := k) (c := 0)
    (fun cur own => absurd (hnone.symm.trans own) (by simp)) fun e ready => by
      by_cases he : e = 0
      · rw [he, henv]
        simp
      · rw [hfree e he] at ready
        simp at ready
  refine ⟨k, k', hbooted, hrun, hstep, ?_⟩
  obtain ⟨choice, hchoice, hfollows, -⟩ := hstep
  have hzero : k.Chooses 0 (some 0) := by
    refine .next hrunnable fun e he => ?_
    by_cases h : e = 0
    · rw [h]
    · rw [hfree e h] at he
      simp at he
  obtain rfl := hchoice.unique hzero
  exact hfollows.1

/-- Without any environment the CPU does not halt. -/
theorem sched_yield_monitor : ∃ k k', Booted qemu [] k ∧ Step k (.start 0) k' ∧
    (∀ e, k.status e ≠ .runnable) ∧ k.curenv 0 = none ∧ k'.mode 0 = .monitor := by
  obtain ⟨n, l, p, htree, hlen, hbooted⟩ := qemu.builds (r := 1) (by decide) (by decide) (by decide)
  have booted := hbooted [] _ rfl
  obtain ⟨-, -, hinit, -, -, hzero, -⟩ := envInit_spec qemu.toHardware p
  have hcpu : (envInit qemu.toHardware p).cpus = (qemu.kernel p).cpus := by rw [hinit]
  generalize envInit qemu.toHardware p = k at booted hzero hcpu
  have hfree : ∀ e, k.status e = .free := fun e => congrArg Env.status (hzero e)
  have hidle : k.curenv 0 = none := by
    rw [Kernel.curenv, hcpu]
    rfl
  have hmode : ∀ c, k.mode c = if c < 3 then .starting else .unused := fun c => by
    rw [Kernel.mode, hcpu]
    rfl
  have hscan : ∀ e, k.status e ≠ .runnable := fun e => by
    rw [hfree e]
    decide
  have hyield : (schedYield 0 : KM Unit) k =
      .exit () (k.setCpu 0 { k.cpus 0 with mode := .monitor }) := by
    rw [schedYield, get_bind, hidle, Option.map_none, schedScan_none hscan]
    dsimp only
    rw [schedHalt, get_bind, if_neg]
    · rfl
    · rintro ⟨e, h | h | h⟩ <;> rw [hfree e] at h <;> simp at h
  refine ⟨k, _, booted, .start (hmode 0) (fun c => ?_) hyield, hscan, hidle, ?_⟩
  · rw [hmode]
    split <;> decide
  · simp [Kernel.mode, Kernel.setCpu]

end Jos
