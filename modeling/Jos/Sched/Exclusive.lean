import Jos.Base.Linked
import Jos.Kernel.Entry
import Mathlib.Logic.Relation

/-!
# One CPU for each running environment

Between kernel entries, a CPU in user mode has a current environment that no
other such CPU has, that is neither free nor runnable, and whose page directory
it has loaded. While CPU `c` is in the kernel the same holds of all the others,
and none of them runs the environment that `c` came from.

The invariant is kept by every kernel entry, with three exceptions: a parent may
set the status of a child that is running on another CPU, a message may be sent
to such an environment if its `env_ipc_recving` flag is set, and a second
`sys_env_destroy` does not notice that its target is a zombie that still runs.
`SafeEntry` excludes exactly these.
-/

namespace Jos

open Prog

/-- The runs of the machine all of whose steps satisfy `G`. -/
def Run (G : Kernel → Event → Prop) : Kernel → Kernel → Prop :=
  Relation.ReflTransGen fun k k' => ∃ ev, G k ev ∧ Step k ev k'

theorem Run.mono {G G' : Kernel → Event → Prop} {k k' : Kernel} (h : Run G k k')
    (himp : ∀ k ev, G k ev → G' k ev) : Run G' k k' := by
  induction h with
  | refl => exact .refl
  | tail _ hstep ih =>
      obtain ⟨ev, hG, step⟩ := hstep
      exact ih.tail ⟨ev, himp _ ev hG, step⟩

/-- Some CPU other than `c` executes user code of `e`. -/
def Kernel.RunsElsewhere (k : Kernel) (c : Nat) (e : EnvIdx) : Prop :=
  ∃ c', c' ≠ c ∧ k.RunsOn c' e

/-- CPU `c` enters the kernel from `cur`, which is not a zombie. -/
def Kernel.Enters (k : Kernel) (c : Nat) (cur : EnvIdx) : Prop :=
  k.curenv c = some cur ∧ k.status cur ≠ .dying

/-- The statuses `ok` that an environment may have while a CPU executes it. -/
structure Executable (ok : EnvStatus → Prop) : Prop where
  running : ok .running
  dying : ok .dying
  not_runnable : ¬ ok .runnable
  not_free : ¬ ok .free

/-- The kernel entry with registers `tf` does not mistake an environment that
another CPU is executing for one that is not running. -/
structure SafeEntry (ok : EnvStatus → Prop) (k : Kernel) (c : Nat) (tf : Trapframe) : Prop where
  setStatus : ∀ cur e st, k.Enters c cur → tf.Calls .envSetStatus →
    k.envid2env cur tf.regs.edx true = some e → statusArg tf.regs.ecx = some st →
    k.RunsElsewhere c e → ok st
  destroy : ∀ cur e, k.Enters c cur → tf.Calls .envDestroy →
    k.envid2env cur tf.regs.edx true = some e → k.RunsElsewhere c e → k.status e = .running
  send : ∀ cur e, k.Enters c cur → tf.Calls .ipcTrySend →
    k.envid2env cur tf.regs.edx false = some e → (k.envs e).ipcRecving = true →
    ¬ k.RunsElsewhere c e

/-- The free list of environments is a list, of free environments. -/
def Kernel.SlotsFree (k : Kernel) : Prop :=
  ∃ l, IsList (fun e => (k.envs e).link) k.envFreeList l ∧ ∀ e ∈ l, k.status e = .free

/-- The invariant; `inside` is the CPU that is in the kernel, if any. -/
structure Exclusive (ok : EnvStatus → Prop) (inside : Option Nat) (k : Kernel) : Prop where
  user : ∀ c, inside ≠ some c → k.mode c = .user → ∃ e, k.curenv c = some e ∧
    ok (k.status e) ∧ (k.envs e).pgdir = some (k.cpus c).cr3
  parked : ∀ c, inside ≠ some c → k.mode c ≠ .user → k.mode c ≠ .monitor → k.curenv c = none
  unique : ∀ c c' e, inside ≠ some c → inside ≠ some c' → k.RunsOn c e → k.RunsOn c' e → c = c'
  own : ∀ c e, inside = some c → k.curenv c = some e →
    k.status e ≠ .free ∧ ¬ k.RunsElsewhere c e
  slots : k.SlotsFree

variable {ok : EnvStatus → Prop} {k k' : Kernel} {c : Nat} {e cur : EnvIdx} {tf : Trapframe}

namespace Kernel

theorem setEnv_envs_of_ne {e' : EnvIdx} (env : Env) (h : e' ≠ e) :
    (k.setEnv e env).envs e' = k.envs e' := by
  simp [setEnv, Function.update_of_ne h]

/-- A field that an update of one environment does not change. -/
theorem setEnv_field {β : Type} {f : Env → β} {env : Env} (h : f env = f (k.envs e))
    (e' : EnvIdx) : f ((k.setEnv e env).envs e') = f (k.envs e') := by
  by_cases he : e' = e
  · subst he
    rw [setEnv_envs_self, h]
  · rw [setEnv_envs_of_ne _ he]

theorem setTf_status (e' : EnvIdx) : (k.setTf e tf).status e' = k.status e' :=
  setEnv_field (f := Env.status) (by rfl) e'

/-- Who runs where only depends on the CPUs. -/
theorem runsElsewhere_congr (h : ∀ c', c' ≠ c → k'.cpus c' = k.cpus c') :
    k'.RunsElsewhere c e ↔ k.RunsElsewhere c e := by
  constructor
  · rintro ⟨c', hne, hmode, hcur⟩
    exact ⟨c', hne, by rwa [mode, h c' hne] at hmode, by rwa [curenv, h c' hne] at hcur⟩
  · rintro ⟨c', hne, hmode, hcur⟩
    exact ⟨c', hne, by rwa [mode, h c' hne], by rwa [curenv, h c' hne]⟩

theorem envid2env_setTf (envid : Word) (checkperm : Bool) :
    (k.setTf e tf).envid2env cur envid checkperm = k.envid2env cur envid checkperm := by
  have hid : ∀ e', ((k.setTf e tf).envs e').id = (k.envs e').id :=
    setEnv_field (f := Env.id) (by rfl)
  have hparent : ∀ e', ((k.setTf e tf).envs e').parentId = (k.envs e').parentId :=
    setEnv_field (f := Env.parentId) (by rfl)
  have hstatus : ∀ e', ((k.setTf e tf).envs e').status = (k.envs e').status := setTf_status
  simp only [Kernel.envid2env, hid, hparent, hstatus]

/-- A slot that an envid names is in use, the caller's own apart. -/
theorem envid2env_cases {envid : Word} {checkperm : Bool}
    (h : k.envid2env cur envid checkperm = some e) : e = cur ∨ k.status e ≠ .free := by
  rw [Kernel.envid2env] at h
  split at h
  · exact .inl (Option.some.inj h).symm
  · dsimp only at h
    split at h
    · simp at h
    · rename_i hlive
      split at h
      · simp at h
      · rw [← Option.some.inj h]
        exact .inr fun hf => hlive (.inl hf)

end Kernel

theorem statusArg_cases {w : Word} {st : EnvStatus} (h : statusArg w = some st) :
    st = .runnable ∨ st = .notRunnable := by
  rw [statusArg] at h
  split at h
  · exact .inl (Option.some.inj h).symm
  · split at h
    · exact .inr (Option.some.inj h).symm
    · simp at h

theorem statusArg_ne_free {w : Word} {st : EnvStatus} (h : statusArg w = some st) :
    st ≠ .free := by
  rcases statusArg_cases h with rfl | rfl <;> decide

namespace Exclusive

/-- The other CPUs in user mode, seen from inside the kernel on `c`. -/
theorem elsewhere (h : Exclusive ok (some c) k) (he : k.RunsElsewhere c e) : ok (k.status e) := by
  obtain ⟨c', hne, hmode, hcur⟩ := he
  obtain ⟨e', hcur', hok, -⟩ := h.user c' (fun heq => hne (Option.some.inj heq).symm) hmode
  rw [hcur] at hcur'
  exact Option.some.inj hcur' ▸ hok

/-- A change made inside the kernel on CPU `c`. -/
theorem inside_of (h : Exclusive ok (some c) k) (cpus : ∀ c', c' ≠ c → k'.cpus c' = k.cpus c')
    (running : ∀ e, k.RunsElsewhere c e →
      ok (k'.status e) ∧ (k'.envs e).pgdir = (k.envs e).pgdir)
    (own : ∀ e, k'.curenv c = some e → k'.status e ≠ .free ∧ ¬ k.RunsElsewhere c e)
    (slots : k'.SlotsFree) : Exclusive ok (some c) k' := by
  have hne : ∀ c', some c ≠ some c' → c' ≠ c := fun c' hc heq => hc (congrArg some heq.symm)
  have hruns : ∀ c' e, c' ≠ c → k'.RunsOn c' e → k.RunsOn c' e := by
    rintro c' e hc ⟨hmode, hcur⟩
    exact ⟨by rwa [Kernel.mode, cpus c' hc] at hmode, by rwa [Kernel.curenv, cpus c' hc] at hcur⟩
  constructor
  · intro c' hc hmode
    rw [Kernel.mode, cpus c' (hne c' hc)] at hmode
    obtain ⟨e, hcur, -, hcr3⟩ := h.user c' hc hmode
    obtain ⟨hok, hpgdir⟩ := running e ⟨c', hne c' hc, hmode, hcur⟩
    exact ⟨e, by rwa [Kernel.curenv, cpus c' (hne c' hc)], hok,
      by rwa [hpgdir, cpus c' (hne c' hc)]⟩
  · intro c' hc hmode hmonitor
    rw [Kernel.mode, cpus c' (hne c' hc)] at hmode hmonitor
    rw [Kernel.curenv, cpus c' (hne c' hc)]
    exact h.parked c' hc hmode hmonitor
  · intro c₁ c₂ e h₁ h₂ hr₁ hr₂
    exact h.unique c₁ c₂ e h₁ h₂ (hruns c₁ e (hne c₁ h₁) hr₁) (hruns c₂ e (hne c₂ h₂) hr₂)
  · intro c' e hc hcur
    obtain rfl := Option.some.inj hc
    rw [Kernel.runsElsewhere_congr cpus]
    exact own e hcur
  · exact slots

/-- A change made on the way out of the kernel on CPU `c`. -/
theorem leave (h : Exclusive ok (some c) k) (cpus : ∀ c', c' ≠ c → k'.cpus c' = k.cpus c')
    (running : ∀ e, k.RunsElsewhere c e →
      k'.status e = k.status e ∧ (k'.envs e).pgdir = (k.envs e).pgdir)
    (user : k'.mode c = .user → ∃ e, k'.curenv c = some e ∧ ok (k'.status e) ∧
      (k'.envs e).pgdir = some (k'.cpus c).cr3 ∧ ¬ k.RunsElsewhere c e)
    (parked : k'.mode c ≠ .user → k'.mode c ≠ .monitor → k'.curenv c = none)
    (slots : k'.SlotsFree) : Exclusive ok none k' := by
  have hruns : ∀ c' e, c' ≠ c → k'.RunsOn c' e → k.RunsOn c' e := by
    rintro c' e hc ⟨hmode, hcur⟩
    exact ⟨by rwa [Kernel.mode, cpus c' hc] at hmode, by rwa [Kernel.curenv, cpus c' hc] at hcur⟩
  have hin : ∀ c', c' ≠ c → some c ≠ some c' := fun c' hc heq => hc (Option.some.inj heq).symm
  -- the environment that `c` now runs was not running anywhere else
  have hself : ∀ c' e, c' ≠ c → k'.RunsOn c e → ¬ k'.RunsOn c' e := by
    rintro c' e hc ⟨hmode, hcur⟩ hr
    obtain ⟨e', hcur', -, -, helse⟩ := user hmode
    rw [hcur] at hcur'
    exact helse (Option.some.inj hcur' ▸ ⟨c', hc, hruns c' e hc hr⟩)
  constructor
  · intro c' _ hmode
    by_cases hc : c' = c
    · subst hc
      obtain ⟨e, hcur, hok, hcr3, -⟩ := user hmode
      exact ⟨e, hcur, hok, hcr3⟩
    · rw [Kernel.mode, cpus c' hc] at hmode
      obtain ⟨e, hcur, hok, hcr3⟩ := h.user c' (hin c' hc) hmode
      obtain ⟨hstatus, hpgdir⟩ := running e ⟨c', hc, hmode, hcur⟩
      exact ⟨e, by rwa [Kernel.curenv, cpus c' hc], by rwa [hstatus],
        by rwa [hpgdir, cpus c' hc]⟩
  · intro c' _ hmode hmonitor
    by_cases hc : c' = c
    · subst hc
      exact parked hmode hmonitor
    · rw [Kernel.mode, cpus c' hc] at hmode hmonitor
      rw [Kernel.curenv, cpus c' hc]
      exact h.parked c' (hin c' hc) hmode hmonitor
  · intro c₁ c₂ e _ _ hr₁ hr₂
    by_cases h₁ : c₁ = c
    · subst h₁
      by_contra hne
      exact hself c₂ e (fun heq => hne heq.symm) hr₁ hr₂
    · by_cases h₂ : c₂ = c
      · subst h₂
        exact absurd hr₁ (hself c₁ e h₁ hr₂)
      · exact h.unique c₁ c₂ e (hin c₁ h₁) (hin c₂ h₂) (hruns c₁ e h₁ hr₁) (hruns c₂ e h₂ hr₂)
  · intro c' e hc
    simp at hc
  · exact slots

end Exclusive

namespace Kernel.SlotsFree

theorem congr (h : k.SlotsFree) (link : ∀ e, (k'.envs e).link = (k.envs e).link)
    (head : k'.envFreeList = k.envFreeList)
    (free : ∀ e, k.status e = .free → k'.status e = .free) : k'.SlotsFree := by
  obtain ⟨l, hl, hfree⟩ := h
  refine ⟨l, ?_, fun e he => free e (hfree e he)⟩
  rw [head]
  exact hl.congr fun e _ => link e

theorem released (h : k.SlotsFree) (used : k.status e ≠ .free) : (k.released e).SlotsFree := by
  obtain ⟨l, hl, hfree⟩ := h
  have hfresh : e ∉ l := fun he => used (hfree e he)
  refine ⟨e :: l, ?_, ?_⟩
  · refine (hl.push hfresh).congr fun e' _ => ?_
    by_cases he : e' = e
    · subst he
      simp [Kernel.released]
    · simp [Kernel.released, setEnv, Function.update_of_ne he]
  · intro e' he'
    by_cases he : e' = e
    · subst he
      simp [Kernel.released, status]
    · have hmem : e' ∈ l := (List.mem_cons.mp he').resolve_left he
      simpa [Kernel.released, status, setEnv, Function.update_of_ne he] using hfree e' hmem

/-- The slot that `sys_exofork` takes leaves the list. -/
theorem forked (h : k.SlotsFree) (head : k.envFreeList = some e) (parentId : Word) (d : Nat)
    (tf : Trapframe) : k.status e = .free ∧ (k.forked e parentId d tf).SlotsFree := by
  obtain ⟨l, hl, hfree⟩ := h
  rw [head] at hl
  have hnodup := hl.nodup
  cases hl with
  | @cons _ l rest =>
      refine ⟨hfree e (by simp), l, ?_, fun e' he' => ?_⟩
      · refine rest.congr fun e' he' => ?_
        have hne : e' ≠ e := by
          rintro rfl
          exact (List.nodup_cons.mp hnodup).1 he'
        simp [Kernel.forked, setEnv, Function.update_of_ne hne]
      · have hne : e' ≠ e := by
          rintro rfl
          exact (List.nodup_cons.mp hnodup).1 he'
        simpa [Kernel.forked, status, setEnv, Function.update_of_ne hne] using
          hfree e' (List.mem_cons_of_mem e he')

end Kernel.SlotsFree

namespace Exclusive

theorem same {i : Option Nat} (h : Exclusive ok i k) (hs : k.Same k') : Exclusive ok i k' := by
  have hstatus : ∀ e, k'.status e = k.status e := fun e => (hs.envs e).status
  have hcur : k'.curenv = k.curenv := funext fun c => by rw [Kernel.curenv, hs.cpus, Kernel.curenv]
  have hmode : k'.mode = k.mode := funext fun c => by rw [Kernel.mode, hs.cpus, Kernel.mode]
  constructor
  · intro c hc
    rw [hmode, hcur, hs.cpus]
    intro hm
    obtain ⟨e, he, hok, hpgdir⟩ := h.user c hc hm
    exact ⟨e, he, by rwa [hstatus], by rwa [(hs.envs e).pgdir]⟩
  · rw [hmode, hcur]
    exact h.parked
  · simp only [Kernel.RunsOn, hmode, hcur]
    exact h.unique
  · intro c e hc
    have helse : k'.RunsElsewhere c e ↔ k.RunsElsewhere c e :=
      Kernel.runsElsewhere_congr fun c' _ => by rw [hs.cpus]
    rw [hcur, hstatus, helse]
    exact h.own c e hc
  · exact h.slots.congr (fun e => (hs.envs e).link) hs.envFreeList fun e he => by rwa [hstatus]

/-- A change to one environment that keeps its slot in use and its page directory. -/
theorem setEnv (h : Exclusive ok (some c) k) {env : Env} (used : k.status e ≠ .free)
    (link : env.link = (k.envs e).link) (pgdir : env.pgdir = (k.envs e).pgdir)
    (live : env.status ≠ .free) (running : k.RunsElsewhere c e → ok env.status) :
    Exclusive ok (some c) (k.setEnv e env) := by
  refine h.inside_of (fun _ _ => rfl) (fun e' he' => ?_) (fun e' he' => ?_) ?_
  · by_cases he : e' = e
    · subst he
      rw [Kernel.status, Kernel.setEnv_envs_self]
      exact ⟨running he', pgdir⟩
    · rw [Kernel.status, Kernel.setEnv_envs_of_ne _ he]
      exact ⟨h.elsewhere he', rfl⟩
  · have hown := h.own c e' rfl he'
    refine ⟨?_, hown.2⟩
    by_cases he : e' = e
    · subst he
      rwa [Kernel.status, Kernel.setEnv_envs_self]
    · rw [Kernel.status, Kernel.setEnv_envs_of_ne _ he]
      exact hown.1
  · refine h.slots.congr (fun e' => ?_) rfl fun e' hfree => ?_
    · by_cases he : e' = e
      · subst he
        rw [Kernel.setEnv_envs_self, link]
      · rw [Kernel.setEnv_envs_of_ne _ he]
    · have he : e' ≠ e := by
        rintro rfl
        exact used hfree
      rwa [Kernel.status, Kernel.setEnv_envs_of_ne _ he]

theorem setTf (h : Exclusive ok (some c) k) (own : k.curenv c = some cur) :
    Exclusive ok (some c) (k.setTf cur tf) := by
  have hcur := h.own c cur rfl own
  exact h.setEnv hcur.1 rfl rfl hcur.1 fun he => absurd he hcur.2

/-- The target of a system call is in use. -/
theorem target_used (h : Exclusive ok (some c) k) (own : k.curenv c = some cur) {envid : Word}
    {b : Bool} (target : k.envid2env cur envid b = some e) : k.status e ≠ .free := by
  rcases Kernel.envid2env_cases target with rfl | hlive
  · exact (h.own c e rfl own).1
  · exact hlive

theorem released (h : Exclusive ok (some c) k) (used : k.status e ≠ .free)
    (idle : ¬ k.RunsElsewhere c e) (other : k.curenv c ≠ some e) :
    Exclusive ok (some c) (k.released e) := by
  refine h.inside_of (fun _ _ => rfl) (fun e' he' => ?_) (fun e' he' => ?_)
    (h.slots.released used)
  · have he : e' ≠ e := by
      rintro rfl
      exact idle he'
    rw [Kernel.status, Kernel.released]
    simp only [Kernel.setEnv, Function.update_of_ne he]
    exact ⟨h.elsewhere he', trivial⟩
  · have hown := h.own c e' rfl he'
    have he : e' ≠ e := by
      rintro rfl
      exact other he'
    rw [Kernel.status, Kernel.released]
    simp only [Kernel.setEnv, Function.update_of_ne he]
    exact hown

theorem exited (h : Exclusive ok (some c) k) (own : k.curenv c = some cur) :
    Exclusive ok (some c) (k.exited c cur) := by
  have hcur := h.own c cur rfl own
  have hslots := h.slots.released hcur.1
  refine h.inside_of (fun c' hc => ?_) (fun e' he' => ?_) (fun e' he' => ?_) ?_
  · simp [Kernel.exited, Kernel.released, Kernel.setCurenv, Kernel.setCpu, Kernel.setEnv,
      Function.update_of_ne hc]
  · have he : e' ≠ cur := by
      rintro rfl
      exact hcur.2 he'
    simp only [Kernel.exited, Kernel.status, Kernel.released, Kernel.setCurenv, Kernel.setCpu,
      Kernel.setEnv, Function.update_of_ne he]
    exact ⟨h.elsewhere he', trivial⟩
  · simp [Kernel.exited, Kernel.curenv, Kernel.setCurenv, Kernel.setCpu] at he'
  · exact hslots.congr (fun _ => rfl) rfl fun _ hfree => hfree

theorem forked (h : Exclusive ok (some c) k) (hok : Executable ok)
    (head : k.envFreeList = some e) (parentId : Word) (d : Nat) :
    Exclusive ok (some c) (k.forked e parentId d tf) := by
  obtain ⟨hfree, hslots⟩ := h.slots.forked head parentId d tf
  refine h.inside_of (fun _ _ => rfl) (fun e' he' => ?_) (fun e' he' => ?_) hslots
  · have he : e' ≠ e := by
      rintro rfl
      exact hok.not_free (hfree ▸ h.elsewhere he')
    simp only [Kernel.status, Kernel.forked, Kernel.setEnv, Function.update_of_ne he]
    exact ⟨h.elsewhere he', trivial⟩
  · have hown := h.own c e' rfl he'
    have he : e' ≠ e := by
      rintro rfl
      exact hown.1 hfree
    simp only [Kernel.status, Kernel.forked, Kernel.setEnv, Function.update_of_ne he]
    exact hown

end Exclusive

section Ran

variable {d : Nat}

@[simp] theorem Kernel.preempted_cpus : (k.preempted c).cpus = k.cpus := by
  rw [Kernel.preempted]
  cases k.curenv c with
  | none => rfl
  | some cur =>
      dsimp only
      split <;> rfl

/-- Only the status of the CPU's own environment changes. -/
theorem Kernel.preempted_envs (e : EnvIdx) :
    (k.preempted c).envs e = k.envs e ∨
      k.curenv c = some e ∧ k.status e = .running ∧
        (k.preempted c).envs e = { k.envs e with status := .runnable } := by
  rw [Kernel.preempted]
  cases k.curenv c with
  | none => exact .inl rfl
  | some cur =>
      dsimp only
      by_cases hr : k.status cur = .running
      · rw [if_pos hr]
        by_cases he : e = cur
        · subst he
          exact .inr ⟨rfl, hr, by simp [Kernel.setStatus]⟩
        · exact .inl (by simp [Kernel.setStatus, Kernel.setEnv_envs_of_ne _ he])
      · rw [if_neg hr]
        exact .inl rfl

theorem Kernel.ran_cpus_of_ne {c' : Nat} (h : c' ≠ c) : (k.ran c e d).cpus c' = k.cpus c' := by
  simp [Kernel.ran, Kernel.setCpu, Kernel.setEnv, Kernel.setCurenv, Function.update_of_ne h]

theorem Kernel.ran_cpus_self :
    (k.ran c e d).cpus c = { env := some e, mode := .user, cr3 := d } := by
  simp [Kernel.ran, Kernel.setCpu, Kernel.setEnv, Kernel.setCurenv]

theorem Kernel.ran_envs_self : (k.ran c e d).envs e =
    { (k.preempted c).envs e with
      status := .running
      runs := ((k.preempted c).envs e).runs + 1
      cpunum := c } := by
  simp [Kernel.ran, Kernel.setCpu, Kernel.setEnv, Kernel.setCurenv]

theorem Kernel.ran_envs_of_ne {e' : EnvIdx} (h : e' ≠ e) :
    (k.ran c e d).envs e' = (k.preempted c).envs e' := by
  simp [Kernel.ran, Kernel.setCpu, Kernel.setEnv, Kernel.setCurenv, Function.update_of_ne h]

theorem Kernel.ran_status_self : (k.ran c e d).status e = .running := by
  rw [Kernel.status, Kernel.ran_envs_self]

/-- Statuses change from or to `ENV_RUNNING` only. -/
theorem Kernel.ran_status_cases (e' : EnvIdx) :
    (k.ran c e d).status e' = k.status e' ∨ e' = e ∨
      k.curenv c = some e' ∧ (k.ran c e d).status e' = .runnable := by
  by_cases he : e' = e
  · exact .inr (.inl he)
  · rw [Kernel.status, Kernel.ran_envs_of_ne he]
    rcases Kernel.preempted_envs (k := k) (c := c) e' with h | ⟨hcur, -, h⟩
    · exact .inl (by rw [h, Kernel.status])
    · exact .inr (.inr ⟨hcur, by rw [h]⟩)

/-- A field that neither `env_run` nor the preemption touches. -/
theorem Kernel.ran_field {β : Type} {f : Env → β}
    (hf : ∀ env st r n, f { env with status := st, runs := r, cpunum := n } = f env)
    (e' : EnvIdx) : f ((k.ran c e d).envs e') = f (k.envs e') := by
  have hpre : f ((k.preempted c).envs e') = f (k.envs e') := by
    rcases Kernel.preempted_envs (k := k) (c := c) e' with h | ⟨-, -, h⟩
    · rw [h]
    · rw [h]
      exact hf (k.envs e') .runnable (k.envs e').runs (k.envs e').cpunum
  by_cases he : e' = e
  · subst he
    rw [Kernel.ran_envs_self, hf, hpre]
  · rw [Kernel.ran_envs_of_ne he, hpre]

theorem Kernel.ran_envFreeList : (k.ran c e d).envFreeList = k.envFreeList := by
  have hpre : (k.preempted c).envFreeList = k.envFreeList := by
    rw [Kernel.preempted]
    cases k.curenv c with
    | none => rfl
    | some cur =>
        dsimp only
        split <;> rfl
  simpa [Kernel.ran, Kernel.setCpu, Kernel.setEnv, Kernel.setCurenv] using hpre

end Ran

namespace Exclusive

variable {d : Nat}

theorem ran (h : Exclusive ok (some c) k) (hok : Executable ok) (used : k.status e ≠ .free)
    (idle : ¬ k.RunsElsewhere c e) (pgdir : (k.envs e).pgdir = some d) :
    Exclusive ok none (k.ran c e d) := by
  have hpgdir : ∀ e', ((k.ran c e d).envs e').pgdir = (k.envs e').pgdir :=
    Kernel.ran_field fun _ _ _ _ => rfl
  refine h.leave (fun c' hc => Kernel.ran_cpus_of_ne hc) (fun e' he' => ⟨?_, hpgdir e'⟩)
    (fun _ => ⟨e, ?_, ?_, ?_, idle⟩) (fun hmode => ?_) ?_
  · rcases Kernel.ran_status_cases (k := k) (c := c) (e := e) (d := d) e' with hs | rfl | ⟨hcur, -⟩
    · exact hs
    · exact absurd he' idle
    · exact absurd he' (h.own c e' rfl hcur).2
  · rw [Kernel.curenv, Kernel.ran_cpus_self]
  · rw [Kernel.ran_status_self]
    exact hok.running
  · rw [hpgdir, pgdir, Kernel.ran_cpus_self]
  · rw [Kernel.mode, Kernel.ran_cpus_self] at hmode
    exact absurd rfl hmode
  · refine h.slots.congr (Kernel.ran_field fun _ _ _ _ => rfl) Kernel.ran_envFreeList
      fun e' hfree => ?_
    rcases Kernel.ran_status_cases (k := k) (c := c) (e := e) (d := d) e' with hs | rfl | ⟨hcur, -⟩
    · rw [hs, hfree]
    · exact absurd hfree used
    · exact absurd hfree (h.own c e' rfl hcur).1

theorem dispatch (h : Exclusive ok (some c) k) (hok : Executable ok) (out : Dispatch c k k') :
    Exclusive ok none k' := by
  have hcpus : ∀ cpu c', c' ≠ c → (k.setCpu c cpu).cpus c' = k.cpus c' := by
    intro cpu c' hc
    simp [Kernel.setCpu, Function.update_of_ne hc]
  cases out with
  | run ready pgdir =>
      rcases ready with hrunnable | ⟨hcur, hrunning⟩
      · refine h.ran hok (by rw [hrunnable]; decide) (fun he => ?_) pgdir
        exact hok.not_runnable (hrunnable ▸ h.elsewhere he)
      · exact h.ran hok (by rw [hrunning]; decide) (h.own c _ rfl hcur).2 pgdir
  | halt =>
      refine h.leave (hcpus _) (fun _ _ => ⟨rfl, rfl⟩) (fun hmode => ?_) (fun _ _ => ?_)
        (h.slots.congr (fun _ => rfl) rfl fun _ hf => hf)
      · simp [Kernel.mode, Kernel.setCpu] at hmode
      · simp [Kernel.curenv, Kernel.setCpu]
  | monitor =>
      refine h.leave (hcpus _) (fun _ _ => ⟨rfl, rfl⟩) (fun hmode => ?_) (fun _ hmonitor => ?_)
        (h.slots.congr (fun _ => rfl) rfl fun _ hf => hf)
      · simp [Kernel.mode, Kernel.setCpu] at hmode
      · simp [Kernel.mode, Kernel.setCpu] at hmonitor

/-- The operation of a trap. The last part says that the CPU keeps its environment. -/
theorem op (h : Exclusive ok (some c) k) (hok : Executable ok) (own : k.curenv c = some cur)
    (alive : k.status cur ≠ .dying) (safe : SafeEntry ok k c tf)
    (step : Op c tf cur (k.setTf cur tf) k') :
    Exclusive ok (some c) k' ∧ k'.curenv c = some cur := by
  have enters : k.Enters c cur := ⟨own, alive⟩
  have hcur := h.own c cur rfl own
  have h₁ : Exclusive ok (some c) (k.setTf cur tf) := h.setTf own
  have own₁ : (k.setTf cur tf).curenv c = some cur := own
  have used : ∀ {e : EnvIdx} {envid : Word} {b : Bool},
      (k.setTf cur tf).envid2env cur envid b = some e → (k.setTf cur tf).status e ≠ .free :=
    fun target => h₁.target_used own target
  cases step with
  | quiet same =>
      refine ⟨h₁.same same, ?_⟩
      rw [Kernel.curenv, same.cpus]
      exact own
  | setStatus call target arg =>
      refine ⟨h₁.setEnv (used target) rfl rfl (statusArg_ne_free arg) fun helse => ?_, own⟩
      rw [Kernel.envid2env_setTf] at target
      exact safe.setStatus cur _ _ enters call target arg helse
  | doom call target other running =>
      exact ⟨h₁.setEnv (used target) rfl rfl (by simp) fun _ => hok.dying, own⟩
  | release call target other idle same =>
      have hused := used target
      rw [Kernel.envid2env_setTf] at target
      rw [Kernel.setTf_status] at idle
      have hreleased := h₁.released hused (fun helse =>
        idle (safe.destroy cur _ enters call target helse)) other
      refine ⟨hreleased.same same, ?_⟩
      rw [Kernel.curenv, same.cpus]
      exact own
  | fork call head same =>
      refine ⟨(h₁.forked hok head _ _).same same, ?_⟩
      rw [Kernel.curenv, same.cpus]
      exact own
  | @deliver _ e call target recving same =>
      have hused := used target
      rw [Kernel.envid2env_setTf] at target
      have hrecv : ∀ e, ((k.setTf cur tf).envs e).ipcRecving = (k.envs e).ipcRecving :=
        Kernel.setEnv_field (f := Env.ipcRecving) (by rfl)
      rw [hrecv] at recving
      have hdelivered : Exclusive ok (some c)
          ((k.setTf cur tf).delivered e ((k.setTf cur tf).envs cur).id tf.regs.ecx) :=
        h₁.setEnv hused rfl rfl (by simp)
          fun helse => absurd helse (safe.send cur e enters call target recving)
      refine ⟨hdelivered.same same, ?_⟩
      rw [Kernel.curenv, same.cpus]
      exact own

theorem finish (h : Exclusive ok (some c) k) (hok : Executable ok) (own : k.curenv c = some cur)
    (out : Finish c tf cur k k') : Exclusive ok none k' := by
  have hcur := h.own c cur rfl own
  cases out with
  | dispatch out => exact h.dispatch hok out
  | result r out => exact (h.setTf own).dispatch hok out
  | wait call out =>
      have hwait : Exclusive ok (some c) (k.waiting cur tf.regs.edx) :=
        h.setEnv hcur.1 rfl rfl (by simp) fun helse => absurd helse hcur.2
      exact hwait.dispatch hok out
  | exit same out => exact ((h.exited own).same same).dispatch hok out
  | upcall tf' pgdir =>
      refine (h.setTf own).ran hok ?_ hcur.2 ?_
      · rw [Kernel.setTf_status]
        exact hcur.1
      · simpa [Kernel.setTf] using pgdir

/-- From user mode the CPU enters the kernel with an environment of its own. -/
theorem enter (h : Exclusive ok none k) (hok : Executable ok) (own : k.mode c = .user) :
    Exclusive ok (some c) k := by
  refine ⟨fun c' _ => h.user c' (by simp), fun c' _ => h.parked c' (by simp),
    fun c₁ c₂ e _ _ => h.unique c₁ c₂ e (by simp) (by simp), fun c' e hc hcur => ?_, h.slots⟩
  obtain rfl := Option.some.inj hc
  obtain ⟨e', hcur', hstatus, -⟩ := h.user c (by simp) own
  rw [hcur] at hcur'
  obtain rfl := Option.some.inj hcur'
  refine ⟨fun hfree => hok.not_free (hfree ▸ hstatus), ?_⟩
  rintro ⟨c', hne, hruns⟩
  exact hne (h.unique c' c e (by simp) (by simp) hruns ⟨own, hcur⟩)

theorem enter_idle (h : Exclusive ok none k) (idle : k.curenv c = none) :
    Exclusive ok (some c) k := by
  refine ⟨fun c' _ => h.user c' (by simp), fun c' _ => h.parked c' (by simp),
    fun c₁ c₂ e _ _ => h.unique c₁ c₂ e (by simp) (by simp), fun c' e hc hcur => ?_, h.slots⟩
  obtain rfl := Option.some.inj hc
  rw [idle] at hcur
  simp at hcur

/-- A kernel entry from an environment is an entry from user mode. -/
theorem mode_of_curenv (h : Exclusive ok none k) (lock : k.Unlocked)
    (own : k.curenv c = some cur) : k.mode c = .user := by
  by_contra hmode
  rw [h.parked c (by simp) hmode (lock c)] at own
  simp at own

theorem entry (h : Exclusive ok none k) (hok : Executable ok) (lock : k.Unlocked)
    (safe : SafeEntry ok k c tf) (entry : Entry c tf k k') : Exclusive ok none k' := by
  cases entry with
  | idle none out => exact (h.enter_idle none).dispatch hok out
  | collect own zombie same out =>
      have hin := h.enter hok (h.mode_of_curenv lock own)
      exact ((hin.exited own).same same).dispatch hok out
  | act own alive op out =>
      have hin := h.enter hok (h.mode_of_curenv lock own)
      obtain ⟨hop, own'⟩ := hin.op hok own alive safe op
      exact hop.finish hok own' out

/-- What a step from a state of the invariant can be. -/
theorem step_cases {ev : Event} (h : Exclusive ok none k) (step : Step k ev k') :
    k.Same k' ∨ k.Unlocked ∧ Entry ev.cpu ev.frame k k' := by
  refine step.entry (fun hmode => ?_) (fun hmode => ?_)
  · obtain ⟨e, he, -⟩ := h.user ev.cpu (by simp) hmode
    exact ⟨e, he⟩
  · rcases hmode with hmode | hmode <;>
      exact h.parked ev.cpu (by simp) (by rw [hmode]; decide) (by rw [hmode]; decide)

theorem step {ev : Event} (h : Exclusive ok none k) (hok : Executable ok)
    (safe : SafeEntry ok k ev.cpu ev.frame) (step : Step k ev k') : Exclusive ok none k' := by
  rcases h.step_cases step with same | ⟨lock, entry⟩
  · exact h.same same
  · exact h.entry hok lock safe entry

/-- The invariant holds in every state of a run of safe entries. -/
theorem run {G : Kernel → Event → Prop} (h : Exclusive ok none k) (hok : Executable ok)
    (safe : ∀ k ev, G k ev → SafeEntry ok k ev.cpu ev.frame) (run : Run G k k') :
    Exclusive ok none k' := by
  induction run with
  | refl => exact h
  | tail _ last ih =>
      obtain ⟨ev, hg, hstep⟩ := last
      exact ih.step hok (safe _ ev hg) hstep

end Exclusive

/-! ### What an entry leaves alone -/

theorem Dispatch.cpus_of_ne {c' : Nat} (out : Dispatch c k k') (hc : c' ≠ c) :
    k'.cpus c' = k.cpus c' := by
  cases out with
  | run ready pgdir => exact Kernel.ran_cpus_of_ne hc
  | halt => simp [Kernel.setCpu, Function.update_of_ne hc]
  | monitor => simp [Kernel.setCpu, Function.update_of_ne hc]

/-- A field that the scheduler does not touch. -/
theorem Dispatch.field {β : Type} {f : Env → β} (out : Dispatch c k k')
    (hf : ∀ env st r n, f { env with status := st, runs := r, cpunum := n } = f env)
    (e : EnvIdx) : f (k'.envs e) = f (k.envs e) := by
  cases out with
  | run ready pgdir => exact Kernel.ran_field hf e
  | halt => rfl
  | monitor => rfl

theorem Kernel.released_envs_of_ne {e e' : EnvIdx} (h : e' ≠ e) :
    (k.released e).envs e' = k.envs e' := by
  simp [Kernel.released, Kernel.setEnv_envs_of_ne _ h]

/-- The environment that has exited is free and off its CPU. -/
theorem Kernel.Same.exited (same : (k.exited c cur).Same k₁) :
    k₁.status cur = .free ∧ k₁.curenv c = none := by
  rw [Kernel.status, (same.envs cur).status, Kernel.curenv, same.cpus]
  refine ⟨congrArg Env.status (Kernel.setEnv_envs_self _ cur _), ?_⟩
  simp [Kernel.exited, Kernel.setCurenv, Kernel.setCpu]

/-- The scheduler does not pick a free slot. -/
theorem Dispatch.stays_free (out : Dispatch c k k') (free : k.status cur = .free)
    (idle : k.curenv c = none) : k'.status cur = .free ∧ k'.curenv c ≠ some cur := by
  cases out with
  | @run e d ready pgdir =>
      have hne : cur ≠ e := by
        intro he
        rcases ready with hr | ⟨hown, -⟩
        · rw [← he, free] at hr
          simp at hr
        · rw [idle] at hown
          simp at hown
      refine ⟨?_, ?_⟩
      · rw [Kernel.status, Kernel.ran_envs_of_ne hne, Kernel.preempted, idle]
        exact free
      · rw [Kernel.curenv, Kernel.ran_cpus_self]
        exact fun he => hne (Option.some.inj he).symm
  | halt => exact ⟨free, by simp [Kernel.curenv, Kernel.setCpu]⟩
  | monitor =>
      refine ⟨free, ?_⟩
      simp only [Kernel.curenv, Kernel.setCpu, Function.update_self]
      rw [← Kernel.curenv, idle]
      simp

theorem Kernel.exited_cpus_of_ne {c' : Nat} (hc : c' ≠ c) :
    (k.exited c cur).cpus c' = k.cpus c' := by
  simp [Kernel.exited, Kernel.released, Kernel.setCurenv, Kernel.setCpu, Kernel.setEnv,
    Function.update_of_ne hc]

theorem Op.cpus (op : Op c tf cur k k') : k'.cpus = k.cpus := by
  cases op with
  | quiet same => exact same.cpus
  | setStatus call target arg => rfl
  | doom call target other running => rfl
  | release call target other idle same => exact same.cpus
  | fork call head same => exact same.cpus
  | deliver call target recving same => exact same.cpus

theorem Finish.cpus_of_ne {c' : Nat} (out : Finish c tf cur k k') (hc : c' ≠ c) :
    k'.cpus c' = k.cpus c' := by
  cases out with
  | dispatch out => exact out.cpus_of_ne hc
  | result r out => exact out.cpus_of_ne hc
  | wait call out => exact out.cpus_of_ne hc
  | exit same out =>
      rw [out.cpus_of_ne hc, same.cpus]
      exact Kernel.exited_cpus_of_ne hc
  | upcall tf' pgdir => exact Kernel.ran_cpus_of_ne hc

/-- An entry on CPU `c` does not touch the other CPUs. -/
theorem Entry.cpus_of_ne {c' : Nat} (entry : Entry c tf k k') (hc : c' ≠ c) :
    k'.cpus c' = k.cpus c' := by
  cases entry with
  | idle none out => exact out.cpus_of_ne hc
  | collect own zombie same out =>
      rw [out.cpus_of_ne hc, same.cpus]
      exact Kernel.exited_cpus_of_ne hc
  | act own alive op out =>
      rw [out.cpus_of_ne hc, op.cpus]
      rfl

theorem Kernel.exited_id (e : EnvIdx) : ((k.exited c cur).envs e).id = (k.envs e).id :=
  Kernel.setEnv_field (f := Env.id) (by rfl) e

/-- Only a slot that was free gets a new id. -/
theorem Op.id (op : Op c tf cur k k') (slots : k.SlotsFree) (used : k.status e ≠ .free) :
    (k'.envs e).id = (k.envs e).id := by
  cases op with
  | quiet same => exact (same.envs e).id
  | setStatus call target arg => exact Kernel.setEnv_field (f := Env.id) (by rfl) e
  | doom call target other running => exact Kernel.setEnv_field (f := Env.id) (by rfl) e
  | release call target other idle same =>
      exact (same.envs e).id.trans (Kernel.setEnv_field (f := Env.id) (by rfl) e)
  | @fork _ slot _ _ call head same =>
      have hne : e ≠ slot := by
        rintro rfl
        exact used (slots.forked head 0 0 .zero).1
      rw [(same.envs e).id]
      simp [Kernel.forked, Kernel.setEnv_envs_of_ne _ hne]
  | deliver call target recving same =>
      exact (same.envs e).id.trans (Kernel.setEnv_field (f := Env.id) (by rfl) e)

theorem Finish.id (out : Finish c tf cur k k') (e : EnvIdx) :
    (k'.envs e).id = (k.envs e).id := by
  cases out with
  | dispatch out => exact out.field (fun _ _ _ _ => rfl) e
  | result r out =>
      exact (out.field (fun _ _ _ _ => rfl) e).trans (Kernel.setEnv_field (f := Env.id) (by rfl) e)
  | wait call out =>
      exact (out.field (fun _ _ _ _ => rfl) e).trans (Kernel.setEnv_field (f := Env.id) (by rfl) e)
  | exit same out =>
      rw [out.field (f := Env.id) (fun _ _ _ _ => rfl) e, (same.envs e).id, Kernel.exited_id]
  | upcall tf' pgdir =>
      exact (Kernel.ran_field (fun _ _ _ _ => rfl) e).trans
        (Kernel.setEnv_field (f := Env.id) (by rfl) e)

theorem Kernel.SlotsFree.setTf (h : k.SlotsFree) : (k.setTf cur tf).SlotsFree :=
  h.congr (Kernel.setEnv_field (f := Env.link) (by rfl)) rfl fun e hfree => by
    rwa [Kernel.setTf_status]

theorem Entry.id (entry : Entry c tf k k') (slots : k.SlotsFree) (used : k.status e ≠ .free) :
    (k'.envs e).id = (k.envs e).id := by
  cases entry with
  | idle none out => exact out.field (fun _ _ _ _ => rfl) e
  | collect own zombie same out =>
      rw [out.field (f := Env.id) (fun _ _ _ _ => rfl) e, (same.envs e).id, Kernel.exited_id]
  | act own alive op out =>
      rw [out.id e, op.id slots.setTf (by rwa [Kernel.setTf_status])]
      exact Kernel.setEnv_field (f := Env.id) (by rfl) e

end Jos
