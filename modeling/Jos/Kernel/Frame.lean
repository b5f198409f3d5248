import Jos.Kernel.Atomic
import Jos.Kernel.Isolation

/-!
# What a system call leaves alone

A system call acts on the caller, on its children, and on what `env_alloc` takes from
the two free lists. An environment `d` that is neither keeps its registers, its
settings and its address space: its page tables are not on the free list and are
not shared, so no page that the call writes is one of them.
-/

namespace Jos

open Prog

/-- Everything of an environment that the scheduler does not change. -/
def Env.own (env : Env) : Env := { env with status := .free, runs := 0, cpunum := 0 }

namespace Kernel

/-- The page is the directory or a page table below `UTOP` of `e`. -/
def TableOf (k : Kernel) (e : EnvIdx) (f : Nat) : Prop :=
  k.dirs e = some f ∨ ∃ i, k.phys.target k.dirs (.pde e i) = some f

/-- A state in which page tables are private: those of environments in use are not on the
free list, and no two environments have one in common. Both free lists link what
they should. -/
structure Separated (k : Kernel) : Prop where
  unlisted : ∀ e f, k.status e ≠ .free → k.TableOf e f → ¬ k.phys.Listed f
  unshared : ∀ e e' f, k.status e ≠ .free → k.status e' ≠ .free → e ≠ e' → k.TableOf e f →
    ¬ k.TableOf e' f
  npages : k.phys.npages ≤ 65536
  pages : ∀ f, k.phys.Listed f → f < k.phys.npages
  slots : k.SlotsFree

/-- The environment `d` is in use and neither the caller `cur` nor a child of it. -/
structure Unrelated (k : Kernel) (cur d : EnvIdx) : Prop where
  caller : k.status cur ≠ .free
  live : k.status d ≠ .free
  other : d ≠ cur
  stranger : (k.envs d).parentId ≠ (k.envs cur).id

/-- The environment `d` and its page tables are as before. -/
structure Untouched (d : EnvIdx) (k k' : Kernel) : Prop where
  own : (k'.envs d).own = (k.envs d).own
  tables : Phys.Agree (k.TableOf d) k.phys k'.phys

end Kernel

variable {k k' k₁ : Kernel} {c : Nat} {cur d e : EnvIdx}

namespace Kernel.Untouched

theorem refl (d : EnvIdx) (k : Kernel) : k.Untouched d k := ⟨rfl, .refl _ _⟩

theorem field {β : Type} {f : Env → β} (h : k.Untouched d k') (hf : ∀ env : Env, f env.own = f env) :
    f (k'.envs d) = f (k.envs d) := by
  rw [← hf, h.own, hf]

theorem pgdir (h : k.Untouched d k') : k'.dirs d = k.dirs d :=
  h.field (f := Env.pgdir) fun _ => rfl

theorem pdeAt (h : k.Untouched d k') (i : Idx) :
    k'.phys.pdeAt k'.dirs d i = k.phys.pdeAt k.dirs d i := by
  simp only [Phys.pdeAt, h.pgdir]
  cases hd : k.dirs d with
  | none => rfl
  | some dir => simp only [k.phys.word_congr (h.tables dir (.inl hd))]

theorem pteAt (h : k.Untouched d k') (i j : Idx) :
    k'.phys.pteAt k'.dirs d i j = k.phys.pteAt k.dirs d i j := by
  rw [Phys.pteAt, h.pdeAt, Phys.pteAt]
  cases ht : entryFrame (k.phys.pdeAt k.dirs d i) with
  | none => rfl
  | some t => exact k.phys.word_congr (h.tables t (.inr ⟨i, ht⟩))

theorem tableOf_iff (h : k.Untouched d k') (f : Nat) : k'.TableOf d f ↔ k.TableOf d f := by
  simp only [TableOf, Phys.target, h.pgdir, h.pdeAt]

theorem trans (h : k.Untouched d k₁) (h' : k₁.Untouched d k') : k.Untouched d k' :=
  ⟨h'.own.trans h.own, h.tables.trans fun f hf => h'.tables f ((h.tableOf_iff f).mpr hf)⟩

/-- A change to another environment. -/
theorem setEnv (hne : d ≠ e) (env : Env) : k.Untouched d (k.setEnv e env) :=
  ⟨by rw [Kernel.setEnv_envs_of_ne _ hne], .refl _ _⟩

/-- A change to memory. -/
theorem phys {p : Phys} (h : Phys.Agree (k.TableOf d) k.phys p) :
    k.Untouched d { k with phys := p } :=
  ⟨rfl, h⟩

theorem setCpu (cpu : Cpu) : k.Untouched d (k.setCpu c cpu) := ⟨rfl, .refl _ _⟩

theorem ran {dir : Nat} : k.Untouched d (k.ran c e dir) :=
  ⟨Kernel.ran_field (f := Env.own) (fun _ _ _ _ => rfl) d, .of_mem (by rw [Kernel.ran_phys.1])⟩

theorem dispatch (out : Dispatch c k k') : k.Untouched d k' := by
  cases out with
  | run ready pgdir => exact .ran
  | halt => exact .setCpu _
  | monitor => exact .setCpu _

end Kernel.Untouched

/-- Running `m` from `k` leaves `d` alone, however it ends. -/
def Spares {α : Type} (d : EnvIdx) (m : KM α) (k : Kernel) : Prop :=
  wp m (fun _ k' => k.Untouched d k') (fun _ k' => k.Untouched d k') (fun _ => True) k

namespace Spares

variable {α β : Type}

theorem pure (a : α) : Spares d (pure a : KM α) k := by
  rw [Spares, wp_pure]
  exact .refl d k

theorem bind {m : KM α} {f : α → KM β} (h : Spares d m k)
    (rest : ∀ a k', k.Untouched d k' → Spares d (f a) k') : Spares d (m >>= f) k := by
  rw [Spares, wp_bind]
  apply wp_imp h
  intro a k' hk
  exact wp_mono (rest a k' hk) (fun _ _ h' => hk.trans h') (fun _ _ h' => hk.trans h') fun _ he => he

theorem read {m : KM α} {f : α → KM β} (h : Reads m k) (rest : ∀ a, Spares d (f a) k) :
    Spares d (m >>= f) k := by
  rw [Spares, wp_bind]
  refine wp_mono h ?_ (fun _ _ hf => hf.elim) fun _ he => he
  rintro a _ rfl
  exact rest a

theorem ret {m : KM α} {f : α → KM β} {a : α} (h : m k = .ret a k) (rest : Spares d (f a) k) :
    Spares d (m >>= f) k := by
  rw [Spares, wp_bind, wp_ret h]
  exact rest

theorem of_reads {m : KM α} (h : Reads m k) : Spares d m k := by
  refine wp_mono h ?_ (fun _ _ hf => hf.elim) fun _ he => he
  rintro a _ rfl
  exact .refl d _

theorem get {f : Kernel → KM α} (h : Spares d (f k) k) : Spares d (Prog.get >>= f) k := by
  rw [Spares, wp_bind, wp_get]
  exact h

theorem ite {p : Prop} [Decidable p] {m n : KM α} (hm : p → Spares d m k)
    (hn : ¬ p → Spares d n k) : Spares d (if p then m else n) k := by
  rw [Spares, wp_ite]
  exact ⟨hm, hn⟩

theorem modify {f : Kernel → Kernel} (h : k.Untouched d (f k)) : Spares d (Prog.modify f) k := by
  rw [Spares, wp_modify]
  exact h

/-- A change to another environment. -/
theorem setEnv (hne : d ≠ e) (env : Kernel → Env) :
    Spares d (Prog.modify fun k => k.setEnv e (env k)) k :=
  .modify (.setEnv hne _)

theorem pmap {m : Pmap α} {Q : α → Phys → Prop}
    (h : wp m Q (fun _ _ => True) (fun _ => True) k.phys)
    (hq : ∀ a p, Q a p → Phys.Agree (k.TableOf d) k.phys p) : Spares d (pmap m) k := by
  rw [Spares, Jos.pmap, wp_zoom]
  exact wp_mono h (fun a p ha => .phys (hq a p ha)) (fun r => r.elim) fun _ he => he

theorem pmapModify {f : Phys → Phys} (h : Phys.Agree (k.TableOf d) k.phys (f k.phys)) :
    Spares d (Jos.pmap (Prog.modify f)) k :=
  .pmap (Q := fun _ p => p = f k.phys) ((wp_modify f).mpr rfl) fun _ _ hp => hp ▸ h

theorem panic (why : Panic) : Spares d (Prog.panic why : KM α) k := by
  rw [Spares, wp_panic]
  trivial

theorem schedYield : Spares d (schedYield c : KM α) k :=
  wp_mono schedYield_dispatch (fun _ _ h => h) (fun _ _ h => .dispatch h) fun _ he => he

theorem monitor : Spares d (monitor c : KM α) k :=
  wp_mono monitor_dispatch (fun _ _ h => h) (fun _ _ h => .dispatch h) fun _ he => he

theorem trapReturn : Spares d (trapReturn c) k :=
  wp_mono (trapReturn_dispatch (Q := fun _ _ => False)) (fun _ _ hf => hf.elim)
    (fun _ _ h => .dispatch h) fun _ he => he

end Spares

theorem Reads.paddrPgdir : Reads (paddrPgdir e) k := by
  rw [Reads, Jos.paddrPgdir, wp_bind, wp_get]
  split
  · rw [wp_panic]
    trivial
  · rw [wp_pure]

namespace Kernel.Separated

variable (sep : k.Separated)
include sep

/-- The pages that an operation on another address space writes. -/
theorem avoids (used : k.status e ≠ .free) (live : k.status d ≠ .free) (hne : e ≠ d) {dir : Nat}
    (hdir : k.dirs e = some dir) : Phys.Avoids (k.TableOf d) k.phys dir := by
  refine ⟨sep.unshared e d dir used live hne (.inl hdir), fun i hi hp => ?_⟩
  refine sep.unshared e d _ used live hne (.inr ⟨i, ?_⟩)
  rw [Phys.target, Phys.pdeAt_of_dir hdir hi, entryFrame, if_pos hp]

theorem free (live : k.status d ≠ .free) {g : Nat} (hg : k.phys.Listed g) :
    ¬ k.TableOf d g ∧ g < 1048576 := by
  have hlt := sep.pages g hg
  have hn := sep.npages
  exact ⟨fun h => sep.unlisted d g live h hg, by omega⟩

end Kernel.Separated

section Free

variable (hne : d ≠ e)
  (havoid : ∀ dir, k.dirs e = some dir → Phys.Avoids (k.TableOf d) k.phys dir)
include hne havoid

/-- The end of another environment. -/
theorem envFree_spares : Spares d (envFree c e) k := by
  have hcr3 : wp (when (k.curenv c = some e)
      (modify fun k => k.setCpu c { k.cpus c with cr3 := k.kernPgdir }) : KM Unit)
      (fun _ k₁ => k₁.phys = k.phys ∧ k₁.envs = k.envs) (fun _ _ => False) (fun _ => True) k := by
    rw [wp_when, wp_modify]
    exact ⟨fun _ => ⟨rfl, rfl⟩, fun _ => ⟨rfl, rfl⟩⟩
  rw [Spares, envFree, wp_bind, wp_get, wp_bind]
  refine wp_mono hcr3 ?_ (fun _ _ hf => hf.elim) fun _ he => he
  rintro _ k₁ ⟨hphys, henvs⟩
  have hdirs : k₁.dirs = k.dirs := funext fun e' => by rw [Kernel.dirs, henvs, Kernel.dirs]
  have hk : k.Untouched d k₁ := ⟨by rw [henvs], .of_mem (by rw [hphys])⟩
  refine wp_mono (?_ : Spares d _ k₁) (fun _ _ h => hk.trans h) (fun _ _ h => hk.trans h)
    fun _ he => he
  cases hd : (k₁.envs e).pgdir with
  | none =>
      rw [Spares, pgdirOf, wp_bind, wp_bind, wp_get, hd, wp_panic]
      trivial
  | some dir =>
      have hall : Phys.Avoids (k₁.TableOf d) k₁.phys dir := by
        have htable : k₁.TableOf d = k.TableOf d := funext fun f => propext (hk.tableOf_iff f)
        rw [htable, hphys]
        exact havoid dir (by rw [← hdirs]; exact hd)
      have hrun : pgdirOf e k₁ = .ret dir k₁ := by
        rw [pgdirOf, get_bind, hd]
        rfl
      refine .ret hrun (.bind (.pmap (envFreePdes_agree hall) fun _ _ h => h) fun _ _ _ => ?_)
      refine .read .paddrPgdir fun pa => .bind (.setEnv hne _) fun _ k₂ _ => ?_
      refine .bind (.pmap (Q := fun _ q => q.mem = k₂.phys.mem) ?_ fun _ _ h => .of_mem h)
        fun _ _ _ => .bind (.setEnv hne _) fun _ _ _ => .modify ⟨rfl, .refl _ _⟩
      rw [wp_bind, pa2page, frameOf, wp_bind, wp_get, wp_ite, wp_panic, wp_pure]
      exact ⟨fun _ => trivial, fun _ => pageDecref_mem _ _⟩

theorem envDestroy_spares : Spares d (envDestroy c e) k := by
  refine .get (.ite (fun _ => .setEnv hne _) fun _ => ?_)
  refine .bind (envFree_spares hne havoid) fun _ k₁ _ => .get ?_
  rw [when]
  refine .ite (fun _ => ?_) fun _ => .pure _
  exact .bind (.modify (.setCpu _)) fun _ _ _ => .schedYield

/-- A failed check ends only the environment that is checked. -/
theorem userMemAssert_spares {va len perm : Word} : Spares d (userMemAssert c e va len perm) k := by
  refine .read .pgdirOf fun pgdir => .read (.pmap (userMemCheck_reads _ _ _ _ _)) fun o => ?_
  cases o with
  | none => exact .pure _
  | some addr => exact envDestroy_spares hne havoid

end Free

/-! ### The system calls -/

section Calls

/-- What the caller may name is another environment, and in use. -/
theorem Kernel.Unrelated.target (rel : k.Unrelated cur d) {envid : Word}
    (target : k.envid2env cur envid true = some e) : d ≠ e ∧ k.status e ≠ .free := by
  refine ⟨?_, MemInv.live_of_target rel.caller target⟩
  rintro rfl
  rw [Kernel.envid2env] at target
  split at target
  · exact rel.other (Option.some.inj target).symm
  · dsimp only at target
    split at target
    · simp at target
    · split at target
      · simp at target
      · rename_i hperm
        have hd := Option.some.inj target
        rw [hd] at hperm
        exact hperm ⟨rfl, rel.other, rel.stranger⟩

theorem Spares.envid2env {α : Type} {envid : Word} {b : Bool} {f : Option EnvIdx → KM α}
    (rest : ∀ o, k.envid2env cur envid b = o → Spares d (f o) k) :
    Spares d (envid2env cur envid b >>= f) k :=
  .ret rfl (rest _ rfl)

/-- Insertion in another address space. -/
theorem insertInto_spares (sep : k.Separated) (live : k.status d ≠ .free) (hne : d ≠ e)
    (used : k.status e ≠ .free) {pp : Nat} {va perm : Word} (hva : va < utop) :
    Spares d (insertInto e pp va perm) k := by
  cases hd : (k.envs e).pgdir with
  | none =>
      rw [insertInto, pgdirOf, Spares, wp_bind, wp_bind, wp_get, hd, wp_panic]
      trivial
  | some dir =>
      have hrun : pgdirOf e k = .ret dir k := by
        rw [pgdirOf, get_bind, hd]
        rfl
      exact .ret hrun (.pmap (pageInsert_agrees (sep.avoids used live hne.symm hd) hva
        (fun g hg => sep.free live hg) pp perm) fun _ _ h => h)

theorem sysEnvDestroy_spares (sep : k.Separated) (rel : k.Unrelated cur d) {envid : Word} :
    Spares d (sysEnvDestroy c cur envid) k := by
  refine .envid2env fun o target => ?_
  cases o with
  | none => exact .pure _
  | some e =>
      obtain ⟨hne, used⟩ := rel.target target
      exact .bind (envDestroy_spares hne fun dir hd => sep.avoids used rel.live hne.symm hd)
        fun _ _ _ => .pure _

theorem sysCputs_spares (sep : k.Separated) (rel : k.Unrelated cur d) {s len : Word} :
    Spares d (sysCputs c cur s len) k := by
  have hassert : Spares d (userMemAssert c cur s len pteU) k :=
    userMemAssert_spares rel.other fun dir hd => sep.avoids rel.caller rel.live rel.other.symm hd
  refine .bind hassert fun _ k₁ _ => .get ?_
  rw [when]
  refine .bind (.ite (fun _ => ?_) fun _ => .pure _) fun _ _ _ => .pure _
  exact .of_reads (.pmap (readString_reads _ _ _ _))

theorem sysEnvSetStatus_spares (rel : k.Unrelated cur d) {envid status : Word} :
    Spares d (sysEnvSetStatus cur envid status) k := by
  rw [sysEnvSetStatus]
  cases statusArg status with
  | none => exact .pure _
  | some st =>
      refine .envid2env fun o target => ?_
      cases o with
      | none => exact .pure _
      | some e =>
          have hne := (rel.target target).1
          exact .bind (.setEnv hne _) fun _ _ _ => .pure _

theorem sysEnvSetPgfaultUpcall_spares (rel : k.Unrelated cur d) {envid func : Word} :
    Spares d (sysEnvSetPgfaultUpcall cur envid func) k := by
  refine .envid2env fun o target => ?_
  cases o with
  | none => exact .pure _
  | some e =>
      have hne := (rel.target target).1
      exact .bind (.setEnv hne _) fun _ _ _ => .pure _

theorem sysPageUnmap_spares (sep : k.Separated) (rel : k.Unrelated cur d) {envid va : Word} :
    Spares d (sysPageUnmap cur envid va) k := by
  refine .envid2env fun o target => ?_
  cases o with
  | none => exact .pure _
  | some e =>
      obtain ⟨hne, used⟩ := rel.target target
      refine .ite (fun _ => .pure _) fun hva => ?_
      rw [not_not] at hva
      cases hd : (k.envs e).pgdir with
      | none =>
          rw [pgdirOf, Spares, wp_bind, wp_bind, wp_get, hd, wp_panic]
          trivial
      | some dir =>
          have hrun : pgdirOf e k = .ret dir k := by
            rw [pgdirOf, get_bind, hd]
            rfl
          have havoids := sep.avoids used rel.live hne.symm hd
          refine .ret hrun (.bind (.pmap (pageRemove_agrees ?_) fun _ _ h => h.1)
            fun _ _ _ => .pure _)
          exact havoids.table _ ((pdx_lt_iff va).mpr hva.1)

theorem sysPageMap_spares (sep : k.Separated) (rel : k.Unrelated cur d)
    {srcenvid srcva dstenvid dstva perm : Word} :
    Spares d (sysPageMap cur srcenvid srcva dstenvid dstva perm) k := by
  refine .envid2env fun src _ => ?_
  cases src with
  | none => exact .pure _
  | some src =>
      refine .envid2env fun dst target => ?_
      cases dst with
      | none => exact .pure _
      | some dst =>
          obtain ⟨hne, used⟩ := rel.target target
          refine .ite (fun _ => .pure _) fun hva => .read .lookupIn fun found => ?_
          rw [not_not] at hva
          cases found with
          | none => exact .pure _
          | some found =>
              refine .ite (fun _ => .pure _) fun _ => .ite (fun _ => .pure _) fun _ => ?_
              refine .bind (insertInto_spares sep rel.live hne used hva.2.1) fun _ _ _ => ?_
              exact .ite (fun _ => .pure _) fun _ => .pure _

/-- Taking a page from the free list does not make page tables less private. -/
theorem Kernel.Separated.alloc (sep : k.Separated) {q : Phys} (npages : q.npages = k.phys.npages)
    (listed : ∀ g, q.Listed g → k.phys.Listed g)
    (mem : ∀ g, ¬ k.phys.Listed g → q.mem g = k.phys.mem g) :
    Kernel.Separated { k with phys := q } := by
  have htable : ∀ e f, k.status e ≠ .free →
      (Kernel.TableOf { k with phys := q } e f ↔ k.TableOf e f) := by
    intro e f used
    have hpde : ∀ i, q.pdeAt k.dirs e i = k.phys.pdeAt k.dirs e i := by
      intro i
      simp only [Phys.pdeAt]
      cases hd : k.dirs e with
      | none => rfl
      | some dir =>
          simp only [k.phys.word_congr (mem dir (sep.unlisted e dir used (.inl hd)))]
    change (k.dirs e = some f ∨ ∃ i, entryFrame (q.pdeAt k.dirs e i) = some f) ↔ _
    simp only [hpde]
    exact Iff.rfl
  constructor
  · intro e f used hf hg
    exact sep.unlisted e f used ((htable e f used).mp hf) (listed f hg)
  · intro e e' f used used' hne hf hf'
    exact sep.unshared e e' f used used' hne ((htable e f used).mp hf) ((htable e' f used').mp hf')
  · change q.npages ≤ 65536
    rw [npages]
    exact sep.npages
  · intro f hf
    change f < q.npages
    rw [npages]
    exact sep.pages f (listed f hf)
  · exact sep.slots

theorem sysPageAlloc_spares (sep : k.Separated) (rel : k.Unrelated cur d)
    {envid va perm : Word} : Spares d (sysPageAlloc cur envid va perm) k := by
  refine .envid2env fun o target => ?_
  cases o with
  | none => exact .pure _
  | some e =>
      obtain ⟨hne, used⟩ := rel.target target
      refine .ite (fun _ => .pure _) fun hva => .ite (fun _ => .pure _) fun _ => ?_
      rw [not_not] at hva
      rw [Spares, wp_bind, pmap, wp_zoom, userPageAlloc, wp_bind]
      refine wp_mono (pageAlloc_agrees (fun g hg => (sep.free rel.live hg).2) true) ?_
        (fun r => r.elim) fun _ he => he
      rintro found q ⟨hn, hlisted, hnone, hsome⟩
      cases found with
      | none =>
          rw [wp_pure, wp_pure, hnone rfl]
          exact .refl d k
      | some pp =>
          obtain ⟨hpp, hmem⟩ := hsome pp rfl
          have hfar : ∀ g, ¬ k.phys.Listed g → q.mem g = k.phys.mem g := by
            intro g hg
            refine hmem g ?_
            rintro rfl
            exact hg hpp
          have hk : k.Untouched d { k with phys := { q with userPages := pp :: q.userPages } } :=
            .phys fun g hg => hfar g (sep.unlisted d g rel.live hg)
          rw [wp_bind, wp_modify, wp_pure]
          refine wp_mono (?_ : Spares d _ _) (fun _ _ h => hk.trans h) (fun _ _ h => hk.trans h)
            fun _ he => he
          have hsep : Kernel.Separated
              { k with phys := { q with userPages := pp :: q.userPages } } :=
            sep.alloc (q := { q with userPages := pp :: q.userPages }) hn hlisted hfar
          refine .bind (insertInto_spares hsep rel.live hne used hva.1) fun _ _ _ => ?_
          exact .ite (fun _ => .pure _) fun _ => .pure _

/-- A new address space comes from a free page. -/
theorem envSetupVm_spares (sep : k.Separated) (live : k.status d ≠ .free) (hne : d ≠ e) :
    Spares d (envSetupVm e) k := by
  rw [envSetupVm, Spares, wp_bind, pmap, wp_zoom]
  refine wp_mono (pageAlloc_agrees (fun g hg => (sep.free live hg).2) true) ?_
    (fun r => r.elim) fun _ he => he
  rintro found q ⟨hn, hlisted, hnone, hsome⟩
  cases found with
  | none =>
      rw [wp_pure, hnone rfl]
      exact .refl d k
  | some f =>
      obtain ⟨hf, hmem⟩ := hsome f rfl
      obtain ⟨hplain, hlt⟩ := sep.free live hf
      have hk : k.Untouched d { k with phys := q } := by
        refine .phys fun g hg => hmem g ?_
        rintro rfl
        exact hplain hg
      refine wp_mono (?_ : Spares d _ _) (fun _ _ h => hk.trans h) (fun _ _ h => hk.trans h)
        fun _ he => he
      have hkva : wp (pmap (page2kva f)) (fun a k' => a = f ∧ k' = { k with phys := q })
          (fun _ _ => False) (fun _ => True) { k with phys := q } := by
        simp only [pmap, wp_zoom, page2kva, kaddr, frameOf, wp_bind, wp_get, wp_ite, wp_panic,
          wp_pure, page2pa, pgnum_pageAddr hlt]
        exact ⟨fun _ => trivial, fun _ => ⟨trivial, trivial⟩⟩
      rw [Spares, wp_bind]
      refine wp_mono hkva ?_ (fun _ _ hf => hf.elim) fun _ he => he
      rintro _ _ ⟨rfl, rfl⟩
      refine Spares.bind (.setEnv hne _) fun _ k₂ h₂ => .get ?_
      have hplain₂ : ¬ k₂.TableOf d _ := fun h =>
        hplain ((hk.tableOf_iff _).mp ((h₂.tableOf_iff _).mp h))
      refine .bind (.pmapModify (.setPage hplain₂ _)) fun _ k₃ h₃ => ?_
      refine .bind (.pmapModify (.of_mem rfl)) fun _ k₄ h₄ => ?_
      refine .bind (.pmapModify (.setWord ?_ _ _)) fun _ _ _ => .pure _
      exact fun h => hplain₂ ((h₃.tableOf_iff _).mp ((h₄.tableOf_iff _).mp h))

theorem envAlloc_spares (sep : k.Separated) (live : k.status d ≠ .free) (parentId : Word) :
    wp (envAlloc parentId) (fun r k' => k.Untouched d k' ∧ ∀ e, r = .ok e → d ≠ e)
      (fun _ k' => k.Untouched d k') (fun _ => True) k := by
  rw [envAlloc, wp_bind, wp_get]
  cases head : k.envFreeList with
  | none =>
      rw [wp_pure]
      exact ⟨.refl d k, fun _ h => by simp at h⟩
  | some e =>
      have hne : d ≠ e := by
        rintro rfl
        exact live (sep.slots.forked head 0 0 .zero).1
      dsimp only
      rw [wp_bind]
      apply wp_imp (envSetupVm_spares sep live hne)
      intro r k₁ hk
      rw [wp_ite, wp_pure]
      refine ⟨fun _ => ⟨hk, fun _ h => by simp at h⟩, fun _ => ?_⟩
      simp only [wp_bind, wp_modify, wp_pure]
      refine ⟨hk.trans (.trans (.setEnv hne _) ⟨rfl, .refl _ _⟩), fun e' h => ?_⟩
      rwa [← Except.ok.inj h]

theorem sysExofork_spares (sep : k.Separated) (rel : k.Unrelated cur d) :
    Spares d (sysExofork cur) k := by
  refine .get ?_
  rw [Spares, wp_bind]
  apply wp_imp (envAlloc_spares sep rel.live _)
  rintro r k₁ ⟨hk, hne⟩
  cases r with
  | error w =>
      rw [wp_pure]
      exact hk
  | ok e =>
      refine wp_mono (?_ : Spares d _ _) (fun _ _ h => hk.trans h) (fun _ _ h => hk.trans h)
        fun _ he => he
      exact .bind (.setEnv (hne e rfl) _) fun _ _ _ => .bind (.setEnv (hne e rfl) _) fun _ _ _ =>
        .get (.pure _)

theorem sysIpcRecv_spares (rel : k.Unrelated cur d) {dstva : Word} :
    Spares d (sysIpcRecv c cur dstva) k :=
  .ite (fun _ => .pure _) fun _ => .bind (.setEnv rel.other _) fun _ _ _ => .schedYield

theorem syscall_spares (sep : k.Separated) (rel : k.Unrelated cur d) {number : Word}
    (other : SysCall.ofNumber number ≠ some .ipcTrySend) (input a1 a2 a3 a4 a5 : Word) :
    Spares d (syscall c cur input number a1 a2 a3 a4 a5) k := by
  rw [syscall]
  cases call : SysCall.ofNumber number with
  | none => exact .pure _
  | some call' =>
      cases call' with
      | cputs => exact sysCputs_spares sep rel
      | cgetc => exact .pure _
      | getenvid => exact .get (.pure _)
      | envDestroy => exact sysEnvDestroy_spares sep rel
      | pageAlloc => exact sysPageAlloc_spares sep rel
      | pageMap => exact sysPageMap_spares sep rel
      | pageUnmap => exact sysPageUnmap_spares sep rel
      | exofork => exact sysExofork_spares sep rel
      | envSetStatus => exact sysEnvSetStatus_spares rel
      | envSetPgfaultUpcall => exact sysEnvSetPgfaultUpcall_spares rel
      | yield => exact .schedYield
      | ipcTrySend => exact absurd call other
      | ipcRecv => exact sysIpcRecv_spares rel

end Calls

/-- A system call leaves the registers, the settings and the mappings of unrelated
environments alone, whether it returns or schedules. -/
theorem syscall_frame (sep : k.Separated) (rel : k.Unrelated cur d) {number : Word}
    (other : SysCall.ofNumber number ≠ some .ipcTrySend) {input a1 a2 a3 a4 a5 : Word}
    (run : (∃ r, syscall c cur input number a1 a2 a3 a4 a5 k = .ret r k') ∨
      syscall c cur input number a1 a2 a3 a4 a5 k = .exit () k') :
    (k'.envs d).pgdir = (k.envs d).pgdir ∧
      (∀ va, va < utop → k'.entryAt d va = k.entryAt d va) ∧
      (k'.envs d).tf = (k.envs d).tf ∧
      (k'.envs d).pgfaultUpcall = (k.envs d).pgfaultUpcall ∧
      (k'.envs d).parentId = (k.envs d).parentId ∧
      (k'.envs d).ipcRecving = (k.envs d).ipcRecving ∧
      (k'.envs d).ipcDstva = (k.envs d).ipcDstva ∧
      (k'.envs d).ipcValue = (k.envs d).ipcValue ∧
      (k'.envs d).ipcFrom = (k.envs d).ipcFrom ∧ (k'.envs d).ipcPerm = (k.envs d).ipcPerm := by
  have hspares := syscall_spares (c := c) sep rel other input a1 a2 a3 a4 a5
  have h : k.Untouched d k' := by
    rcases run with ⟨r, run⟩ | run
    · exact (wp_ret run).mp hspares
    · exact (wp_exit_eq run).mp hspares
  exact ⟨h.pgdir, fun va _ => h.pteAt (pdx va) (ptx va), h.field (f := Env.tf) fun _ => rfl,
    h.field (f := Env.pgfaultUpcall) fun _ => rfl, h.field (f := Env.parentId) fun _ => rfl,
    h.field (f := Env.ipcRecving) fun _ => rfl, h.field (f := Env.ipcDstva) fun _ => rfl,
    h.field (f := Env.ipcValue) fun _ => rfl, h.field (f := Env.ipcFrom) fun _ => rfl,
    h.field (f := Env.ipcPerm) fun _ => rfl⟩

/-- Two environments that have the page 5 at `UTEXT`, the first one through its directory 1 and
its page table 3, the second one through 2 and 4. -/
def Kernel.neighbours : Kernel :=
  { phys := { ((((Phys.blank 6).setWord 1 (pdx utext) (mkPte 3 (pteU ||| pteW))).setWord 3
        (ptx utext) (mkPte 5 (pteU ||| pteW))).setWord 2 (pdx utext)
        (mkPte 4 (pteU ||| pteW))).setWord 4 (ptx utext) (mkPte 5 (pteU ||| pteW)) with
      pages := fun f => ⟨none, if f = 5 then 2 else 1⟩ }
    kernPgdir := 0
    envs := fun e =>
      if e = 0 then { Env.zero with id := 4096, status := .running, pgdir := some 1 }
      else if e = 1 then { Env.zero with id := 4097, status := .runnable, pgdir := some 2 }
      else .zero
    envFreeList := none
    cpus := fun _ => ⟨none, .unused, 0⟩ }

theorem Kernel.neighbours_dirs (e : EnvIdx) : neighbours.dirs e =
    if e = 0 then some 1 else if e = 1 then some 2 else none := by
  rw [Kernel.dirs, neighbours]
  dsimp only
  split
  · rfl
  · split <;> rfl

theorem Kernel.neighbours_word (f : Nat) (i : Idx) : neighbours.phys.word f i =
    if f = 4 ∧ i = ptx utext then mkPte 5 (pteU ||| pteW)
    else if f = 2 ∧ i = pdx utext then mkPte 4 (pteU ||| pteW)
    else if f = 3 ∧ i = ptx utext then mkPte 5 (pteU ||| pteW)
    else if f = 1 ∧ i = pdx utext then mkPte 3 (pteU ||| pteW) else 0 := by
  change Phys.word (((((Phys.blank 6).setWord 1 (pdx utext) _).setWord 3 (ptx utext) _).setWord 2
    (pdx utext) _).setWord 4 (ptx utext) _) f i = _
  simp only [Phys.word_setWord]
  have hzero : (Phys.blank 6).word f i = 0 := readWord_zero i
  rw [hzero]

/-- The page table for `UTEXT`. -/
theorem Kernel.neighbours_table {p : Phys} {e : EnvIdx} {d t : Nat} (hd : neighbours.dirs e = some d)
    (hword : p.word d (pdx utext) = mkPte t (pteU ||| pteW)) (ht : t < 1048576) :
    p.pteAt neighbours.dirs e (pdx utext) (ptx utext) = p.word t (ptx utext) := by
  refine Phys.pteAt_of_table ?_
  rw [Phys.target, Phys.pdeAt_of_dir hd (by decide), hword, entryFrame_mkPte ht (by decide)]

theorem Kernel.neighbours_tableOf {e : EnvIdx} {f : Nat} (h : neighbours.TableOf e f) :
    e = 0 ∧ (f = 1 ∨ f = 3) ∨ e = 1 ∧ (f = 2 ∨ f = 4) := by
  have hdir : ∀ {dir}, neighbours.dirs e = some dir → e = 0 ∧ dir = 1 ∨ e = 1 ∧ dir = 2 := by
    intro dir hd
    rw [neighbours_dirs] at hd
    grind
  rcases h with hd | ⟨i, ht⟩
  · grind
  · obtain ⟨dir, hd, -, ht⟩ := Phys.dir_of_table ht
    rw [neighbours_word] at ht
    rcases hdir hd with ⟨rfl, rfl⟩ | ⟨rfl, rfl⟩
    · rw [if_neg (by simp), if_neg (by simp), if_neg (by simp)] at ht
      split at ht
      · rw [entryFrame_mkPte (by decide) (by decide)] at ht
        exact .inl ⟨rfl, .inr (Option.some.inj ht).symm⟩
      · exact absurd (entryFrame_zero.symm.trans ht) (by simp)
    · rw [if_neg (by simp)] at ht
      split at ht
      · rw [entryFrame_mkPte (by decide) (by decide)] at ht
        exact .inr ⟨rfl, .inr (Option.some.inj ht).symm⟩
      · rw [if_neg (by simp), if_neg (by simp)] at ht
        exact absurd (entryFrame_zero.symm.trans ht) (by simp)

theorem Kernel.neighbours_separated : neighbours.Separated := by
  have hlist : ∀ f, ¬ neighbours.phys.Listed f := by
    intro f hf
    cases hf
  refine ⟨fun e f _ _ => hlist f, fun e e' f _ _ hne h h' => ?_, by decide, fun f hf =>
    absurd hf (hlist f), ⟨[], .nil, by simp⟩⟩
  have hd := neighbours_tableOf h
  have hd' := neighbours_tableOf h'
  grind

theorem Kernel.neighbours_unrelated : neighbours.Unrelated 0 1 := by
  constructor
  · change EnvStatus.running ≠ .free
    decide
  · change EnvStatus.runnable ≠ .free
    decide
  · decide
  · change (0 : Word) ≠ 4096
    decide

/-- The first one unmaps the page; the second one keeps it. -/
theorem syscall_frame_neighbours : ∃ k',
    syscall 0 0 0 SysCall.pageUnmap.number 0 utext 0 0 0 Kernel.neighbours = .ret 0 k' ∧
      k'.entryAt 0 utext = 0 ∧ k'.entryAt 1 utext = mkPte 5 (pteU ||| pteW) := by
  let p := Kernel.neighbours.phys
  have hpde : p.word 1 (pdx utext) = mkPte 3 (pteU ||| pteW) := by
    rw [Kernel.neighbours_word]
    decide
  have hpte : p.word 3 (ptx utext) = mkPte 5 (pteU ||| pteW) := by
    rw [Kernel.neighbours_word]
    decide
  have htable : pgnum (p.word 1 (pdx utext)) = 3 := by
    rw [hpde]
    decide
  have hpage : pgnum (p.word 3 (ptx utext)) = 5 := by
    rw [hpte]
    decide
  have hpresent : p.word 1 (pdx utext) &&& pteP ≠ 0 := by
    rw [hpde]
    decide
  have hlookup := pageLookup_some hpresent (by rw [htable]; decide) (by rw [htable, hpage]; decide)
  rw [htable, hpage] at hlookup
  have hremove := pageRemove_some hlookup rfl
  let k' : Kernel := { Kernel.neighbours with phys := (p.drop 5).setWord 3 (ptx utext) 0 }
  have run : syscall 0 0 0 SysCall.pageUnmap.number 0 utext 0 0 0 Kernel.neighbours =
      .ret 0 k' := by
    change sysPageUnmap 0 0 utext Kernel.neighbours = _
    have htarget : Jos.envid2env 0 0 true Kernel.neighbours = .ret (some 0) Kernel.neighbours := rfl
    have hdir : pgdirOf 0 Kernel.neighbours = .ret 1 Kernel.neighbours := rfl
    rw [sysPageUnmap, bind_ret _ htarget]
    dsimp only
    rw [if_neg (by decide), bind_ret _ hdir, bind_ret _ (pmap_ret hremove)]
    rfl
  obtain ⟨-, hentry, -⟩ := syscall_frame Kernel.neighbours_separated Kernel.neighbours_unrelated
    (by decide) (.inl ⟨0, run⟩)
  have hdirs : k'.dirs = Kernel.neighbours.dirs := rfl
  refine ⟨k', run, ?_, (hentry utext (by decide)).trans ?_⟩
  · have hword : k'.phys.word 1 (pdx utext) = mkPte 3 (pteU ||| pteW) := by
      rw [← hpde]
      exact (Phys.word_congr _ (Phys.mem_setWord_of_ne _ _ (by decide))).trans
        (p.word_congr (congrFun (Phys.Inv.drop_mem p 5) 1))
    rw [Kernel.entryAt, hdirs, Kernel.neighbours_table rfl hword (by decide)]
    exact Phys.word_setWord_self _ _
  · have hword : p.word 2 (pdx utext) = mkPte 4 (pteU ||| pteW) := by
      rw [Kernel.neighbours_word]
      decide
    rw [Kernel.entryAt, Kernel.neighbours_table rfl hword (by decide), Kernel.neighbours_word]
    decide

end Jos
