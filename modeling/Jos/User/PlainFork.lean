import Jos.User.Dumbfork

/-!
# `fork` does what `dumbfork` does

After `dumbfork` parent and child have pages of their own, and a store changes one of them. So
nobody can tell from the contents of the pages which of the two made the child.
-/

namespace Jos

open Prog Dumbfork

variable {L : Layout} {k₀ k k₁ k₂ k' k'' : Kernel} {c d f : Nat} {cur e : EnvIdx} {i j : Idx}
  {va childId childId' endAddr addr : Word} {T : Set (Idx × Idx)} {G G' : Set EnvIdx}
  {v : EnvIdx → Word → Option Byte} {as : List Access} {code : ForkCode}

/-- The page at an address. -/
def pageOf (va : Word) : Idx × Idx := (pdx va, ptx va)

/-- The child has copies of the pages `T`, and nothing else has changed, apart from the page that
the parent may have had at `UTEMP`. -/
structure CopiesPages (k : Kernel) (cur child : EnvIdx) (T : Set (Idx × Idx)) (k' : Kernel) :
    Prop where
  contents : ∀ va, pageOf va ∈ T → k'.viewAt child va = k.viewAt cur va
  writable : ∀ va, pageOf va ∈ T → UserPte (k'.entryAt child va) true
  own : ∀ x ∈ T, k'.frames.Sole (child, x)
  nothing : ∀ va, pageOf va ∉ T → k'.pageAt child va = none
  temp : k'.pageAt cur utemp = none
  others : ∀ e, e ≠ child → ∀ va, (e, pageOf va) ≠ (cur, pageOf utemp) →
    k'.entryAt e va = k.entryAt e va ∧ k'.viewAt e va = k.viewAt e va

namespace Dumbfork.Made

theorem copiesPages (h : Made L k cur endAddr addr childId k') :
    CopiesPages k cur (envx childId) (CopiedPages endAddr addr) k' := by
  have hnone : entryFrame 0 = none := entryFrame_zero
  refine ⟨fun va hva => Kernel.viewAt_congr (h.view _ hva), fun va hva => ?_,
    fun x hx => h.shares.sole_new (copySource_new hx), fun va hva => ?_, ?_, fun e he va hne => ?_⟩
  · obtain ⟨g, -, hentry⟩ := h.own _ hva
    have hentry' : k'.entryAt (envx childId) va = mkPte g stackPerm := hentry
    rw [hentry']
    exact stackPerm_user g
  · exact (congrArg entryFrame (h.bare _ hva)).trans hnone
  · exact (congrArg entryFrame h.temp).trans hnone
  · obtain ⟨hpte, hview⟩ := h.rest (e, pageOf va) he hne
    exact ⟨hpte, Kernel.viewAt_congr hview⟩

end Dumbfork.Made

theorem Dumbfork.Made.executes (h : Made L k cur endAddr addr childId k')
    (hx : k.Executes c cur d) : k'.Executes c cur d := by
  have hcur := h.envs cur h.ne.symm
  refine ⟨fun c' => ?_, by rw [h.cpus, hx.cpu], by rw [Kernel.status, hcur, ← hx.running]; rfl, ?_⟩
  · rw [Kernel.mode, h.cpus]
    exact hx.unlocked c'
  · rw [hcur, hx.pgdir]

/-- Given the pages and the slot, `dumbfork` returns a runnable child with copies of the pages. -/
theorem dumbfork_copies_pages (h : InUser L c cur d k) (slots : k.SlotsFree)
    (placed : Placed endAddr addr) (able : Able k cur endAddr addr) :
    ∃ childId k', dumbfork c cur endAddr addr k = .ret childId k' ∧
      k.status (envx childId) = .free ∧ k'.status (envx childId) = .runnable ∧
      CopiesPages k cur (envx childId) (CopiedPages endAddr addr) k' := by
  obtain ⟨childId, k', hrun, hmade⟩ := able.returns h slots placed
  exact ⟨childId, k', hrun, hmade.new, hmade.runnable, hmade.copiesPages⟩

theorem placed_first : Placed 0x801000 0xEEBFDF00 := by
  refine ⟨?_, by decide, by decide⟩
  rw [loopPages, pgnum_utext, pgnum_uxstack]
  decide

/-- The first environment can read the page of its program and its stack. -/
theorem FirstRuns.dumbforkable (h : FirstRuns d k) : Able k 0 0x801000 0xEEBFDF00 := by
  refine ⟨h.free.mono (by decide), by rw [h.slots]; simp, fun i j hij => ?_⟩
  have hpage : pageNumber i j = 2048 ∨ pageNumber i j = stackPage := by
    obtain heq | hin := hij
    · obtain ⟨rfl, rfl⟩ := Prod.mk.inj heq
      exact .inr (by decide)
    · have hone : programPages 0x801000 = 1 := by decide
      have hlow : 2048 ≤ pageNumber i j := hin.1
      have hlast : pageNumber i j < 2048 + programPages 0x801000 := hin.2
      exact .inl (by omega)
  obtain ⟨hf, huser⟩ := h.entry hpage
  exact ⟨hf, huser.1, fun hno => absurd hno (by decide)⟩

theorem dumbfork_copies_pages_first : ∃ k₀ k childId k', Booted qemu [intProgram] k₀ ∧
    Run SafeStep k₀ k ∧ dumbfork 0 0 0x801000 0xEEBFDF00 k = .ret childId k' ∧
    k.status (envx childId) = .free ∧ k'.status (envx childId) = .runnable ∧
    CopiesPages k 0 (envx childId) (CopiedPages 0x801000 0xEEBFDF00) k' := by
  obtain ⟨k₀, k, d, L, hbooted, hrun, hruns, hmem, slots⟩ := qemu_first
  obtain ⟨childId, k', hres⟩ := dumbfork_copies_pages (hruns.inUser hmem) slots placed_first
    hruns.dumbforkable
  exact ⟨k₀, k, childId, k', hbooted, hrun, hres⟩

/-! ### Stores to pages of their own -/

/-- A step of the environments in `G`, which handle no page faults and store to the pages `T`. -/
inductive PlainStep (T : Set (Idx × Idx)) (G : Set EnvIdx) :
    Kernel → List Access → Kernel → Prop
  | switch {k k' : Kernel} (same : k.SameMaps k') : PlainStep T G k [] k'
  | store {k k' : Kernel} {c d : Nat} {e : EnvIdx} {va : Word} {b : Byte} (member : e ∈ G)
      (executes : k.Executes c e d) (page : pageOf va ∈ T) (run : store c va b k = .ret () k') :
      PlainStep T G k [.store e va b] k'

/-- A run, with what the environments do to their memory. -/
inductive PlainRun (T : Set (Idx × Idx)) (G : Set EnvIdx) (k : Kernel) :
    List Access → Kernel → Prop
  | refl : PlainRun T G k [] k
  | tail {as bs : List Access} {k' k'' : Kernel} (run : PlainRun T G k as k')
      (last : PlainStep T G k' bs k'') : PlainRun T G k (as ++ bs) k''

theorem PlainRun.stores (h : PlainRun T G k as k') :
    ∀ a ∈ as, ∃ e va b, a = Access.store e va b := by
  induction h with
  | refl => exact fun a ha => absurd ha List.not_mem_nil
  | tail _ last ih =>
      intro a ha
      obtain ha | ha := List.mem_append.mp ha
      · exact ih a ha
      · cases last with
        | switch => exact absurd ha List.not_mem_nil
        | store => exact ⟨_, _, _, List.mem_singleton.mp ha⟩

/-- The environments in `G` share none of the pages `T`, and see the memories `v` there. -/
structure Plain (L : Layout) (T : Set (Idx × Idx)) (v : EnvIdx → Word → Option Byte)
    (G : Set EnvIdx) (k : Kernel) : Prop where
  mem : MemInv L k
  used : ∀ e ∈ G, k.status e ≠ .free
  ids : ∀ e ∈ G, envx (k.envs e).id = e
  below : ∀ x ∈ T, x.1.val < userPdes
  apart : k.frames.Apart {x | x.1 ∈ G ∧ x.2 ∈ T}
  sees : ∀ e ∈ G, ∀ va, pageOf va ∈ T → k.viewAt e va = v e va

namespace Plain

theorem step (h : Plain L T v G k) (step : PlainStep T G k as k') :
    Plain L T (Access.runs v as) G k' := by
  cases step with
  | switch same =>
      have hframes : k'.frames = k.frames := by
        rw [Kernel.frames, same.phys, same.dirs]
        rfl
      refine ⟨same.memInv h.mem, fun e he hf => h.used e he ((same.free e).mp hf), fun e he => ?_,
        h.below, by rw [hframes]; exact h.apart, fun e he va hva => ?_⟩
      · rw [same.id, h.ids e he]
      · have hview : k'.viewAt e va = k.viewAt e va := by
          rw [Kernel.viewAt_eq, hframes, ← Kernel.viewAt_eq]
        exact hview.trans (h.sees e he va hva)
  | store member executes page run =>
      rename_i c d e va b
      have hutop : va < utop := (pdx_lt_iff va).mp (h.below _ page)
      have hu : InUser L c e d k :=
        ⟨h.mem, h.used e member, executes.pgdir, congrArg Cpu.cr3 executes.cpu, h.ids e member⟩
      obtain ⟨f, hf, -, hk'⟩ := hu.store_ret hutop run
      obtain ⟨hmem, hwrites, hpte⟩ := h.mem.setPage_writes hf
        (Function.update (k.phys.mem f) (pgoff va) b)
      have hbyte : k.phys.setByte f (pgoff va) b =
        k.phys.setPage f (Function.update (k.phys.mem f) (pgoff va) b) := rfl
      rw [← hbyte, ← hk'] at hmem hwrites hpte
      have hbytes : k'.phys.mem f = Function.update (k.phys.mem f) (pgoff va) b := by
        rw [hk']
        exact Function.update_self _ _ _
      refine ⟨hmem, fun e' he' => ?_, fun e' he' => ?_, h.below, ?_, fun e' he' a ha => ?_⟩
      · rw [hk']
        exact h.used e' he'
      · rw [hk']
        exact h.ids e' he'
      · rw [Frames.Apart, hwrites.frame]
        exact h.apart
      · rw [Kernel.viewAt_stored hf hwrites.frame hbytes fun hne => Kernel.viewAt_congr
          (hwrites.view_of_apart h.apart ⟨member, page⟩ ⟨he', ha⟩ hne)]
        exact Access.run_congr (fun _ _ hno => by simp at hno) (h.sees e' he' a ha)

theorem run (h : Plain L T v G k) (run : PlainRun T G k as k') :
    Plain L T (Access.runs v as) G k' := by
  induction run with
  | refl => exact h
  | tail _ last ih =>
      rw [Access.runs_append]
      exact ih.step last

/-- After `dumbfork` the memories are those of the parent before. -/
theorem start (h : InUser L c cur d k) (placed : Placed endAddr addr)
    (hmade : Made L k cur endAddr addr childId k') (hT : T ⊆ CopiedPages endAddr addr)
    (apart : k.frames.Apart {x | x.1 = cur ∧ x.2 ∈ T}) :
    Plain L T (fun _ => k.viewAt cur) {envx childId, cur} k' := by
  have hpages := hmade.copiesPages
  have htemp : ∀ x ∈ T, (cur, x) ≠ (cur, pageOf utemp) := by
    rintro x hx heq
    obtain ⟨-, rfl⟩ := Prod.mk.inj heq
    exact placed.temp_not_copied (hT hx)
  have hrest : ∀ x ∈ T, k'.frames.frame (cur, x) = k.frames.frame (cur, x) := fun x hx =>
    congrArg entryFrame (hmade.rest (cur, x) hmade.ne.symm (htemp x hx)).1
  refine ⟨hmade.mem, fun e he => ?_, fun e he => ?_, fun x hx => placed.below (hT hx), ?_,
    fun e he va hva => ?_⟩
  · obtain rfl | rfl := he
    · rw [hmade.runnable]
      decide
    · rw [Kernel.status, hmade.envs _ hmade.ne.symm]
      exact h.used
  · obtain rfl | rfl := he
    · rw [hmade.id]
    · rw [hmade.envs _ hmade.ne.symm, h.id]
  · -- the pages of the child are its own, and those of the parent are as before
    rintro ⟨e, x⟩ ⟨he, hx⟩ ⟨e', y⟩ ⟨he', hy⟩ p hp hp'
    obtain rfl | rfl := he
    · exact hpages.own x (hT hx) p _ hp hp'
    obtain rfl | rfl := he'
    · exact (hpages.own y (hT hy) p _ hp' hp).symm
    · rw [hrest x hx] at hp
      rw [hrest y hy] at hp'
      exact apart _ ⟨rfl, hx⟩ _ ⟨rfl, hy⟩ p hp hp'
  · obtain rfl | rfl := he
    · exact hpages.contents va (hT hva)
    · exact (hpages.others _ hmade.ne.symm va (htemp _ hva)).2

end Plain

/-! ### The same stores after a `fork` -/

end Jos
