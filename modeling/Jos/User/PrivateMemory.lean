import Jos.User.FirstFork

/-!
# Every environment has a memory of its own

The runs that begin with the first `fork` of an environment: the parent, the child and all that
they fork store to their pages and take turns on the CPUs. `CowRun` keeps the list of what they
do, and no store of one of them is ever seen by another one. A `fork`, and a store with its page
faults, is one step: nothing else runs meanwhile.
-/

namespace Jos

open Prog

variable {L : Layout} {k₀ k k₁ k' k'' : Kernel} {c d g g' n : Nat} {cur e : EnvIdx}
  {va childId : Word} {code : ForkCode} {G G' G'' : Set EnvIdx} {T : Set Word} {as : List Access}
  {v : EnvIdx → Word → Option Byte} {r : Registers}

/-! ### Runs of a family -/

/-- A step of the environments in `G`, which may get another member. That a later `fork` assigns
`_pgfault_handler` once more is a store before it. -/
inductive CowStep (code : ForkCode) :
    Set EnvIdx → Kernel → List Access → Set EnvIdx → Kernel → Prop
  /-- Other environments run, or the same ones with other registers. -/
  | switch {G : Set EnvIdx} {k k' : Kernel} (same : k.SameMaps k')
      (upcall : ∀ e ∈ G, (k'.envs e).pgfaultUpcall = (k.envs e).pgfaultUpcall) :
      CowStep code G k [] G k'
  | store {G : Set EnvIdx} {k k' : Kernel} {c d n : Nat} {e : EnvIdx} {f : PageFault} {r : Registers}
      {va : Word} {b : Byte} (member : e ∈ G) (executes : k.Executes c e d) (page : ForkPage va)
      (stack : ProgramStack r) (run : cowStore c e code f n r va b k = .ret () k') :
      CowStep code G k (k.accesses e r va b) G k'
  | fork {G : Set EnvIdx} {k k' : Kernel} {c d : Nat} {e : EnvIdx} {childId : Word} (member : e ∈ G)
      (executes : k.Executes c e d) (fits : k.LoopFits e)
      (run : fork c e false code.entry k = .ret childId k') :
      CowStep code G k [.fork e (envx childId)] (insert (envx childId) G) k'

/-- A run, with what the environments do to their memory. -/
inductive CowRun (code : ForkCode) (G : Set EnvIdx) (k : Kernel) :
    List Access → Set EnvIdx → Kernel → Prop
  | refl : CowRun code G k [] G k
  | tail {as bs : List Access} {G' G'' : Set EnvIdx} {k' k'' : Kernel}
      (run : CowRun code G k as G' k') (last : CowStep code G' k' bs G'' k'') :
      CowRun code G k (as ++ bs) G'' k''

theorem CowRun.subset (h : CowRun code G k as G' k') : G ⊆ G' := by
  induction h with
  | refl => exact Set.Subset.rfl
  | tail _ last ih =>
      cases last with
      | switch => exact ih
      | store => exact ih
      | fork => exact ih.trans (Set.subset_insert _ _)

/-- What the scheduler does is such a step. -/
theorem Dispatch.cowStep (out : Dispatch c k k') : CowStep code G k [] G k' := by
  cases out with
  | run ready pgdir =>
      rename_i e d
      have hused : k.status e ≠ .free := by
        obtain hs | ⟨-, hs⟩ := ready <;> rw [hs] <;> decide
      refine .switch ⟨Kernel.ran_phys.1, Kernel.ran_phys.2, Kernel.ran_envFreeList,
        Kernel.ran_field (f := Env.pgdir) fun _ _ _ _ => rfl,
        Kernel.ran_field (f := Env.id) fun _ _ _ _ => rfl,
        Kernel.ran_field (f := Env.parentId) fun _ _ _ _ => rfl,
        Kernel.ran_field (f := Env.link) fun _ _ _ _ => rfl, Kernel.ran_free_iff hused⟩ ?_
      exact fun e _ => Kernel.ran_field (f := Env.pgfaultUpcall) (fun _ _ _ _ => rfl) e
  | halt => exact .switch ⟨rfl, rfl, rfl, fun _ => rfl, fun _ => rfl, fun _ => rfl, fun _ => rfl,
      fun _ => Iff.rfl⟩ fun _ _ => rfl
  | monitor => exact .switch ⟨rfl, rfl, rfl, fun _ => rfl, fun _ => rfl, fun _ => rfl, fun _ => rfl,
      fun _ => Iff.rfl⟩ fun _ _ => rfl

theorem Access.runs_append (as bs : List Access) :
    Access.runs v (as ++ bs) = Access.runs (Access.runs v as) bs := List.foldl_append

/-- A store of a member is no `fork`. -/
theorem Kernel.accesses_stores (parent child : EnvIdx) {b : Byte} :
    Access.fork parent child ∉ k.accesses e r va b := by
  rw [accesses]
  split <;> simp

/-- The environments in `G` are a family, they see the memories `v`, and all of them may write at
the addresses `T`. -/
structure Private (L : Layout) (code : ForkCode) (T : Set Word) (v : EnvIdx → Word → Option Byte)
    (G : Set EnvIdx) (k : Kernel) : Prop where
  family : CowFamily L code.entry G k
  sees : k.Sees G v
  writable : ∀ e ∈ G, ∀ va ∈ T, ForkPage va → k.Writable e va
  reads : ∀ e ∈ G, code.Readable k e

namespace Private

/-- The members keep what they may do. -/
theorem of_keeps (h : Private L code T v G k) (family : CowFamily L code.entry G k')
    {v' : EnvIdx → Word → Option Byte} (sees : k'.Sees G v') (hkeeps : k.KeepsAccess G k') :
    Private L code T v' G k' :=
  ⟨family, sees, fun e he va ht hva => (hkeeps e he va hva).1 (h.writable e he va ht hva),
    fun e he i hi => ⟨(h.reads e he i hi).1,
      (hkeeps e he _ (h.reads e he i hi).1).2 (h.reads e he i hi).2⟩⟩

theorem stored {b : Byte} (h : Private L code T v G k)
    (hspec : Stored L code.entry G c e d r va b k k') :
    Private L code T (Access.runs v (k.accesses e r va b)) G k' := by
  refine h.of_keeps hspec.family (fun e' he' a ha => ?_) hspec.access
  rw [hspec.view e' a (.inr ha)]
  exact Access.runs_congr (fun _ _ => Kernel.accesses_stores _ _) (h.sees e' he' a ha)

theorem step (h : Private L code T v G k) (hup : code.entry ≠ 0)
    (step : CowStep code G k as G' k') : Private L code T (Access.runs v as) G' k' := by
  cases step with
  | switch same upcall =>
      have hframes : k'.frames = k.frames := by
        rw [Kernel.frames, same.phys, same.dirs]
        rfl
      refine h.of_keeps (h.family.sameMaps same upcall) (fun e he va hva => ?_) (.of_pte same.pte)
      rw [Kernel.viewAt_eq, hframes, ← Kernel.viewAt_eq]
      exact h.sees e he va hva
  | store member executes page stack run =>
      exact h.stored (h.family.cowStore_ret member executes hup stack (h.reads _ member) page run)
  | fork member executes fits run =>
      rename_i e childId
      obtain ⟨-, g, g', hforked⟩ := Forked.of_run (h.family.inUser member executes) h.family.slots
        fits run
      have used := h.family.used e member
      have hinsert : insert e G = G := Set.insert_eq_of_mem member
      have hold : ∀ e ∈ G, e ≠ envx childId := by
        rintro e he rfl
        exact h.family.used _ he hforked.new
      have handles := h.family.handles member
      have hkeeps : k.KeepsAccess G k' := hforked.keepsAccess hold
      have hsees := h.sees
      have hfamily := hforked.cowFamily h.family used (h.family.ids e member) fun _ => handles
      rw [← hinsert] at hsees
      have hsees' := hforked.sees h.family used (fun _ => handles) hsees
      rw [hinsert] at hfamily hsees'
      refine ⟨hfamily, hsees', fun e' he' va ht hva => ?_, fun e' he' i hi => ?_⟩
      · obtain rfl | he' := Set.mem_insert_iff.mp he'
        · exact (hforked.childAccess hva).1 (h.writable e member va ht hva)
        · exact (hkeeps e' he' va hva).1 (h.writable e' he' va ht hva)
      · obtain rfl | he' := Set.mem_insert_iff.mp he'
        · obtain ⟨hpage, hread⟩ := h.reads e member i hi
          exact ⟨hpage, (hforked.childAccess hpage).2 hread⟩
        · obtain ⟨hpage, hread⟩ := h.reads e' he' i hi
          exact ⟨hpage, (hkeeps e' he' _ hpage).2 hread⟩

theorem run (h : Private L code T v G k) (hup : code.entry ≠ 0)
    (run : CowRun code G k as G' k') : Private L code T (Access.runs v as) G' k' := by
  induction run with
  | refl => exact h
  | tail _ last ih =>
      rw [Access.runs_append]
      exact ih.step hup last

/-- After the first `fork` the memories of the parent and the child are that of the parent before. -/
theorem start (h : InUser L c cur d k) (slots : k.SlotsFree) (handles : k.Handles code.entry cur)
    (reads : code.Readable k cur) (hforked : Forked L k cur false code.entry childId g g' k') :
    Private L code {va | k.Writable cur va} (fun _ => k.viewAt cur) {envx childId, cur} k' := by
  have hempty : CowFamily L code.entry ∅ k :=
    ⟨h.mem, slots, fun _ he => he.elim, fun _ he => he.elim, fun _ he => he.elim,
      fun _ he => he.elim, fun _ he => he.elim, fun _ he => he.elim⟩
  have hfamily := hforked.cowFamily hempty h.used h.id fun _ => handles
  have hstart : k.Sees (insert cur ∅) (fun _ => k.viewAt cur) := by
    rintro e he va -
    obtain rfl | he := Set.mem_insert_iff.mp he
    · rfl
    · exact he.elim
  have hsees := hforked.sees hempty h.used (fun _ => handles) hstart
  have hsame : (Access.fork cur (envx childId)).run (fun _ => k.viewAt cur) =
      fun _ => k.viewAt cur := Function.update_eq_self_iff.mpr rfl
  rw [hsame] at hsees
  rw [insert_empty_eq] at hfamily hsees
  have hkeeps : k.KeepsAccess {cur} k' := hforked.keepsAccess fun e he => by
    rw [Set.mem_singleton_iff.mp he]
    exact hforked.hasChild.ne.symm
  have haccess : ∀ e ∈ ({envx childId, cur} : Set EnvIdx), ∀ va, ForkPage va →
      (k.Writable cur va → k'.Writable e va) ∧ (k.MayRead cur va → k'.MayRead e va) := by
    intro e he va hva
    obtain rfl | he := Set.mem_insert_iff.mp he
    · exact hforked.childAccess hva
    · rw [Set.mem_singleton_iff.mp he]
      exact hkeeps cur (Set.mem_singleton cur) va hva
  exact ⟨hfamily, hsees, fun e he va hw hva => (haccess e he va hva).1 hw,
    fun e he i hi => ⟨(reads i hi).1, (haccess e he _ (reads i hi).1).2 (reads i hi).2⟩⟩

/-- A load of a member returns what it sees. -/
theorem load (h : Private L code T v G k) (he : e ∈ G) (hx : k.Executes c e d)
    (hva : ForkPage va) {b : Byte} (run : Jos.load c va k = .ret b k') : v e va = some b := by
  have hu := h.family.inUser he hx
  have hread : ∃ f, k.phys.UserPage d va f false := by
    by_contra hno
    have hdenied : ¬ k.phys.Readable d va := by
      rintro ⟨pde, pte, walk, hpde, hpte⟩
      exact hno ⟨_, pde, pte, walk, rfl, hpde, hpte, fun hw => absurd hw (by decide)⟩
    rw [load_fault hu.cr3 hdenied] at run
    cases run
  obtain ⟨f, hf⟩ := hread
  have hpage := ((hu.userPage_iff (forkPage_utop hva)).mp hf).1
  rw [load_page hu.cr3 hf] at run
  cases run
  rw [← h.sees e he va hva, Kernel.viewAt, hpage]
  rfl

/-- A store that has what it needs. -/
theorem stores (h : Private L code T v G k) (hup : code.entry ≠ 0) (he : e ∈ G)
    (hx : k.Executes c e d) (stack : ProgramStack r) (hva : ForkPage va)
    (able : code.Able n r k e va) (f : PageFault) (b : Byte) :
    ∃ k', cowStore c e code f n r va b k = .ret () k' ∧
      Stored L code.entry G c e d r va b k k' := by
  have hspec := h.family.cowStore_spec (f := f) (n := n) he hx hup stack (h.reads e he) hva b
  cases hrun : cowStore c e code f n r va b k with
  | ret u k' =>
      rw [wp_ret hrun] at hspec
      exact ⟨k', rfl, hspec⟩
  | exit why k' =>
      rw [wp_exit_eq hrun] at hspec
      exact absurd able hspec
  | panic why =>
      rw [wp_panic_eq hrun] at hspec
      exact hspec.elim

end Private

/-- The family of the parent and the first child. -/
theorem FirstFork.private (first : FirstFork code c cur k₀ k childId k₁) (h : InUser L c cur d k₀)
    (slots : k₀.SlotsFree) (fits : k₀.LoopFits cur) (program : code.InProgram) :
    InUser L c cur d k ∧ HandlerSet L code cur k₀ k ∧
      (∃ g g', Forked L k cur false code.entry childId g g' k₁) ∧
      Private L code {va | k.Writable cur va} (fun _ => k.viewAt cur) {envx childId, cur} k₁ := by
  obtain ⟨hu, hset⟩ := h.handlerSet slots fits program first.set
  obtain ⟨-, g, g', hforked⟩ := Forked.of_run hu hset.slots hset.fits first.run
  exact ⟨hu, hset, ⟨g, g', hforked⟩, .start hu hset.slots hset.handles hset.readable hforked⟩

/-- An upcall, a handler and a variable in the page of `intProgram`. -/
def intCode : ForkCode where
  entry := 0x800020
  next := 0x800040
  handler := 0x800100
  pgfault := 0x800060

/-- The registers when the stack is empty. -/
def topRegisters : Registers := ⟨fun _ => ustacktop, 0x800080, 0⟩

theorem forkPage_program {va : Word} (h : va.toNat / 4096 = 2048) : ForkPage va := by
  rw [forkPage_iff]
  omega

theorem topRegisters_stack : ProgramStack topRegisters := by
  have htop : (topRegisters.regs .esp).toNat = 4005552128 := by decide
  exact ⟨by omega, by omega⟩

/-- The pages of the first environment. -/
theorem FirstRuns.entry (h : FirstRuns d k) {i j : Idx}
    (hij : pageNumber i j = 2048 ∨ pageNumber i j = stackPage) :
    (∃ f, k.phys.target k.dirs (.pte 0 i j) = some f) ∧ UserPte (k.pte 0 i j) true := by
  obtain ⟨f, hf, hentry, -⟩ := h.mapped i j hij
  have hentry' : k.pte 0 i j = mkPte f (pteU ||| pteW) := hentry
  have hword : mkPte f (pteU ||| pteW) &&& pteU ≠ 0 ∧ mkPte f (pteU ||| pteW) &&& pteW ≠ 0 := by
    rw [mkPte_and f _ (by decide), mkPte_and f _ (by decide)]
    decide
  refine ⟨⟨f, ?_⟩, ?_⟩
  · exact (congrArg entryFrame hentry').trans (entryFrame_mkPte hf (by decide))
  · rw [hentry']
    exact ⟨hword.1, fun _ => hword.2⟩

theorem FirstRuns.page (h : FirstRuns d k) {va : Word}
    (hva : va.toNat / 4096 = 2048 ∨ va.toNat / 4096 = stackPage) :
    (∃ f, k.pageAt 0 va = some f) ∧ UserPte (k.entryAt 0 va) true := by
  refine h.entry ?_
  rwa [pageNumber_va]

theorem Forked.executes {first : Bool} {handler : Word}
    (h : Forked L k cur first handler childId g g' k') (hx : k.Executes c cur d) :
    k'.Executes c cur d := by
  have hne : cur ≠ envx childId := h.hasChild.ne.symm
  refine ⟨fun c' => ?_, by rw [h.cpus, hx.cpu], by rw [h.status cur hne, hx.running], ?_⟩
  · rw [Kernel.mode, h.cpus]
    exact hx.unlocked c'
  · exact (h.dirs cur hne).trans hx.pgdir

theorem intCode_inProgram : intCode.InProgram := by
  intro i hi
  refine forkPage_program ?_
  rw [BitVec.toNat_add, BitVec.toNat_ofNat, show intCode.handler.toNat = 8388864 from rfl]
  omega

theorem topRegisters_below {i : Nat} (hi : i < 4) :
    (topRegisters.regs .esp - 4 + BitVec.ofNat 32 i).toNat / 4096 = stackPage := by
  rw [BitVec.toNat_add, BitVec.toNat_ofNat,
    show (topRegisters.regs .esp - 4 : Word).toNat = 4005552124 from by decide, stackPage]
  omega

theorem Forked.not_inPlace {first : Bool} {handler : Word}
    (h : Forked L k cur first handler childId g g' k') (hva : ForkPage va) :
    ¬ k'.WritesInPlace cur va := by
  rintro ⟨hp, hw⟩
  by_cases hold : k.pte cur (pdx va) (ptx va) &&& pteP ≠ 0
  · have hentry : k'.entryAt cur va = parentPte (k.entryAt cur va) := (h.shared _ _ hva hold).1
    rw [hentry] at hw
    exact hw sharedPte_readonly.1
  · have hentry : k'.entryAt cur va = k.entryAt cur va :=
      h.rest _ _ _ h.hasChild.ne.symm (fun hs => hold hs.2.2)
        (fun hs => stack_not_inLoop (by rw [← hs.2.1, ← hs.2.2.1]; exact hva))
        fun ht => temp_not_inLoop (by rw [← ht.2.1, ← ht.2.2]; exact hva)
    rw [hentry] at hp
    exact hold hp

/-- It can call `set_pgfault_handler`. -/
theorem FirstRuns.setsHandler (h : FirstRuns d k) (hmem : MemInv L k) : ∃ k', (do
    setPgfaultHandler 0 true intCode.entry
    storeWord 0 intCode.handler intCode.pgfault) k = .ret () k' := by
  have hdata : ∀ i < 4, (intCode.handler + BitVec.ofNat 32 i).toNat / 4096 = 2048 := by
    intro i hi
    rw [BitVec.toNat_add, BitVec.toNat_ofNat, show intCode.handler.toNat = 8388864 from rfl]
    omega
  exact (h.inUser hmem).setsHandler intCode_inProgram (fun i hi => (h.page (.inl (hdata i hi))).1)
    (fun i hi => (h.page (.inl (hdata i hi))).2) (h.free.mono (by omega))

/-- Then it can fork. -/
theorem FirstRuns.forkable_set (h : FirstRuns d k) (hset : HandlerSet L intCode 0 k k') :
    k'.Forkable 0 false := by
  have hcount := h.loopCount
  exact hset.forkable (h.free.mono (by omega)) (by rw [h.slots]; simp)

/-- The first environment has its handler. It can write to its two pages, and can fork so that nine
pages remain. -/
structure QemuReady (L : Layout) (d : Nat) (k : Kernel) : Prop where
  inUser : InUser L 0 0 d k
  slots : k.SlotsFree
  fits : k.LoopFits 0
  handles : k.Handles intCode.entry 0
  readable : intCode.Readable k 0
  isSet : intCode.IsSet k 0
  executes : k.Executes 0 0 d
  writable : ∀ va : Word, va.toNat / 4096 = 2048 ∨ va.toNat / 4096 = stackPage →
    (∃ f, k.pageAt 0 va = some f) ∧ UserPte (k.entryAt 0 va) true
  slot : k.envFreeList ≠ none
  room : k.phys.FreePages (9 + 2 * k.loopCount 0 loopPages + 6)

/-- It has forked. -/
structure QemuChild (L : Layout) (d : Nat) (k : Kernel) (childId : Word) (k₁ : Kernel) : Prop where
  ready : QemuReady L d k
  run : fork 0 0 false intCode.entry k = .ret childId k₁
  executes : k₁.Executes 0 0 d
  new : (0 : EnvIdx) ≠ envx childId
  inPlace : ∀ va, ForkPage va → ¬ k₁.WritesInPlace 0 va
  family : Private L intCode {va | k.Writable 0 va} (fun _ => k.viewAt 0) {envx childId, 0} k₁
  room : k₁.phys.FreePages 9

theorem FirstRuns.ready (h : FirstRuns d k₀) (hmem : MemInv L k₀) (slots : k₀.SlotsFree)
    (run : (do
      setPgfaultHandler 0 true intCode.entry
      storeWord 0 intCode.handler intCode.pgfault) k₀ = .ret () k) : QemuReady L d k := by
  obtain ⟨hu, hset⟩ := (h.inUser hmem).handlerSet slots h.loopFits intCode_inProgram run
  have hcount := h.loopCount
  refine ⟨hu, hset.slots, hset.fits, hset.handles, hset.readable, hset.isSet, ?_, fun va hva => ?_,
    ?_, hset.room _ (h.free.mono ?_)⟩
  · refine ⟨fun c => ?_, by rw [hset.cpus, h.executes.cpu],
      by rw [hset.status, h.executes.running], hu.dir⟩
    rw [Kernel.mode, hset.cpus]
    exact h.executes.unlocked c
  · have hpage : ForkPage va := by
      rw [forkPage_iff]
      rw [stackPage] at hva
      omega
    have hentry : k.entryAt 0 va = k₀.entryAt 0 va := hset.pte _ _ hpage
    have hpageAt : k.pageAt 0 va = k₀.pageAt 0 va := congrArg entryFrame hentry
    rw [hpageAt, hentry]
    exact h.page hva
  · rw [hset.envFreeList, h.slots]
    simp
  · rw [Kernel.loopCount_congr hset.pte]
    omega

namespace QemuReady

variable (h : QemuReady L d k)

include h

theorem forks : ∃ childId k₁, QemuChild L d k childId k₁ := by
  have able : k.Forkable 0 false := ⟨h.room.mono (by omega), h.slot, .inr h.handles.stack⟩
  obtain ⟨childId, k₁, hfork, g, g', hforked⟩ :=
    able.returns h.inUser h.slots h.fits intCode.entry
  exact ⟨childId, k₁, h, hfork, hforked.executes h.executes, hforked.hasChild.ne.symm,
    fun va => hforked.not_inPlace, .start h.inUser h.slots h.handles h.readable hforked,
    hforked.free 9 h.room⟩

end QemuReady

namespace QemuChild

variable (h : QemuChild L d k childId k₁)

include h

theorem same (hva : ForkPage va) :
    k₁.viewAt 0 va = k.viewAt 0 va ∧ k₁.viewAt (envx childId) va = k.viewAt 0 va :=
  ⟨h.family.sees 0 (Set.mem_insert_of_mem _ rfl) va hva,
    h.family.sees _ (Set.mem_insert _ _) va hva⟩

theorem isSet : intCode.IsSet k₁ 0 := fun i hi =>
  ((h.same (intCode_inProgram i hi)).1).trans (h.ready.isSet i hi)

theorem writable {va : Word} (hva : va.toNat / 4096 = 2048 ∨ va.toNat / 4096 = stackPage) :
    k.Writable 0 va := by
  obtain ⟨⟨f, hf⟩, huser⟩ := h.ready.writable va hva
  exact ⟨Kernel.entry_present hf, .inl (huser.2 rfl)⟩

/-- The parent stores a byte, with two page faults on the way. -/
theorem stores (top : r.regs .esp = ustacktop) : ∃ k', CowRun intCode {envx childId, 0} k₁
    [.upcall 0 (ustacktop - 4) r.eip, .store 0 0x800000 7] {envx childId, 0} k' := by
  have hmember : (0 : EnvIdx) ∈ ({envx childId, 0} : Set EnvIdx) := Set.mem_insert_of_mem _ rfl
  have hpage : ForkPage 0x800000 := forkPage_program rfl
  have hstack : ProgramStack r :=
    ⟨by rw [top]; exact topRegisters_stack.low, by rw [top]; exact topRegisters_stack.high⟩
  have hbelow : ∀ i < 4, (r.regs .esp - 4 + BitVec.ofNat 32 i).toNat / 4096 = stackPage := by
    rw [top]
    exact fun i hi => topRegisters_below hi
  have able : intCode.Able 2 r k₁ 0 0x800000 :=
    ⟨Nat.le_refl 2, h.room, h.family.writable 0 hmember _ (h.writable (.inl rfl)) hpage,
      fun i hi => h.family.writable 0 hmember _ (h.writable (.inr (hbelow i hi))) (hstack.page hi),
      h.isSet⟩
  obtain ⟨k', hstore, -⟩ := h.family.stores (by decide) hmember h.executes hstack hpage
    able ⟨0, 2, 0⟩ 7
  have hlabel : k₁.accesses 0 r 0x800000 7 =
      [.upcall 0 (ustacktop - 4) r.eip, .store 0 0x800000 7] := by
    rw [Kernel.accesses, if_neg (h.inPlace _ hpage), top]
  refine ⟨k', ?_⟩
  rw [← hlabel]
  exact .tail .refl (.store hmember h.executes hpage hstack hstore)

end QemuChild

end Jos
