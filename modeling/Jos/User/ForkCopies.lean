import Jos.User.EagerCopy

/-!
# What the parent and the child read

`fork` in any state in which no page that can be written is mapped twice; copy-on-write pages of
earlier forks may be. Whatever the parent stores during the `fork`, and whatever the two do later,
each reads its own last write, or the byte that the page held when the loop came to it.
-/

namespace Jos

open Prog

variable {L : Layout} {k k' k₀ k₁ : Kernel} {c c' d : Nat} {cur e : EnvIdx} {va childId : Word}
  {code : ForkCode} {G G' : Set EnvIdx} {T : Set Word} {v v₀ : EnvIdx → Word → Option Byte}
  {es : List ForkAct} {as : List Access}

/-! ### Before the `fork` -/

/-- A page that some environment may write has no other mapping. -/
def Kernel.WritersAlone (k : Kernel) : Prop :=
  ∀ e i j, k.pte e i j &&& pteW ≠ 0 → k.frames.Sole (e, i, j)

/-- What the environment may write, now or with a page fault, is a page of user mode. -/
def Kernel.WritesUserPages (k : Kernel) (cur : EnvIdx) : Prop :=
  ∀ i j, InLoop loopPages i j → k.pte cur i j &&& pteP ≠ 0 →
    k.pte cur i j &&& pteW ≠ 0 ∨ k.pte cur i j &&& pteCow ≠ 0 → k.pte cur i j &&& pteU ≠ 0

/-- The environment has what it has on its pages, and there are no others. -/
def Kernel.memory (k : Kernel) (cur : EnvIdx) : EnvIdx → Word → Option Byte :=
  Function.update (fun _ _ => none) cur (k.viewAt cur)

/-- `set_pgfault_handler(pgfault)`. That a later `fork` assigns `_pgfault_handler` once more is a
store of the environment. -/
inductive PgfaultSet (code : ForkCode) (c : Nat) (cur : EnvIdx) (k₀ : Kernel) : Kernel → Prop
  | first {k : Kernel} (run : (do
      setPgfaultHandler cur true code.entry
      storeWord c code.handler code.pgfault) k₀ = .ret () k) : PgfaultSet code c cur k₀ k
  | later (upcall : (k₀.envs cur).pgfaultUpcall = code.entry) (stack : k₀.StackWritable cur)
      (reads : code.Readable k₀ cur) : PgfaultSet code c cur k₀ k₀

theorem Kernel.WritersAlone.sole (h : k.WritersAlone) {i j : Idx} (hplace : k.InPlace e i j)
    (stack : k.StackWritable e) : k.frames.Sole (e, i, j) := by
  obtain ⟨-, hw⟩ | ⟨rfl, rfl⟩ := hplace
  · exact h e i j hw
  · exact h e _ _ (stack.2.2 rfl)

/-- A page of the loop that had no other mapping has none: the page of the exception stack is new. -/
theorem HandlerSet.sole_loop {i j : Idx} (h : HandlerSet L code cur k₀ k) (hin : InLoop loopPages i j)
    (hsole : k₀.frames.Sole (cur, i, j)) : k.frames.Sole (cur, i, j) := by
  have hold : ∀ {e i j}, ¬ (e = cur ∧ i = stackPde ∧ j = stackPte) →
      k.frames.frame (e, i, j) = k₀.frames.frame (e, i, j) := fun hne =>
    congrArg entryFrame (h.rest _ _ _ hne)
  rintro f ⟨e', i', j'⟩ hx hy
  by_cases hstack : e' = cur ∧ i' = stackPde ∧ j' = stackPte
  · obtain ⟨rfl, rfl, rfl⟩ := hstack
    exact (h.handles.sole f (e', i, j) hy hx).symm
  · rw [hold fun hs => stack_not_inLoop (hs.2.1 ▸ hs.2.2 ▸ hin)] at hx
    rw [hold hstack] at hy
    exact hsole f (e', i', j') hx hy

/-- The parent has its handler, and sees its memory. -/
theorem PgfaultSet.solo (set : PgfaultSet code c cur k₀ k) (h : InUser L c cur d k₀)
    (slots : k₀.SlotsFree) (fits : k₀.LoopFits cur) (alone : k₀.WritersAlone)
    (user : k₀.WritesUserPages cur) (program : code.InProgram) :
    Solo L code c cur d (k.memory cur) k ∧ k.FitsFrom cur 0 := by
  have hsees : ∀ va, ForkPage va → k.viewAt cur va = k.memory cur cur va := fun va _ => by
    rw [Kernel.memory, Function.update_self]
  cases set with
  | first run =>
      obtain ⟨hu, hset⟩ := h.handlerSet slots fits program run
      refine ⟨⟨⟨hu.mem, hset.slots, ?_, ?_, ?_, ?_, ?_, ?_⟩, hu, hset.readable, hsees⟩,
        hset.fits.fitsFrom⟩
      all_goals
        intro e he
        obtain rfl := Set.mem_singleton_iff.mp he
      · exact hu.used
      · exact hu.id
      · exact hset.handles.upcall
      · exact hset.handles.stack
      · intro i j hin hp hw
        rw [hset.pte i j hin] at hp hw ⊢
        exact user i j hin hp hw
      · intro i j hplace
        obtain ⟨hin, hw⟩ | ⟨rfl, rfl⟩ := hplace
        · rw [hset.pte i j hin] at hw
          exact hset.sole_loop hin (alone e i j hw)
        · exact hset.handles.sole
  | later upcall stack reads =>
      refine ⟨⟨⟨h.mem, slots, ?_, ?_, ?_, ?_, ?_, ?_⟩, h, reads, hsees⟩, fits.fitsFrom⟩
      all_goals
        intro e he
        obtain rfl := Set.mem_singleton_iff.mp he
      · exact h.used
      · exact h.id
      · exact upcall
      · exact stack
      · exact user
      · exact fun i j hplace => alone.sole hplace stack

/-! ### After the `fork` -/

/-- A child of a member is no member yet. -/
theorem Private.forks_new (h : Private L code T v G k) (hup : code.entry ≠ 0)
    (run : CowRun code G k as G' k') (parent child : EnvIdx) (hmem : Access.fork parent child ∈ as) :
    child ∉ G := by
  induction run with
  | refl => simp at hmem
  | tail run last ih =>
      obtain hmem | hmem := List.mem_append.mp hmem
      · exact ih hmem
      · cases last with
        | switch => simp at hmem
        | store => exact absurd hmem (Kernel.accesses_stores _ _)
        | fork member executes fits hrun =>
            obtain ⟨-, rfl⟩ := Access.fork.inj (List.mem_singleton.mp hmem)
            have family := (h.run hup run).family
            obtain ⟨-, g, g', hforked⟩ := Forked.of_run (family.inUser member executes)
              family.slots fits hrun
            exact fun he => family.used _ (run.subset he) hforked.new

/-- What the parent and the child of a `fork` see in `k`, if `es` has happened during the `fork` and
`as` after it. The memories before were `v₀`. -/
structure ForkCopied (cur child : EnvIdx) (v₀ : EnvIdx → Word → Option Byte) (es : List ForkAct)
    (as : List Access) (k : Kernel) : Prop where
  /-- As if each page were copied when the loop comes to it. -/
  eager : k.Sees {child, cur} (Access.runs (ForkAct.runs v₀ es) as)
  /-- The loop comes to each page, and `held` is what it holds then. -/
  reads : ∀ va, ForkPage va → v₀ cur va ≠ none → ∃ before held since,
    es = before ++ .page cur child (pdx va) (ptx va) held :: since ∧
    k.viewAt cur va = (ForkAct.lastWrite cur va (since ++ as.map .access)).or (held va) ∧
    k.viewAt child va = (ForkAct.lastWrite child va (as.map .access)).or (held va)
  /-- That is what they load. -/
  loads : ∀ e ∈ ({child, cur} : Set EnvIdx), ∀ c d va b k', k.Executes c e d → ForkPage va →
    load c va k = .ret b k' → k.viewAt e va = some b

theorem ForkDone.copied (h : ForkDone L code cur v₀ childId es k) (hup : code.entry ≠ 0)
    (after : CowRun code {envx childId, cur} k as G' k') :
    ForkCopied cur (envx childId) v₀ es as k' := by
  obtain ⟨hprivate, hne, hduplicated⟩ := h
  have hend := hprivate.run hup after
  have hsees : k'.Sees {envx childId, cur} (Access.runs (ForkAct.runs v₀ es) as) :=
    fun e he va hva => hend.sees e (after.subset he) va hva
  -- nobody is forked into one of the two
  have hown : ∀ e ∈ ({envx childId, cur} : Set EnvIdx), ∀ va, ForkPage va →
      k'.viewAt e va = (ForkAct.lastWrite e va (as.map .access)).or (ForkAct.runs v₀ es e va) := by
    intro e he va hva
    rw [hsees e he va hva, ← ForkAct.runs_access]
    refine ForkAct.runs_byte fun a ha hcopies => ?_
    obtain ⟨x, hx, rfl⟩ := List.mem_map.mp ha
    cases x with
    | store => exact hcopies
    | upcall => exact hcopies
    | fork parent child => exact hprivate.forks_new hup after parent child hx (hcopies.symm ▸ he)
  have hchild : envx childId ∈ ({envx childId, cur} : Set EnvIdx) := Set.mem_insert _ _
  have hparent : cur ∈ ({envx childId, cur} : Set EnvIdx) := Set.mem_insert_of_mem _ rfl
  refine ⟨hsees, fun va hva hmapped => ?_, fun e he c d va b k'' hx hva hload => ?_⟩
  · obtain ⟨before, held, since, hes, hcopy, hsince⟩ := hduplicated va hva hmapped
    refine ⟨before, held, since, hes, ?_, ?_⟩
    · rw [hown cur hparent va hva, hsince, ForkAct.lastWrite_append, Option.or_assoc]
    · rw [hown _ hchild va hva, hcopy]
  · rw [hsees e he va hva]
    exact hend.load (after.subset he) hx hva hload

/-- The run of `fork`, with what the parent stores meanwhile. -/
theorem PgfaultSet.forks (set : PgfaultSet code c cur k₀ k) (h : InUser L c cur d k₀)
    (slots : k₀.SlotsFree) (fits : k₀.LoopFits cur) (alone : k₀.WritersAlone)
    (user : k₀.WritesUserPages cur) (hup : code.entry ≠ 0) (program : code.InProgram)
    (run : ForkRuns code cur c k es childId c' k₁) :
    ForkDone L code cur (k.memory cur) childId es k₁ := by
  obtain ⟨hsolo, hfits⟩ := set.solo h slots fits alone user program
  have hempty : ∀ e, e ≠ cur → ∀ va, k.memory cur e va = none := fun e he va => by
    rw [Kernel.memory, Function.update_of_ne he]
  exact forkParts_meets hup c [] k ⟨hsolo, hfits, fun _ hva => hva, hempty⟩ es childId c' k₁ run

/-- The parent has duplicated pages, and nothing else has happened. -/
def OnlyPages (cur : EnvIdx) (es : List ForkAct) : Prop :=
  ∀ a ∈ es, ∃ child i j held, a = .page cur child i j held

section Alone

end Alone

theorem FirstRuns.used {i j : Idx} {f : Nat} (h : FirstRuns d k)
    (hf : k.phys.target k.dirs (.pte e i j) = some f) :
    e = 0 ∧ (pageNumber i j = 2048 ∨ pageNumber i j = stackPage) := by
  obtain hslot | hslot := h.target_cases hf
  · obtain ⟨rfl, hij⟩ := Prod.mk.inj hslot
    obtain ⟨rfl, rfl⟩ := Prod.mk.inj hij
    exact ⟨rfl, .inl rfl⟩
  · obtain ⟨rfl, hij⟩ := Prod.mk.inj (Set.mem_singleton_iff.mp hslot)
    obtain ⟨rfl, rfl⟩ := Prod.mk.inj hij
    exact ⟨rfl, .inr rfl⟩

/-- After a store that is no page fault. -/
theorem QemuReady.rewritten (h : QemuReady L d k) (hk : Rewritten L k k')
    (set : intCode.IsSet k' 0) : QemuReady L d k' := by
  have hcount : k'.loopCount 0 loopPages = k.loopCount 0 loopPages :=
    Kernel.loopCount_congr fun i j _ => hk.pte 0 i j
  refine ⟨hk.inUser h.inUser, hk.slots h.slots, hk.loopFits h.fits, hk.handles h.handles,
    fun i hi => ⟨(h.readable i hi).1, ?_⟩, set, hk.executes h.executes, fun va hva => ?_, ?_, ?_⟩
  · rw [Kernel.MayRead, hk.entryAt]
    exact (h.readable i hi).2
  · rw [hk.pageAt, hk.entryAt]
    exact h.writable va hva
  · rw [hk.rest]
    exact h.slot
  · rw [hcount]
    exact hk.room _ h.room

/-- The first environment has forked. During the `fork` it has stored the byte 5. -/
structure QemuCopied (L : Layout) (d : Nat) (k₀ k : Kernel) (es : List ForkAct) (childId : Word)
    (k₁ : Kernel) : Prop where
  inUser : InUser L 0 0 d k₀
  slots : k₀.SlotsFree
  fits : k₀.LoopFits 0
  alone : k₀.WritersAlone
  user : k₀.WritesUserPages 0
  set : PgfaultSet intCode 0 0 k₀ k
  pages : OnlyPages 0 es
  run : ForkRuns intCode 0 0 k (.access (.store 0 0x800000 5) :: es) childId 0 k₁
  child : ∃ k', QemuChild L d k' childId k₁
  copied : k₁.viewAt (envx childId) 0x800000 = some 5

theorem QemuCopied.done (h : QemuCopied L d k₀ k es childId k₁) :
    ForkDone L intCode 0 (k.memory 0) childId (.access (.store 0 0x800000 5) :: es) k₁ :=
  h.set.forks h.inUser h.slots h.fits h.alone h.user (by decide) intCode_inProgram h.run

end Jos
