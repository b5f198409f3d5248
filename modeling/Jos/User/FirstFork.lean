import Jos.User.CowUpcall

/-!
# The first `fork` of an environment

`set_pgfault_handler` allocates the exception stack and assigns `_pgfault_handler`. What the
environment has in its memory then is what the child gets a copy of.
-/

namespace Jos

open Prog

variable {L : Layout} {k k' k'' k₀ : Kernel} {c d n : Nat} {cur e : EnvIdx} {va a w childId : Word}
  {b : Byte} {code : ForkCode}

/-- Nothing has changed but the bytes of pages that are mapped. -/
structure Rewritten (L : Layout) (k k' : Kernel) : Prop where
  mem : MemInv L k'
  rest : k' = { k with phys := k'.phys }
  pte : ∀ e i j, k'.pte e i j = k.pte e i j
  room : ∀ n, k.phys.FreePages n → k'.phys.FreePages n

namespace Rewritten

theorem refl (h : MemInv L k) : Rewritten L k k := ⟨h, rfl, fun _ _ _ => rfl, fun _ hn => hn⟩

theorem trans (h : Rewritten L k k') (h' : Rewritten L k' k'') : Rewritten L k k'' :=
  ⟨h'.mem, by rw [h'.rest, h.rest], fun e i j => (h'.pte e i j).trans (h.pte e i j),
    fun n hn => h'.room n (h.room n hn)⟩

theorem envs (h : Rewritten L k k') : k'.envs = k.envs := by rw [h.rest]

theorem cpus (h : Rewritten L k k') : k'.cpus = k.cpus := by rw [h.rest]

theorem entryAt (h : Rewritten L k k') : k'.entryAt e va = k.entryAt e va := h.pte e _ _

theorem pageAt (h : Rewritten L k k') : k'.pageAt e va = k.pageAt e va :=
  congrArg entryFrame h.entryAt

theorem slots (h : Rewritten L k k') (slots : k.SlotsFree) : k'.SlotsFree := by
  rw [h.rest]
  exact slots

theorem inUser (h : Rewritten L k k') (hu : InUser L c cur d k) : InUser L c cur d k' :=
  ⟨h.mem, by rw [Kernel.status, h.envs]; exact hu.used, by rw [Kernel.dirs, h.envs]; exact hu.dir,
    by rw [h.cpus]; exact hu.cr3, by rw [h.envs]; exact hu.id⟩

theorem executes (h : Rewritten L k k') (hx : k.Executes c cur d) : k'.Executes c cur d := by
  rw [h.rest]
  exact ⟨hx.unlocked, hx.cpu, hx.running, hx.pgdir⟩

theorem frame (h : Rewritten L k k') : k'.frames.frame = k.frames.frame :=
  funext fun x => congrArg entryFrame (h.pte x.1 x.2.1 x.2.2)

theorem mappings (h : Rewritten L k k') (f : Nat) : k'.mappings f = k.mappings f :=
  Kernel.mappings_congr h.pte f

theorem loopFits (h : Rewritten L k k') (fits : k.LoopFits cur) : k'.LoopFits cur := by
  intro f
  rw [Kernel.loopMappings, h.mappings]
  exact fits f

theorem handles {handler : Word} (h : Rewritten L k k') (hk : k.Handles handler e) :
    k'.Handles handler e := by
  obtain ⟨⟨⟨⟨g, hg⟩, hpte⟩, hsole⟩, hupcall⟩ := hk
  refine ⟨⟨⟨⟨g, ?_⟩, by rw [h.entryAt]; exact hpte⟩, ?_⟩, by rw [h.envs]; exact hupcall⟩
  · exact (congrArg entryFrame h.entryAt).trans hg
  · rw [Frames.Sole, h.frame]
    exact hsole

theorem forkable {first : Bool} (h : Rewritten L k k') (able : k.Forkable cur first) :
    k'.Forkable cur first := by
  obtain ⟨hroom, hslot, hstack⟩ := able
  refine ⟨?_, by rw [h.rest]; exact hslot, hstack.imp_right fun hwrite => ?_⟩
  · rw [Kernel.loopCount_congr fun i j _ => h.pte cur i j]
    exact h.room _ hroom
  · obtain ⟨⟨g, hg⟩, hpte⟩ := hwrite
    exact ⟨⟨g, h.pageAt.trans hg⟩, by rw [h.entryAt]; exact hpte⟩

end Rewritten

/-! ### Stores of an environment that has not forked -/

/-- The environment sees the same byte at both addresses. -/
def Kernel.SameByte (k : Kernel) (e : EnvIdx) (a a' : Word) : Prop :=
  k.pageAt e a = k.pageAt e a' ∧ pgoff a = pgoff a'

namespace InUser

/-- A store that comes through is to a page that user mode may write. -/
theorem store_ret (h : InUser L c cur d k) (hva : va < utop) (run : store c va b k = .ret () k') :
    ∃ f, k.pageAt cur va = some f ∧ UserPte (k.entryAt cur va) true ∧
      k' = { k with phys := k.phys.setByte f (pgoff va) b } := by
  have hwrite : ∃ f, k.phys.UserPage d va f true := by
    by_contra hno
    rw [store_denied h.cr3 fun f hf => hno ⟨f, hf⟩] at run
    cases run
  obtain ⟨f, hpage⟩ := hwrite
  obtain ⟨hf, hpte⟩ := (h.userPage_iff hva).mp hpage
  rw [store_page h.cr3 hpage] at run
  exact ⟨f, hf, hpte, (Outcome.ret.inj run).2.symm⟩

theorem rewritten (h : InUser L c cur d k) (hva : va < utop) (run : store c va b k = .ret () k') :
    Rewritten L k k' ∧ k'.viewAt cur va = some b ∧ UserPte (k'.entryAt cur va) true ∧
      ∀ a, ¬ k.SameByte cur a va → k'.viewAt cur a = k.viewAt cur a := by
  obtain ⟨f, hf, hwrite, hk'⟩ := h.store_ret hva run
  obtain ⟨hmem, hwrites, hpte⟩ := h.mem.setPage_writes hf
    (Function.update (k.phys.mem f) (pgoff va) b)
  have hbyte : k.phys.setByte f (pgoff va) b =
    k.phys.setPage f (Function.update (k.phys.mem f) (pgoff va) b) := rfl
  rw [← hbyte, ← hk'] at hmem hwrites hpte
  have hpage : ∀ a, k'.pageAt cur a = k.pageAt cur a := fun a => congrArg entryFrame (hpte cur _ _)
  have hbytes : k'.phys.mem f = Function.update (k.phys.mem f) (pgoff va) b := by
    rw [hk']
    exact Function.update_self _ _ _
  refine ⟨⟨hmem, by rw [hk'], hpte, fun n hn => by rw [hk']; exact hn⟩, ?_, ?_, fun a ha => ?_⟩
  · rw [Kernel.viewAt, hpage, hf, Option.map_some, hbytes, Function.update_self]
  · rw [show k'.entryAt cur va = k.entryAt cur va from hpte cur _ _]
    exact hwrite
  · rw [Kernel.viewAt, Kernel.viewAt, hpage]
    refine Option.map_congr fun p hp => ?_
    by_cases heq : p = f
    · subst heq
      rw [hbytes, Function.update_of_ne fun hoff => ha ⟨hp.trans hf.symm, hoff⟩]
    · rw [hk']
      exact congrFun (k.phys.mem_setPage_of_ne _ heq) _

/-- The bytes of a word. -/
theorem stores_ret (h : InUser L c cur d k) (hn : n ≤ 4)
    (page : ∀ i < 4, ForkPage (a + BitVec.ofNat 32 i))
    (run : forRange n (fun i => store c (a + BitVec.ofNat 32 i) (w.extractLsb' (8 * i) 8)) k =
      .ret () k') :
    Rewritten L k k' ∧
      (∀ i < n, k'.viewAt cur (a + BitVec.ofNat 32 i) = some (w.extractLsb' (8 * i) 8) ∧
        UserPte (k'.entryAt cur (a + BitVec.ofNat 32 i)) true) ∧
      ∀ x, (∀ i < n, ¬ k.SameByte cur x (a + BitVec.ofNat 32 i)) →
        k'.viewAt cur x = k.viewAt cur x := by
  induction n generalizing k' with
  | zero =>
      obtain ⟨-, rfl⟩ := Outcome.ret.inj run
      exact ⟨.refl h.mem, fun i hi => absurd hi (Nat.not_lt_zero i), fun _ _ => rfl⟩
  | succ n ih =>
      rw [forRange] at run
      cases hloop : forRange n (fun i => store c (a + BitVec.ofNat 32 i)
          (w.extractLsb' (8 * i) 8)) k with
      | ret u k₁ =>
          rw [bind_ret _ hloop] at run
          obtain ⟨hk₁, hbytes, hrest⟩ := ih (by omega) hloop
          obtain ⟨hk', hnew, huser, hother⟩ := (hk₁.inUser h).rewritten
            (forkPage_utop (page n (by omega))) run
          have hsame : ∀ x y, k₁.SameByte cur x y ↔ k.SameByte cur x y := by
            intro x y
            rw [Kernel.SameByte, Kernel.SameByte, hk₁.pageAt, hk₁.pageAt]
          refine ⟨hk₁.trans hk', fun i hi => ?_, fun x hx => (hother x fun hno => hx n
            (Nat.lt_succ_self n) ((hsame _ _).mp hno)).trans (hrest x fun i hi => hx i (by omega))⟩
          by_cases heq : i = n
          · rw [heq]
            exact ⟨hnew, huser⟩
          obtain ⟨hview, hpte⟩ := hbytes i (by omega)
          refine ⟨(hother _ fun hno => heq ?_).trans hview, by rw [hk'.entryAt]; exact hpte⟩
          have hoff := hno.2
          have hlow := (forkPage_iff.mp (page 0 (by decide))).2
          rw [show a + BitVec.ofNat 32 0 = a from BitVec.add_zero a] at hlow
          rw [pgoff_eq, pgoff_eq, BitVec.toNat_add, BitVec.toNat_add, BitVec.toNat_ofNat,
            BitVec.toNat_ofNat] at hoff
          omega
      | exit why k₁ =>
          rw [bind_exit _ hloop] at run
          cases run
      | panic why =>
          rw [bind_panic _ hloop] at run
          cases run

end InUser

/-- A test that the byte may be written changes nothing. -/
theorem probe_ret (run : probe c va k = .ret () k') : k' = k := by
  rw [probe, get_bind] at run
  cases walk : k.phys.translate (k.cpus c).cr3 va with
  | none =>
      rw [walk] at run
      cases run
  | some entries =>
      obtain ⟨pde, pte⟩ := entries
      rw [walk] at run
      dsimp only at run
      split at run
      · cases run
      · exact (Outcome.ret.inj run).2.symm

theorem probes_ret (run : forRange n (fun i => probe c (a + BitVec.ofNat 32 i)) k = .ret () k') :
    k' = k := by
  induction n generalizing k' with
  | zero => exact (Outcome.ret.inj run).2.symm
  | succ n ih =>
      rw [forRange] at run
      cases hloop : forRange n (fun i => probe c (a + BitVec.ofNat 32 i)) k with
      | ret u k₁ =>
          rw [bind_ret _ hloop] at run
          rw [probe_ret run, ih hloop]
      | exit why k₁ =>
          rw [bind_exit _ hloop] at run
          cases run
      | panic why =>
          rw [bind_panic _ hloop] at run
          cases run

theorem InUser.storeWord_ret (h : InUser L c cur d k)
    (page : ∀ i < 4, ForkPage (a + BitVec.ofNat 32 i)) (run : storeWord c a w k = .ret () k') :
    Rewritten L k k' ∧
      (∀ i < 4, k'.viewAt cur (a + BitVec.ofNat 32 i) = some (w.extractLsb' (8 * i) 8) ∧
        UserPte (k'.entryAt cur (a + BitVec.ofNat 32 i)) true) ∧
      ∀ x, (∀ i < 4, ¬ k.SameByte cur x (a + BitVec.ofNat 32 i)) →
        k'.viewAt cur x = k.viewAt cur x := by
  rw [storeWord] at run
  cases hprobe : forRange 4 (fun i => probe c (a + BitVec.ofNat 32 i)) k with
  | ret u k₁ =>
      rw [bind_ret _ hprobe, probes_ret hprobe] at run
      exact h.stores_ret (Nat.le_refl 4) page run
  | exit why k₁ =>
      rw [bind_exit _ hprobe] at run
      cases run
  | panic why =>
      rw [bind_panic _ hprobe] at run
      cases run

/-- The word can be stored if its bytes can be written. -/
theorem InUser.storeWord_total (h : InUser L c cur d k)
    (page : ∀ i < 4, ForkPage (a + BitVec.ofNat 32 i))
    (write : ∀ i < 4, UserPte (k.entryAt cur (a + BitVec.ofNat 32 i)) true)
    (mapped : ∀ i < 4, ∃ f, k.pageAt cur (a + BitVec.ofNat 32 i) = some f) (w : Word) :
    ∃ k', storeWord c a w k = .ret () k' := by
  have huser : ∀ {k₁}, Rewritten L k k₁ → ∀ i < 4,
      ∃ f, k₁.phys.UserPage d (a + BitVec.ofNat 32 i) f true := by
    intro k₁ hk₁ i hi
    obtain ⟨f, hf⟩ := mapped i hi
    have hentry : k₁.entryAt cur (a + BitVec.ofNat 32 i) = k.entryAt cur (a + BitVec.ofNat 32 i) :=
      hk₁.entryAt
    exact ⟨f, ((hk₁.inUser h).userPage_iff (forkPage_utop (page i hi))).mpr
      ⟨(congrArg entryFrame hentry).trans hf, by rw [hentry]; exact write i hi⟩⟩
  have hloop : ∀ n ≤ 4, ∃ k', forRange n
      (fun i => store c (a + BitVec.ofNat 32 i) (w.extractLsb' (8 * i) 8)) k = .ret () k' := by
    intro n hn
    induction n with
    | zero => exact ⟨k, rfl⟩
    | succ n ih =>
        obtain ⟨k₁, hrun⟩ := ih (by omega)
        obtain ⟨hk₁, -⟩ := h.stores_ret (by omega) page hrun
        obtain ⟨f, hf⟩ := huser hk₁ n (by omega)
        exact ⟨_, (bind_ret _ hrun).trans (store_page (hk₁.inUser h).cr3 hf _)⟩
  obtain ⟨k', hrun⟩ := hloop 4 (Nat.le_refl 4)
  refine ⟨k', ?_⟩
  rw [storeWord, bind_ret _ (probes_page h.cr3 (huser (.refl h.mem)))]
  exact hrun

/-! ### The first `fork` -/

/-- `_pgfault_handler` is in the program. -/
def ForkCode.InProgram (code : ForkCode) : Prop :=
  ∀ i < 4, ForkPage (code.handler + BitVec.ofNat 32 i)

/-- An environment forks for the first time. In `k` it has set its handler, and calls
`sys_exofork`. -/
structure FirstFork (code : ForkCode) (c : Nat) (cur : EnvIdx) (k₀ k : Kernel) (childId : Word)
    (k' : Kernel) : Prop where
  set : (do
    setPgfaultHandler cur true code.entry
    storeWord c code.handler code.pgfault) k₀ = .ret () k
  run : fork c cur false code.entry k = .ret childId k'

/-- What `set_pgfault_handler` has done. -/
structure HandlerSet (L : Layout) (code : ForkCode) (cur : EnvIdx) (k₀ k : Kernel) : Prop where
  slots : k.SlotsFree
  cpus : k.cpus = k₀.cpus
  fits : k.LoopFits cur
  handles : k.Handles code.entry cur
  readable : code.Readable k cur
  isSet : code.IsSet k cur
  envFreeList : k.envFreeList = k₀.envFreeList
  status : ∀ e, k.status e = k₀.status e
  dirs : k.dirs = k₀.dirs
  rest : ∀ e i j, ¬ (e = cur ∧ i = stackPde ∧ j = stackPte) → k.pte e i j = k₀.pte e i j
  /-- The exception stack is new. -/
  stack : ∃ g, k.pte cur stackPde stackPte = mkPte g stackPerm
  zero : ∀ va, OnStack va → k.viewAt cur va = some 0
  view : ∀ va, ForkPage va → (∀ i < 4, ¬ k₀.SameByte cur va (code.handler + BitVec.ofNat 32 i)) →
    k.viewAt cur va = k₀.viewAt cur va
  room : ∀ n, k₀.phys.FreePages (n + 2) → k.phys.FreePages n

theorem HandlerSet.pte (h : HandlerSet L code cur k₀ k) (i j : Idx) (hin : InLoop loopPages i j) :
    k.pte cur i j = k₀.pte cur i j :=
  h.rest cur i j fun hs => stack_not_inLoop (hs.2.1 ▸ hs.2.2 ▸ hin)

theorem InUser.handlerSet (h : InUser L c cur d k₀) (slots : k₀.SlotsFree) (fits : k₀.LoopFits cur)
    (program : code.InProgram) (run : (do
      setPgfaultHandler cur true code.entry
      storeWord c code.handler code.pgfault) k₀ = .ret () k) :
    InUser L c cur d k ∧ HandlerSet L code cur k₀ k := by
  have hspec := setPgfaultHandler_spec h true code.entry
  cases hset : setPgfaultHandler cur true code.entry k₀ with
  | ret u k₁ =>
      rw [bind_ret _ hset] at run
      rw [wp_ret hset] at hspec
      obtain ⟨h₁, hready⟩ := hspec
      obtain ⟨hk, hword, hrest⟩ := h₁.storeWord_ret program run
      obtain ⟨g, hlisted, hg, hstack, hzero⟩ := hready.stack rfl
      have hwritable := hready.writable (.inl rfl)
      have hnew : entryFrame (mkPte g stackPerm) = some g := entryFrame_mkPte hg (by decide)
      have hsole : k₁.frames.Sole (cur, stackPde, stackPte) := by
        rintro f ⟨e, i, j⟩ hf hmap
        by_contra hother
        have hne : ¬ (true = true ∧ e = cur ∧ i = stackPde ∧ j = stackPte) := by
          rintro ⟨-, rfl, rfl, rfl⟩
          exact hother rfl
        change entryFrame (k₁.pte e i j) = some f at hmap
        change entryFrame (k₁.pte cur stackPde stackPte) = some f at hf
        rw [hstack, hnew] at hf
        rw [hready.rest e i j hne, ← Option.some.inj hf] at hmap
        exact h.mem.phys.listed_fresh hlisted (.pte e i j) hmap
      refine ⟨hk.inUser h₁, ⟨hk.slots (hready.slots slots), hk.cpus.trans hready.cpus,
        hk.loopFits (hready.loopFits h.mem fits), hk.handles ⟨⟨hwritable, hsole⟩, hready.handler rfl⟩,
        fun i hi => ⟨program i hi, ?_⟩, fun i hi => (hword i hi).1, ?_, fun e => ?_, ?_,
        fun e i j hne => ?_, ⟨g, (hk.pte _ _ _).trans hstack⟩, fun va hva => ?_,
        fun va hva hother => ?_, fun n hn => hk.room n (hready.free n hn)⟩⟩
      · obtain ⟨hview, hpte⟩ := hword i hi
        refine ⟨fun hz => ?_, hpte.1⟩
        have hnone : k.pageAt cur (code.handler + BitVec.ofNat 32 i) = none := by
          change entryFrame (k.entryAt cur _) = none
          rw [entryFrame, if_neg (not_not.mpr hz)]
        rw [Kernel.viewAt, hnone] at hview
        simp at hview
      · rw [hk.rest]
        exact hready.envFreeList
      · rw [Kernel.status, hk.envs]
        exact hready.status e
      · rw [← hready.dirs]
        exact funext fun e => congrArg Env.pgdir (congrFun hk.envs e)
      · rw [hk.pte, hready.rest _ _ _ fun hs => hne hs.2]
      · have hpage : k₁.pageAt cur va = some g := by
          rw [Kernel.pageAt, hva.1, hva.2]
          exact (congrArg entryFrame hstack).trans hnew
        rw [hrest va fun i hi hno => ?_, Kernel.viewAt, hpage, Option.map_some, hzero]
        have hslot := hsole g (cur, pdx (code.handler + BitVec.ofNat 32 i),
          ptx (code.handler + BitVec.ofNat 32 i)) ((congrArg entryFrame hstack).trans hnew)
          (hno.1.symm.trans hpage)
        obtain ⟨hpdx, hptx⟩ := Prod.mk.inj (Prod.mk.inj hslot).2
        exact stack_not_inLoop (hpdx ▸ hptx ▸ program i hi)
      · have hpage : ∀ va, ForkPage va → k₁.pageAt cur va = k₀.pageAt cur va := fun va hva =>
          congrArg entryFrame (hready.rest _ _ _ fun hs => stack_not_inLoop
            (by rw [← hs.2.2.1, ← hs.2.2.2]; exact hva))
        rw [hrest va fun i hi hno => hother i hi ⟨?_, hno.2⟩, Kernel.viewAt, Kernel.viewAt,
          hpage va hva]
        · refine Option.map_congr fun p hp => ?_
          exact congrFun (hready.contents cur _ _ p hp) _
        · rw [← hpage va hva, ← hpage _ (program i hi)]
          exact hno.1
  | exit why k₁ =>
      rw [bind_exit _ hset] at run
      cases run
  | panic why =>
      rw [bind_panic _ hset] at run
      cases run

/-- It can be done if two pages are free and `_pgfault_handler` can be written. -/
theorem InUser.setsHandler (h : InUser L c cur d k₀) (program : code.InProgram)
    (mapped : ∀ i < 4, ∃ f, k₀.pageAt cur (code.handler + BitVec.ofNat 32 i) = some f)
    (write : ∀ i < 4, UserPte (k₀.entryAt cur (code.handler + BitVec.ofNat 32 i)) true)
    (room : k₀.phys.FreePages 2) : ∃ k, (do
      setPgfaultHandler cur true code.entry
      storeWord c code.handler code.pgfault) k₀ = .ret () k := by
  have hspec := setPgfaultHandler_spec h true code.entry
  cases hset : setPgfaultHandler cur true code.entry k₀ with
  | ret u k' =>
      rw [wp_ret hset] at hspec
      obtain ⟨h', hready⟩ := hspec
      have hentry : ∀ i < 4, k'.entryAt cur (code.handler + BitVec.ofNat 32 i) =
          k₀.entryAt cur (code.handler + BitVec.ofNat 32 i) := fun i hi =>
        hready.rest _ _ _ fun hs => stack_not_inLoop (hs.2.2.1 ▸ hs.2.2.2 ▸ program i hi)
      obtain ⟨k, hassign⟩ := h'.storeWord_total program
        (fun i hi => by rw [hentry i hi]; exact write i hi)
        (fun i hi => by
          obtain ⟨f, hf⟩ := mapped i hi
          exact ⟨f, (congrArg entryFrame (hentry i hi)).trans hf⟩) code.pgfault
      exact ⟨k, (bind_ret _ hset).trans hassign⟩
  | exit why k' =>
      rw [wp_exit_eq hset] at hspec
      exact absurd room hspec
  | panic why =>
      rw [wp_panic_eq hset] at hspec
      exact hspec.elim

theorem HandlerSet.forkable (h : HandlerSet L code cur k₀ k)
    (room : k₀.phys.FreePages (2 * k₀.loopCount cur loopPages + 8)) (slot : k₀.envFreeList ≠ none) :
    k.Forkable cur false := by
  refine ⟨h.room _ ?_, by rw [h.envFreeList]; exact slot, .inr h.handles.stack⟩
  rwa [Kernel.loopCount_congr h.pte]

end Jos
