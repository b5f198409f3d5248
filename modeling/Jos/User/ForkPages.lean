import Jos.User.PrivateMemory

/-!
# What a `fork` leaves

The pages that parent and child share afterwards, and the two exception stacks. The last
`memmove` of `fork` should copy the exception stack of the parent to that of the child, and has
its arguments the other way round. `fork` runs without interruption here, and what it writes to
its own variables and its own stack is left out: the page of that stack is in the loop, and the
next store to it is a page fault like any other.
-/

namespace Jos

open Prog

variable {L : Layout} {k k' : Kernel} {c d : Nat} {cur : EnvIdx} {va handler childId : Word}
  {first : Bool}

/-- The child has the pages of the parent, and neither of them may write them as they are. Each has
an exception stack that it shares with nobody. -/
structure SharesPages (k : Kernel) (cur child : EnvIdx) (k' : Kernel) : Prop where
  pages : ∀ va, ForkPage va →
    k'.pageAt child va = k.pageAt cur va ∧ k'.pageAt cur va = k.pageAt cur va
  contents : ∀ va, ForkPage va →
    k'.viewAt child va = k.viewAt cur va ∧ k'.viewAt cur va = k.viewAt cur va
  readonly : ∀ va, ForkPage va →
    k'.entryAt child va &&& pteW = 0 ∧ k'.entryAt cur va &&& pteW = 0
  /-- The ones that the parent could write are marked. -/
  marked : ∀ va, ForkPage va → (k.Writable cur va ↔ k'.Writable child va) ∧
    (k.Writable cur va ↔ k'.Writable cur va)
  ownStacks : k'.OwnStack cur ∧ k'.OwnStack child
  nothing : ∀ va, ¬ ForkPage va → ¬ OnStack va → k'.pageAt child va = none
  others : ∀ e, e ≠ cur → e ≠ child → ∀ va,
    k'.entryAt e va = k.entryAt e va ∧ k'.viewAt e va = k.viewAt e va

theorem ForkPage.not_temp (h : ForkPage va) : ¬ (pdx va = tempPde ∧ ptx va = tempPte) := by
  rintro ⟨hpdx, hptx⟩
  rw [ForkPage, hpdx, hptx] at h
  exact temp_not_inLoop h

theorem ForkPage.not_onStack (h : ForkPage va) : ¬ OnStack va := by
  rintro ⟨hpdx, hptx⟩
  rw [ForkPage, hpdx, hptx] at h
  exact stack_not_inLoop h

/-- What can be written after the fork could be written before. -/
theorem sharedPte_iff {pte : Word} (present : pte &&& pteP ≠ 0) :
    ((pte &&& pteW ≠ 0 ∨ pte &&& pteCow ≠ 0) ↔ parentPte pte &&& pteCow ≠ 0) ∧
      ((pte &&& pteW ≠ 0 ∨ pte &&& pteCow ≠ 0) ↔ childPte pte &&& pteCow ≠ 0) ∧
      parentPte pte &&& pteP ≠ 0 ∧ childPte pte &&& pteP ≠ 0 := by
  have hpresent : ∀ w, entryFrame w = some (pgnum pte) → w &&& pteP ≠ 0 := by
    intro w hw hz
    rw [entryFrame, if_neg (not_not.mpr hz)] at hw
    simp at hw
  have hplain : ¬ (pte &&& pteW ≠ 0 ∨ pte &&& pteCow ≠ 0) → parentPte pte &&& pteCow = 0 ∧
      childPte pte &&& pteCow = 0 := by
    intro hno
    have hperm : duppagePerm pte = pteP ||| pteU := by rw [duppagePerm, if_neg hno]
    rw [not_or, not_not, not_not] at hno
    refine ⟨?_, ?_⟩
    · rw [parentPte, if_neg (by rw [hperm]; decide)]
      exact hno.2
    · rw [childPte, mkPte_and _ _ (by decide), hperm]
      decide
  refine ⟨⟨fun h => (sharedPte_marked h).1, fun h => ?_⟩,
    ⟨fun h => (sharedPte_marked h).2, fun h => ?_⟩,
    hpresent _ (entryFrame_parentPte present), hpresent _ (entryFrame_childPte pte)⟩
  · by_contra hno
    exact h (hplain hno).1
  · by_contra hno
    exact h (hplain hno).2

theorem Forked.sharesPages {g g' : Nat} (h : Forked L k cur first handler childId g g' k')
    (hk : MemInv L k) (old : first = true ∨ k.OwnStack cur) :
    SharesPages k cur (envx childId) k' := by
  have alone : first = true ∨ k.frames.Sole (cur, stackPde, stackPte) := old.imp_right fun ho => ho.sole
  have hnone : entryFrame 0 = none := entryFrame_zero
  have hne : cur ≠ envx childId := h.hasChild.ne.symm
  -- a page that the parent does not have
  have habsent : ∀ va, ForkPage va → ¬ k.entryAt cur va &&& pteP ≠ 0 →
      k.entryAt cur va = 0 ∧ k'.entryAt cur va = 0 ∧ k'.entryAt (envx childId) va = 0 := by
    intro va hva hp
    have hzero : k.entryAt cur va = 0 := by
      refine hk.phys.tables.clean _ _ _ ?_
      change entryFrame (k.entryAt cur va) = none
      rw [entryFrame, if_neg hp]
    have hparent : k'.entryAt cur va = k.entryAt cur va :=
      h.rest cur _ _ hne (fun hs => hp hs.2.2) (fun hs => hva.not_onStack ⟨hs.2.1, hs.2.2.1⟩)
        fun ht => hva.not_temp ht.2
    exact ⟨hzero, hparent.trans hzero, h.bare _ _ (fun hs => hp hs.2) hva.not_onStack⟩
  have hpages : ∀ va, ForkPage va →
      k'.pageAt (envx childId) va = k.pageAt cur va ∧ k'.pageAt cur va = k.pageAt cur va := by
    intro va hva
    change entryFrame (k'.entryAt _ va) = entryFrame (k.entryAt cur va) ∧
      entryFrame (k'.entryAt cur va) = entryFrame (k.entryAt cur va)
    by_cases hp : k.entryAt cur va &&& pteP ≠ 0
    · obtain ⟨hparent, hchild⟩ := h.shared _ _ hva hp
      have hframe : entryFrame (k.entryAt cur va) = some (pgnum (k.entryAt cur va)) := if_pos hp
      rw [hframe]
      exact ⟨(congrArg entryFrame hchild).trans (entryFrame_childPte _),
        (congrArg entryFrame hparent).trans (entryFrame_parentPte hp)⟩
    · obtain ⟨hold, hparent, hchild⟩ := habsent va hva hp
      rw [hold, hparent, hchild]
      exact ⟨rfl, rfl⟩
  have hview : ∀ va, ForkPage va → ∀ e, k'.pageAt e va = k.pageAt cur va →
      k'.viewAt e va = k.viewAt cur va := fun va hva e hpage =>
    Kernel.viewAt_congr (Frames.view_congr hpage fun p hp =>
      h.content_same alone (fun hs => hva.not_onStack hs.2) (fun ht => hva.not_temp ht.2) hp)
  refine ⟨hpages, fun va hva => ⟨hview va hva _ (hpages va hva).1, hview va hva _ (hpages va hva).2⟩,
    fun va hva => ?_, fun va hva => ?_,
    ⟨h.ownStack hne fun hno => old.resolve_left fun hfirst => hno ⟨hfirst, rfl⟩, h.childOwnStack⟩,
    fun va hva hs => ?_, fun e he hchild va => ?_⟩
  · by_cases hp : k.entryAt cur va &&& pteP ≠ 0
    · obtain ⟨hparent, hchild⟩ := h.shared _ _ hva hp
      have hentry : k'.entryAt cur va = parentPte (k.entryAt cur va) := hparent
      have hentry' : k'.entryAt (envx childId) va = childPte (k.entryAt cur va) := hchild
      rw [hentry, hentry']
      exact ⟨sharedPte_readonly.2, sharedPte_readonly.1⟩
    · obtain ⟨-, hparent, hchild⟩ := habsent va hva hp
      rw [hparent, hchild]
      decide
  · by_cases hp : k.entryAt cur va &&& pteP ≠ 0
    · obtain ⟨hparent, hchild⟩ := h.shared _ _ hva hp
      have hentry : k'.entryAt cur va = parentPte (k.entryAt cur va) := hparent
      have hentry' : k'.entryAt (envx childId) va = childPte (k.entryAt cur va) := hchild
      obtain ⟨hcow, hcow', hpresent, hpresent'⟩ := sharedPte_iff hp
      rw [Kernel.Writable, Kernel.Writable, Kernel.Writable, hentry, hentry', hcow]
      refine ⟨⟨fun hw => ⟨hpresent', .inr (hcow'.mp (hcow.mpr hw.2))⟩, fun hw => ⟨hp, ?_⟩⟩,
        ⟨fun hw => ⟨hpresent, .inr hw.2⟩, fun hw => ⟨hp, ?_⟩⟩⟩
      · exact hcow.mp (hcow'.mpr (hw.2.resolve_left fun hno => hno sharedPte_readonly.2))
      · exact hw.2.resolve_left fun hno => hno sharedPte_readonly.1
    · obtain ⟨hold, hparent, hchild⟩ := habsent va hva hp
      rw [Kernel.Writable, Kernel.Writable, Kernel.Writable, hold, hparent, hchild]
      exact ⟨Iff.rfl, Iff.rfl⟩
  · change entryFrame (k'.pte (envx childId) _ _) = none
    rw [h.bare _ _ (fun hno => hva hno.1) hs, hnone]
  · have hentry : k'.entryAt e va = k.entryAt e va :=
      h.rest e _ _ hchild (fun hs => he hs.1) (fun hs => he hs.1) fun ht => he ht.1
    refine ⟨hentry, Kernel.viewAt_congr (Frames.view_congr (congrArg entryFrame hentry)
      fun p hp => h.content_same alone (fun hs => he hs.1) (fun ht => he ht.1) hp)⟩

/-- Given the pages, the slot and an exception stack that nobody else has, `fork` returns a runnable
child that shares the pages of its parent. -/
theorem fork_shares_pages (h : InUser L c cur d k) (slots : k.SlotsFree) (fits : k.LoopFits cur)
    (able : k.Forkable cur first)
    (alone : first = true ∨ k.frames.Sole (cur, stackPde, stackPte)) (upcall : Word) :
    ∃ childId k', fork c cur first upcall k = .ret childId k' ∧ k.status (envx childId) = .free ∧
      k'.status (envx childId) = .runnable ∧ SharesPages k cur (envx childId) k' := by
  obtain ⟨childId, k', hrun, g, g', hforked⟩ := able.returns h slots fits upcall
  have old : first = true ∨ k.OwnStack cur := by
    by_cases hfirst : first = true
    · exact .inl hfirst
    · exact .inr ⟨able.2.2.resolve_left hfirst, alone.resolve_left hfirst⟩
  exact ⟨childId, k', hrun, hforked.new, hforked.runnable, hforked.sharesPages h.mem old⟩

theorem fork_shares_pages_first : ∃ k₀ k childId k', Booted qemu [intProgram] k₀ ∧
    Run SafeStep k₀ k ∧ fork 0 0 true 0x800020 k = .ret childId k' ∧
    k.status (envx childId) = .free ∧ k'.status (envx childId) = .runnable ∧
    SharesPages k 0 (envx childId) k' := by
  obtain ⟨k₀, k, d, L, hbooted, hrun, hruns, hmem, slots⟩ := qemu_first
  obtain ⟨childId, k', hres⟩ := fork_shares_pages (hruns.inUser hmem) slots hruns.loopFits
    hruns.forkable.1 (.inl rfl) 0x800020
  exact ⟨k₀, k, childId, k', hbooted, hrun, hres⟩

/-- After a `fork` both exception stacks are zero. -/
theorem Forked.zeroStacks {g g' : Nat} (h : Forked L k cur first handler childId g g' k') {va : Word}
    (hva : OnStack va) : k'.viewAt cur va = some 0 ∧ k'.viewAt (envx childId) va = some 0 := by
  obtain ⟨hpdx, hptx⟩ := hva
  obtain ⟨hparent, hchild⟩ := h.zero (pgoff va) (pgoff_lt va)
  have hpage : k'.pageAt cur va = some g := by
    rw [Kernel.pageAt, hpdx, hptx]
    exact h.stack
  have hpage' : k'.pageAt (envx childId) va = some g' := by
    rw [Kernel.pageAt, hpdx, hptx]
    exact (congrArg entryFrame h.childStack.1).trans
      (entryFrame_mkPte h.childStack.2 (by decide))
  rw [Kernel.viewAt, Kernel.viewAt, hpage, hpage', Option.map_some, Option.map_some, hparent, hchild]
  exact ⟨rfl, rfl⟩

/-- So the child has got the exception stack that the parent had, and the parent has kept it, exactly
if it was zero. -/
theorem fork_clears_stacks (h : InUser L c cur d k) (slots : k.SlotsFree) (fits : k.LoopFits cur)
    {upcall : Word} (run : fork c cur first upcall k = .ret childId k') :
    (∀ va, OnStack va → k'.viewAt cur va = some 0 ∧ k'.viewAt (envx childId) va = some 0) ∧
      ((∀ va, OnStack va → k'.viewAt (envx childId) va = k.viewAt cur va) ↔
        ∀ va, OnStack va → k.viewAt cur va = some 0) ∧
      ((∀ va, OnStack va → k'.viewAt cur va = k.viewAt cur va) ↔
        ∀ va, OnStack va → k.viewAt cur va = some 0) := by
  obtain ⟨-, g, g', hforked⟩ := Forked.of_run h slots fits run
  have hzero : ∀ va, OnStack va →
      k'.viewAt cur va = some 0 ∧ k'.viewAt (envx childId) va = some 0 :=
    fun va hva => hforked.zeroStacks hva
  refine ⟨hzero, ⟨fun hsame va hva => ?_, fun hold va hva => ?_⟩,
    ⟨fun hsame va hva => ?_, fun hold va hva => ?_⟩⟩
  · rw [← hsame va hva, (hzero va hva).2]
  · rw [hold va hva, (hzero va hva).2]
  · rw [← hsame va hva, (hzero va hva).1]
  · rw [hold va hva, (hzero va hva).1]

theorem fork_clears_stacks_first : ∃ k₀ k childId k', Booted qemu [intProgram] k₀ ∧
    Run SafeStep k₀ k ∧ fork 0 0 true 0x800020 k = .ret childId k' ∧
    k'.viewAt 0 uxstack = some 0 ∧ k'.viewAt (envx childId) uxstack = some 0 := by
  obtain ⟨k₀, k, d, L, hbooted, hrun, hruns, hmem, slots⟩ := qemu_first
  have hu := hruns.inUser hmem
  obtain ⟨childId, k', hfork, -⟩ := hruns.forkable.1.returns hu slots hruns.loopFits 0x800020
  obtain ⟨hzero, -⟩ := fork_clears_stacks hu slots hruns.loopFits hfork
  exact ⟨k₀, k, childId, k', hbooted, hrun, hfork, hzero uxstack ⟨rfl, rfl⟩⟩

/-- What `fork` should do to the exception stacks: the parent keeps its own, and the child has a copy
to itself. -/
structure KeepsStack (k : Kernel) (cur child : EnvIdx) (k' : Kernel) : Prop where
  kept : ∀ va, OnStack va → k'.viewAt cur va = k.viewAt cur va
  copied : ∀ va, OnStack va → k'.viewAt child va = k.viewAt cur va
  alone : k'.frames.Sole (child, stackPde, stackPte)
  plain : k'.entryAt cur uxstack &&& pteCow = 0 ∧ k'.entryAt child uxstack &&& pteCow = 0
  temp : k'.pageAt cur pftemp = none

/-- It does so exactly if all bytes of the parent's exception stack are zero, and the page is not
marked. -/
theorem fork_keeps_stack_iff (h : InUser L c cur d k) (slots : k.SlotsFree) (fits : k.LoopFits cur)
    {upcall : Word} (run : fork c cur first upcall k = .ret childId k') :
    KeepsStack k cur (envx childId) k' ↔ (∀ va, OnStack va → k.viewAt cur va = some 0) ∧
      (first = true ∨ k.entryAt cur uxstack &&& pteCow = 0) := by
  obtain ⟨-, g, g', hforked⟩ := Forked.of_run h slots fits run
  have hne : cur ≠ envx childId := hforked.hasChild.ne.symm
  have hnew : ∀ g, mkPte g stackPerm &&& pteCow = 0 := fun g => by
    rw [mkPte_and g _ (by decide)]
    decide
  have hold : first ≠ true → k'.entryAt cur uxstack = k.entryAt cur uxstack := fun hfirst =>
    hforked.rest cur stackPde stackPte hne (fun hs => stack_not_inLoop hs.2.1)
      (fun hs => hfirst hs.2.2.2) fun ht => stack_ne_temp ht.2.1
  constructor
  · intro hkeeps
    refine ⟨fun va hva => ?_, ?_⟩
    · rw [← hkeeps.kept va hva, (hforked.zeroStacks hva).1]
    · by_cases hfirst : first = true
      · exact .inl hfirst
      · rw [← hold hfirst]
        exact .inr hkeeps.plain.1
  · rintro ⟨hzero, hplain⟩
    refine ⟨fun va hva => ?_, fun va hva => ?_, hforked.childOwnStack.sole, ⟨?_, ?_⟩, ?_⟩
    · rw [(hforked.zeroStacks hva).1, hzero va hva]
    · rw [(hforked.zeroStacks hva).2, hzero va hva]
    · by_cases hfirst : first = true
      · exact (congrArg (· &&& pteCow) (hforked.own hfirst)).trans (hnew g)
      · rw [hold hfirst]
        exact hplain.resolve_left hfirst
    · exact (congrArg (· &&& pteCow) hforked.childStack.1).trans (hnew g')
    · exact (congrArg entryFrame hforked.temp).trans entryFrame_zero

/-- A fresh exception stack is zero. -/
theorem fork_keeps_stack_iff_fresh : ∃ k₀ k₁ k childId k', Booted qemu [intProgram] k₀ ∧
    Run SafeStep k₀ k₁ ∧ FirstFork intCode 0 0 k₁ k childId k' ∧
    KeepsStack k 0 (envx childId) k' := by
  obtain ⟨k₀, k₁, d, L, hbooted, hrun, hruns, hmem, slots⟩ := qemu_first
  obtain ⟨k, hassign⟩ := hruns.setsHandler hmem
  obtain ⟨hu, hset⟩ := (hruns.inUser hmem).handlerSet slots hruns.loopFits intCode_inProgram hassign
  obtain ⟨childId, k', hfork, -⟩ :=
    (hruns.forkable_set hset).returns hu hset.slots hset.fits intCode.entry
  obtain ⟨g, hstack⟩ := hset.stack
  have hplain : k.entryAt 0 uxstack &&& pteCow = 0 := by
    refine (congrArg (· &&& pteCow) hstack).trans ?_
    rw [mkPte_and g _ (by decide)]
    decide
  exact ⟨k₀, k₁, k, childId, k', hbooted, hrun, ⟨hassign, hfork⟩,
    (fork_keeps_stack_iff hu hset.slots hset.fits hfork).mpr ⟨hset.zero, .inr hplain⟩⟩

/-- One byte on the exception stack is lost. -/
theorem fork_loses_stack : ∃ k₀ k₁ k₂ k childId k', Booted qemu [intProgram] k₀ ∧
    Run SafeStep k₀ k₁ ∧ (do
      setPgfaultHandler 0 true intCode.entry
      storeWord 0 intCode.handler intCode.pgfault) k₁ = .ret () k₂ ∧
    store 0 uxstack 1 k₂ = .ret () k ∧ fork 0 0 false intCode.entry k = .ret childId k' ∧
    k.viewAt 0 uxstack = some 1 ∧ k'.viewAt 0 uxstack = some 0 ∧
    ¬ KeepsStack k 0 (envx childId) k' := by
  obtain ⟨k₀, k₁, d, L, hbooted, hrun, hruns, hmem, slots⟩ := qemu_first
  obtain ⟨k₂, hassign⟩ := hruns.setsHandler hmem
  obtain ⟨hu₂, hset⟩ := (hruns.inUser hmem).handlerSet slots hruns.loopFits intCode_inProgram hassign
  obtain ⟨⟨g, hg⟩, hpte⟩ := hset.handles.stack
  have hstore := store_page hu₂.cr3 ((hu₂.userPage_iff (by decide)).mpr ⟨hg, hpte⟩) 1
  obtain ⟨hk, hbyte, -⟩ := hu₂.rewritten (by decide) hstore
  obtain ⟨childId, k', hfork, g₁, g₂, hforked⟩ := (hk.forkable (hruns.forkable_set hset)).returns
    (hk.inUser hu₂) (hk.slots hset.slots) (hk.loopFits hset.fits) intCode.entry
  have hon : OnStack uxstack := ⟨rfl, rfl⟩
  have hzero := (hforked.zeroStacks hon).1
  refine ⟨k₀, k₁, k₂, _, childId, k', hbooted, hrun, hassign, hstore, hfork, hbyte, hzero,
    fun hkeeps => ?_⟩
  have hsame := hkeeps.kept uxstack ⟨rfl, rfl⟩
  rw [hzero, hbyte] at hsame
  exact absurd hsame (by decide)

end Jos
