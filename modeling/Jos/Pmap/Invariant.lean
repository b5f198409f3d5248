import Jos.Pmap.Run

/-!
# The invariant of the memory manager

`Tables` is about the contents of memory: page tables and directories are not
shared with each other or with mapped pages, everything the user half refers to
is managed by the allocator, the kernel's half of each directory is the one that
booting built, and reserved pages keep their contents. Together with `Counts` it
is the invariant `Inv` of the memory manager.

There is one lemma for each way a single write can change the tree; the system
calls are sequences of these.
-/

namespace Jos

open Prog

namespace Phys

variable {ι : Type}

structure Tables (L : Layout) (dirs : ι → Option Nat) (p : Phys) : Prop where
  owned : ∀ s f, p.target dirs s = some f → L.owned f
  unshared : p.Unshared dirs
  /-- Directory entries do not restrict what the entries below them allow. -/
  userPde : ∀ e i, p.target dirs (.pde e i) ≠ none →
    p.pdeAt dirs e i &&& pteU ≠ 0 ∧ p.pdeAt dirs e i &&& pteW ≠ 0
  kernHalf : ∀ e d (i : Idx), dirs e = some d → userPdes ≤ i.val → i ≠ pdx uvpt →
    p.word d i = L.boot.word L.kern i
  selfMap : ∀ e d, dirs e = some d → p.word d (pdx uvpt) = page2pa d ||| pteP ||| pteU
  frozen : ∀ f, ¬ L.owned f → p.mem f = L.boot.mem f
  userPages : ∀ e i j f, p.target dirs (.pte e i j) = some f → f ∈ p.userPages
  /-- An entry that is not present is empty. -/
  clean : ∀ e i j, p.target dirs (.pte e i j) = none → p.pteAt dirs e i j = 0

/-- The invariant, with a reference to `o` in flight. -/
structure Inv (L : Layout) (dirs : ι → Option Nat) (o : Option Nat) (p : Phys) : Prop where
  npages : p.npages = L.boot.npages
  tables : p.Tables L dirs
  counts : Counts L (p.target dirs) o p

variable {L : Layout} {dirs : ι → Option Nat} {p q : Phys} {e : ι} {i j : Idx} {d t f : Nat}
  {w : Word} {o : Option Nat}

namespace Tables

theorem dir_owned (h : p.Tables L dirs) (hd : dirs e = some d) : L.owned d := h.owned (.dir e) d hd

/-- Changes outside memory do not matter. -/
theorem congr (h : p.Tables L dirs) (hmem : q.mem = p.mem) (huser : q.userPages = p.userPages) :
    q.Tables L dirs := by
  have hpde : ∀ e i, q.pdeAt dirs e i = p.pdeAt dirs e i :=
    fun e i => pdeAt_congr fun f _ => by rw [hmem]
  have hpte : ∀ e i j, q.pteAt dirs e i j = p.pteAt dirs e i j :=
    fun e i j => pteAt_congr fun f _ => by rw [hmem]
  have ht : q.target dirs = p.target dirs := target_congr fun f _ => by rw [hmem]
  have hword : ∀ f i, q.word f i = p.word f i := fun f i => p.word_congr (by rw [hmem])
  constructor
  · rw [ht]
    exact h.owned
  · rw [Unshared, ht]
    exact h.unshared
  · intro e i
    rw [ht, hpde]
    exact h.userPde e i
  · intro e d i
    rw [hword]
    exact h.kernHalf e d i
  · intro e d
    rw [hword]
    exact h.selfMap e d
  · rw [hmem]
    exact h.frozen
  · rw [ht, huser]
    exact h.userPages
  · intro e i j
    rw [ht, hpte]
    exact h.clean e i j

/-- New contents for a managed page that is not part of any tree's structure. -/
theorem setPage (h : p.Tables L dirs) (hf : L.owned f) (hs : ¬ p.Structural dirs f)
    (page : Page) : (p.setPage f page).Tables L dirs := by
  have hmem : ∀ g, p.Structural dirs g → (p.setPage f page).mem g = p.mem g := by
    intro g hg
    refine p.mem_setPage_of_ne page ?_
    rintro rfl
    exact hs hg
  have hpde : ∀ e i, (p.setPage f page).pdeAt dirs e i = p.pdeAt dirs e i :=
    fun e i => pdeAt_congr hmem
  have ht : (p.setPage f page).target dirs = p.target dirs := target_congr hmem
  have hword : ∀ e d i, dirs e = some d → (p.setPage f page).word d i = p.word d i :=
    fun e d i hd => p.word_congr (hmem d (.inl ⟨e, hd⟩))
  constructor
  · rw [ht]
    exact h.owned
  · rw [Unshared, ht]
    exact h.unshared
  · intro e i
    rw [ht, hpde]
    exact h.userPde e i
  · intro e d i hd
    rw [hword e d i hd]
    exact h.kernHalf e d i hd
  · intro e d hd
    rw [hword e d _ hd]
    exact h.selfMap e d hd
  · intro g hg
    rw [p.mem_setPage_of_ne page (by rintro rfl; exact hg hf)]
    exact h.frozen g hg
  · rw [ht]
    exact h.userPages
  · intro e i j
    rw [ht, pteAt_congr hmem]
    exact h.clean e i j

variable [DecidableEq ι]

/-- A page table entry may be cleared, or refer to a page that is no table. -/
theorem setPte (h : p.Tables L dirs) (ht : p.target dirs (.pde e i) = some t)
    (hw : ∀ f, entryFrame w = some f → L.owned f ∧ ¬ p.Structural dirs f ∧ f ∈ p.userPages)
    (hclean : entryFrame w = none → w = 0) : (p.setWord t j w).Tables L dirs := by
  have htarget := target_setPte (j := j) (w := w) h.unshared ht
  have hpde := pdeAt_setPte (j := j) (w := w) h.unshared ht
  have hword : ∀ e' d i', dirs e' = some d → (p.setWord t j w).word d i' = p.word d i' :=
    fun e' d i' hd => p.word_congr (p.mem_setWord_of_ne w (h.unshared.dir_ne_table hd ht).symm)
  -- the only slot whose target changes is a page table entry
  have hcases : ∀ s f, (p.setWord t j w).target dirs s = some f →
      (s = .pte e i j ∧ entryFrame w = some f) ∨ p.target dirs s = some f := by
    intro s f hs
    rw [htarget] at hs
    by_cases heq : s = .pte e i j
    · subst heq
      exact .inl ⟨rfl, by simpa using hs⟩
    · exact .inr (by rwa [Function.update_of_ne heq] at hs)
  have hpte : ∀ s f, p.target dirs s = some f → entryFrame w = some f →
      ∃ e i j, s = .pte e i j := by
    intro s f hs hf
    cases s with
    | dir e' => exact absurd (.inl ⟨e', hs⟩) (hw f hf).2.1
    | pde e' i' => exact absurd (.inr ⟨e', i', hs⟩) (hw f hf).2.1
    | pte e' i' j' => exact ⟨e', i', j', rfl⟩
  constructor
  · intro s f hs
    rcases hcases s f hs with ⟨-, hf⟩ | hs
    · exact (hw f hf).1
    · exact h.owned s f hs
  · intro s s' f hs hs'
    rcases hcases s f hs with ⟨rfl, hf⟩ | hs <;> rcases hcases s' f hs' with ⟨rfl, hf'⟩ | hs'
    · exact .inl rfl
    · exact .inr ⟨⟨e, i, j, rfl⟩, hpte s' f hs' hf⟩
    · exact .inr ⟨hpte s f hs hf', ⟨e, i, j, rfl⟩⟩
    · exact h.unshared s s' f hs hs'
  · intro e' i'
    rw [hpde, target, hpde]
    exact h.userPde e' i'
  · intro e' d i' hd
    rw [hword e' d i' hd]
    exact h.kernHalf e' d i' hd
  · intro e' d hd
    rw [hword e' d _ hd]
    exact h.selfMap e' d hd
  · intro g hg
    have hne : g ≠ t := by
      rintro rfl
      exact hg (h.owned _ _ ht)
    rw [p.mem_setWord_of_ne w hne]
    exact h.frozen g hg
  · intro e' i' j' f hs
    rcases hcases _ f hs with ⟨-, hf⟩ | hs
    · exact (hw f hf).2.2
    · exact h.userPages e' i' j' f hs
  · intro e' i' j'
    rw [htarget, pteAt_setPte h.unshared ht]
    by_cases heq : e' = e ∧ i' = i ∧ j' = j
    · obtain ⟨rfl, rfl, rfl⟩ := heq
      rw [Function.update_self, if_pos ⟨rfl, rfl, rfl⟩]
      exact hclean
    · rw [Function.update_of_ne fun hs => heq (Slot.pte.inj hs), if_neg heq]
      exact h.clean e' i' j'

/-- A page with a single reference is not shared. -/
theorem unshared_update (h : p.Unshared dirs) {s₀ : Slot ι} {dirs' : ι → Option Nat}
    (ht : q.target dirs' = Function.update (p.target dirs) s₀ o)
    (fresh : ∀ s f, o = some f → p.target dirs s ≠ some f) : q.Unshared dirs' := by
  intro s s' f hs hs'
  rw [ht] at hs hs'
  by_cases heq : s = s₀ <;> by_cases heq' : s' = s₀
  · exact .inl (heq.trans heq'.symm)
  · rw [heq, Function.update_self] at hs
    rw [Function.update_of_ne heq'] at hs'
    exact absurd hs' (fresh s' f hs)
  · rw [heq', Function.update_self] at hs'
    rw [Function.update_of_ne heq] at hs
    exact absurd hs (fresh s f hs')
  · rw [Function.update_of_ne heq] at hs
    rw [Function.update_of_ne heq'] at hs'
    exact h s s' f hs hs'

/-- A directory entry of the user half changes; the kernel's half does not. -/
theorem setPde (h : p.Tables L dirs) (hd : dirs e = some d) (hi : i.val < userPdes)
    (ht : (p.setWord d i w).target dirs = Function.update (p.target dirs) (.pde e i) o)
    (fresh : ∀ s f, o = some f → p.target dirs s ≠ some f)
    (hw : ∀ f, o = some f → L.owned f ∧ w &&& pteU ≠ 0 ∧ w &&& pteW ≠ 0)
    (hclean : ∀ e' i' j', (p.setWord d i w).target dirs (.pte e' i' j') = none →
      (p.setWord d i w).pteAt dirs e' i' j' = 0) :
    (p.setWord d i w).Tables L dirs := by
  have hpde := pdeAt_setPde (w := w) h.unshared hd hi
  have hpte : ∀ e' i' j', (p.setWord d i w).target dirs (.pte e' i' j') =
      p.target dirs (.pte e' i' j') := by
    intro e' i' j'
    rw [ht, Function.update_of_ne (by simp)]
  have hword : ∀ e' d' (i' : Idx), dirs e' = some d' → userPdes ≤ i'.val →
      (p.setWord d i w).word d' i' = p.word d' i' := by
    intro e' d' i' hd' hi'
    by_cases hdd : d' = d
    · subst hdd
      refine p.word_setWord_of_ne w ?_
      rintro rfl
      omega
    · exact p.word_congr (p.mem_setWord_of_ne w hdd)
  refine ⟨fun s f hs => ?_, unshared_update h.unshared ht fresh, fun e' i' => ?_, ?_, ?_, ?_, ?_,
    ?_⟩
  · rw [ht] at hs
    by_cases heq : s = .pde e i
    · rw [heq, Function.update_self] at hs
      exact (hw f hs).1
    · rw [Function.update_of_ne heq] at hs
      exact h.owned s f hs
  · by_cases heq : e' = e ∧ i' = i
    · obtain ⟨rfl, rfl⟩ := heq
      rw [ht, Function.update_self, hpde, if_pos ⟨rfl, rfl⟩]
      intro ho
      obtain ⟨f, hf⟩ := Option.ne_none_iff_exists'.mp ho
      exact (hw f hf).2
    · rw [ht, Function.update_of_ne fun hs => heq (Slot.pde.inj hs), hpde, if_neg heq]
      exact h.userPde e' i'
  · intro e' d' i' hd' hi' hne
    rw [hword e' d' i' hd' hi']
    exact h.kernHalf e' d' i' hd' hi' hne
  · intro e' d' hd'
    rw [hword e' d' _ hd' (by decide)]
    exact h.selfMap e' d' hd'
  · intro g hg
    have hne : g ≠ d := by
      rintro rfl
      exact hg (h.dir_owned hd)
    rw [p.mem_setWord_of_ne w hne]
    exact h.frozen g hg
  · intro e' i' j' f
    rw [hpte]
    exact h.userPages e' i' j' f
  · exact hclean

/-- A new address space, or the end of one. -/
theorem setDir (h : p.Tables L dirs) {d' : Option Nat}
    (hempty : ∀ i, p.target dirs (.pde e i) = none)
    (ht : p.target (Function.update dirs e d') = Function.update (p.target dirs) (.dir e) d')
    (fresh : ∀ s f, d' = some f → p.target dirs s ≠ some f)
    (hkern : ∀ f, d' = some f → L.owned f ∧
      (∀ i : Idx, userPdes ≤ i.val → i ≠ pdx uvpt → p.word f i = L.boot.word L.kern i) ∧
      p.word f (pdx uvpt) = page2pa f ||| pteP ||| pteU) :
    p.Tables L (Function.update dirs e d') := by
  have hpte : ∀ e' i' j', p.pteAt (Function.update dirs e d') e' i' j' = p.pteAt dirs e' i' j' := by
    intro e' i' j'
    by_cases heq : e' = e
    · subst heq
      rw [pteAt_of_none (hempty i'), pteAt_of_none]
      rw [ht, Function.update_of_ne (by simp)]
      exact hempty i'
    · simp only [pteAt, pdeAt, Function.update_of_ne heq]
  have hsub : ∀ s f, p.target (Function.update dirs e d') s = some f →
      (s = .dir e ∧ d' = some f) ∨ p.target dirs s = some f := by
    intro s f hs
    rw [ht] at hs
    by_cases heq : s = .dir e
    · rw [heq, Function.update_self] at hs
      exact .inl ⟨heq, hs⟩
    · exact .inr (by rwa [Function.update_of_ne heq] at hs)
  have hdirs : ∀ e' f, Function.update dirs e d' e' = some f → d' = some f ∨ dirs e' = some f := by
    intro e' f hf
    by_cases heq : e' = e
    · rw [heq, Function.update_self] at hf
      exact .inl hf
    · exact .inr (by rwa [Function.update_of_ne heq] at hf)
  refine ⟨fun s f hs => ?_, unshared_update h.unshared ht fresh, fun e' i' => ?_, ?_, ?_,
    h.frozen, ?_, ?_⟩
  · rcases hsub s f hs with ⟨-, hf⟩ | hs
    · exact (hkern f hf).1
    · exact h.owned s f hs
  · rw [ht, Function.update_of_ne (by simp)]
    intro hne
    by_cases heq : e' = e
    · exact absurd (heq ▸ hempty i') hne
    · have : p.pdeAt (Function.update dirs e d') e' i' = p.pdeAt dirs e' i' := by
        simp only [pdeAt, Function.update_of_ne heq]
      rw [this]
      exact h.userPde e' i' hne
  · intro e' f i' hf hi' hne
    rcases hdirs e' f hf with hf | hf
    · exact (hkern f hf).2.1 i' hi' hne
    · exact h.kernHalf e' f i' hf hi' hne
  · intro e' f hf
    rcases hdirs e' f hf with hf | hf
    · exact (hkern f hf).2.2
    · exact h.selfMap e' f hf
  · intro e' i' j' f hs
    rcases hsub _ f hs with ⟨hs, -⟩ | hs
    · simp at hs
    · exact h.userPages e' i' j' f hs
  · intro e' i' j'
    rw [ht, Function.update_of_ne (by simp), hpte]
    exact h.clean e' i' j'

end Tables

namespace Inv

/-! ### The `pages[]` array -/

theorem lt_npages (h : Inv L dirs o p) (hf : L.owned f) : f < p.npages := by
  rw [h.npages]
  exact L.owned_lt f hf

theorem npages_le (h : Inv L dirs o p) : p.npages ≤ 65536 := by
  rw [h.npages]
  exact L.npages_le

theorem incref (h : Inv L dirs none p) (hf : L.owned f) (hn : ¬ p.Listed f)
    (hmax : p.ref f ≠ 65535) : Inv L dirs (some f) (p.setRef f (p.ref f + 1)) :=
  ⟨h.npages, h.tables.congr rfl rfl, h.counts.incref hf hn hmax⟩

theorem drop_mem (p : Phys) (f : Nat) : (p.drop f).mem = p.mem := by
  rw [Phys.drop]
  dsimp only
  split <;> rfl

theorem drop_npages (p : Phys) (f : Nat) : (p.drop f).npages = p.npages := by
  rw [Phys.drop]
  dsimp only
  split <;> rfl

theorem drop_userPages (p : Phys) (f : Nat) : (p.drop f).userPages = p.userPages := by
  rw [Phys.drop]
  dsimp only
  split <;> rfl

theorem drop (h : Inv L dirs (some f) p) : Inv L dirs none (p.drop f) := by
  have ht : (p.drop f).target dirs = p.target dirs := target_congr fun g _ => by rw [drop_mem]
  refine ⟨(drop_npages p f).trans h.npages, h.tables.congr (drop_mem p f) (drop_userPages p f), ?_⟩
  rw [ht]
  exact h.counts.drop

theorem recordUserPage (h : Inv L dirs o p) (l : List Nat) :
    Inv L dirs o { p with userPages := l ++ p.userPages } := by
  have ht : ({ p with userPages := l ++ p.userPages } : Phys).target dirs = p.target dirs :=
    target_congr fun _ _ => rfl
  have hc := h.tables.congr (q := { p with userPages := p.userPages }) rfl rfl
  refine ⟨h.npages, ⟨hc.owned, hc.unshared, hc.userPde, hc.kernHalf, hc.selfMap, hc.frozen, ?_,
    hc.clean⟩, ?_⟩
  · intro e i j f hf
    exact List.mem_append_right l (h.tables.userPages e i j f hf)
  · exact h.counts.congr rfl rfl

/-! ### Memory -/

theorem setPage (h : Inv L dirs o p) (hf : L.owned f) (hs : ¬ p.Structural dirs f)
    (page : Page) : Inv L dirs o (p.setPage f page) := by
  have ht : (p.setPage f page).target dirs = p.target dirs := by
    refine target_congr fun g hg => p.mem_setPage_of_ne page ?_
    rintro rfl
    exact hs hg
  refine ⟨h.npages, h.tables.setPage hf hs page, ?_⟩
  rw [ht]
  exact h.counts.congr rfl rfl

variable [DecidableEq ι]

/-- New permissions for a page that stays mapped. -/
theorem samePte (h : Inv L dirs o p) (ht : p.target dirs (.pde e i) = some t)
    (hf : p.target dirs (.pte e i j) = some f) (hw : entryFrame w = some f) :
    Inv L dirs o (p.setWord t j w) := by
  rw [← hf] at hw
  refine ⟨h.npages, h.tables.setPte ht (fun g hg => ?_) (by simp [hw, hf]), ?_⟩
  · rw [hw] at hg
    exact ⟨h.tables.owned _ g hg, h.tables.unshared.page_not_structural hg,
      h.tables.userPages e i j g hg⟩
  · rw [target_setPte h.tables.unshared ht, hw, Function.update_eq_self]
    exact h.counts.congr rfl rfl

variable [Finite ι]

/-- The reference in flight goes into an empty page table entry. -/
theorem fillPte (h : Inv L dirs (some f) p) (ht : p.target dirs (.pde e i) = some t)
    (hnone : p.target dirs (.pte e i j) = none) (hw : entryFrame w = some f)
    (hs : ¬ p.Structural dirs f) (huser : f ∈ p.userPages) :
    Inv L dirs none (p.setWord t j w) := by
  refine ⟨h.npages, h.tables.setPte ht (fun g hg => ?_) (by simp [hw]), ?_⟩
  · obtain rfl : f = g := Option.some.inj (hw.symm.trans hg)
    exact ⟨h.counts.flight_owned f rfl, hs, huser⟩
  · rw [target_setPte h.tables.unshared ht, hw]
    exact (h.counts.fill hnone).congr rfl rfl

/-- A page table entry is cleared, and its reference is in flight. -/
theorem clearPte (h : Inv L dirs none p) (ht : p.target dirs (.pde e i) = some t)
    (hf : p.target dirs (.pte e i j) = some f) : Inv L dirs (some f) (p.setWord t j 0) := by
  refine ⟨h.npages, h.tables.setPte ht (fun g hg => ?_) (fun _ => rfl), ?_⟩
  · rw [show entryFrame (0 : Word) = none from entryFrame_zero] at hg
    simp at hg
  · rw [target_setPte h.tables.unshared ht, show entryFrame (0 : Word) = none from entryFrame_zero]
    exact (h.counts.clear (h.tables.owned _ f hf) hf).congr rfl rfl

/-- The reference in flight goes into an empty directory entry, as an empty table. -/
theorem linkTable (h : Inv L dirs (some t) p) (hd : dirs e = some d) (hi : i.val < userPdes)
    (hnone : p.target dirs (.pde e i) = none) (hw : entryFrame w = some t)
    (hU : w &&& pteU ≠ 0) (hW : w &&& pteW ≠ 0) (fresh : ∀ s, p.target dirs s ≠ some t)
    (hzero : ∀ j, p.word t j = 0) : Inv L dirs none (p.setWord d i w) := by
  have hne : t ≠ d := by
    rintro rfl
    exact fresh (.dir e) hd
  have htarget := target_linkTable h.tables.unshared hd hi hnone hw hne hzero
  refine ⟨h.npages, h.tables.setPde hd hi htarget ?_ ?_ ?_, ?_⟩
  · intro s f hf
    rw [← Option.some.inj hf]
    exact fresh s
  · intro f hf
    exact ⟨h.counts.flight_owned f hf, hU, hW⟩
  · intro e' i' j'
    rw [htarget, Function.update_of_ne (by simp),
      pteAt_linkTable h.tables.unshared hd hi hnone hw hne hzero]
    exact h.tables.clean e' i' j'
  · rw [htarget]
    exact (h.counts.fill hnone).congr rfl rfl

/-- A table that maps nothing is taken out of its directory. -/
theorem unlinkTable (h : Inv L dirs none p) (hd : dirs e = some d) (hi : i.val < userPdes)
    (ht : p.target dirs (.pde e i) = some t) (hempty : ∀ j, p.target dirs (.pte e i j) = none) :
    Inv L dirs (some t) (p.setWord d i 0) := by
  have htarget := target_unlinkTable h.tables.unshared hd hi hempty
  refine ⟨h.npages, h.tables.setPde hd hi htarget (by simp) (by simp) ?_, ?_⟩
  · intro e' i' j'
    rw [htarget, Function.update_of_ne (by simp)]
    by_cases heq : e' = e ∧ i' = i
    · obtain ⟨rfl, rfl⟩ := heq
      intro _
      rw [pteAt_of_none]
      rw [htarget, Function.update_self]
    · rw [pteAt_unlinkTable_of_ne h.tables.unshared hd hi heq]
      exact h.tables.clean e' i' j'
  rw [htarget]
  exact (h.counts.clear (h.tables.owned _ t ht) ht).congr rfl rfl

/-- The reference in flight becomes the page directory of `e`. -/
theorem linkDir (h : Inv L dirs (some d) p) (hnone : dirs e = none)
    (fresh : ∀ s, p.target dirs s ≠ some d)
    (hempty : ∀ i : Idx, i.val < userPdes → entryFrame (p.word d i) = none)
    (hkern : ∀ i : Idx, userPdes ≤ i.val → i ≠ pdx uvpt → p.word d i = L.boot.word L.kern i)
    (hself : p.word d (pdx uvpt) = page2pa d ||| pteP ||| pteU) :
    Inv L (Function.update dirs e (some d)) none p := by
  have htarget := target_linkDir hnone hempty
  have hpde : ∀ i, p.target dirs (.pde e i) = none := by
    intro i
    simp [target, pdeAt, hnone]
  refine ⟨h.npages, h.tables.setDir hpde htarget ?_ ?_, ?_⟩
  · intro s f hf
    rw [← Option.some.inj hf]
    exact fresh s
  · intro f hf
    obtain rfl := Option.some.inj hf
    exact ⟨h.counts.flight_owned d rfl, hkern, hself⟩
  · rw [htarget]
    exact h.counts.fill hnone

/-- The page directory of `e` is given up. -/
theorem unlinkDir (h : Inv L dirs none p) (hd : dirs e = some d)
    (hempty : ∀ i, p.target dirs (.pde e i) = none) :
    Inv L (Function.update dirs e none) (some d) p := by
  have htarget := target_unlinkDir hempty
  refine ⟨h.npages, h.tables.setDir hempty htarget (by simp) (by simp), ?_⟩
  rw [htarget]
  exact h.counts.clear (h.tables.dir_owned hd) hd

end Inv

end Phys

end Jos
