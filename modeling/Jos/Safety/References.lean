import Jos.Boot.Program
import Jos.Safety.Holding

/-!
# Reference counts are exact

`pp_ref` of a page that the allocator manages is the number of page table entries
that map it, of directory entries that use it as a page table, and of environments
whose page directory it is. What counts for nobody, and is in nobody's hand, is
free; so `env_free` gives back everything that only its environment used.
-/

namespace Jos

open Prog

/-- The slots of all address spaces, by kind. -/
theorem refCount_slots {t : Slot EnvIdx → Option Nat} (f : Nat) :
    refCount t f = {x : EnvIdx × Idx × Idx | t (.pte x.1 x.2.1 x.2.2) = some f}.ncard +
      {x : EnvIdx × Idx | t (.pde x.1 x.2) = some f}.ncard + {e | t (.dir e) = some f}.ncard := by
  let pte : EnvIdx × Idx × Idx → Slot EnvIdx := fun x => .pte x.1 x.2.1 x.2.2
  let pde : EnvIdx × Idx → Slot EnvIdx := fun x => .pde x.1 x.2
  have hsplit : {s | t s = some f} = pte '' {x | t (pte x) = some f} ∪
      pde '' {x | t (pde x) = some f} ∪ Slot.dir '' {e | t (.dir e) = some f} := by
    ext s
    cases s with
    | dir e => simp [pte, pde]
    | pde e i => simp [pte, pde]
    | pte e i j => simp [pte, pde]
  have hpte : pte.Injective := by
    rintro ⟨e, i, j⟩ ⟨e', i', j'⟩ h
    simpa [pte] using h
  have hpde : pde.Injective := by
    rintro ⟨e, i⟩ ⟨e', i'⟩ h
    simpa [pde] using h
  have hdir : (Slot.dir (ι := EnvIdx)).Injective := fun e e' h => Slot.dir.inj h
  rw [refCount, hsplit, Set.ncard_union_eq, Set.ncard_union_eq,
    Set.ncard_image_of_injective _ hpte, Set.ncard_image_of_injective _ hpde,
    Set.ncard_image_of_injective _ hdir]
  · rw [Set.disjoint_left]
    rintro _ ⟨x, -, rfl⟩ ⟨y, -, hy⟩
    simp [pte, pde] at hy
  · rw [Set.disjoint_left]
    rintro _ (⟨x, -, rfl⟩ | ⟨x, -, rfl⟩) ⟨y, -, hy⟩ <;> simp [pte, pde] at hy

namespace Kernel

/-- The present page table entries below `UTOP` that map `f`, by environment and indices. -/
def mappings (k : Kernel) (f : Nat) : Set (EnvIdx × Idx × Idx) :=
  {x | ∃ d, k.dirs x.1 = some d ∧ pgaddr x.2.1 x.2.2 < utop ∧
    k.phys.Maps d (pgaddr x.2.1 x.2.2) f}

/-- The present directory entries below `UTOP` that name `f` as a page table. -/
def tableEntries (k : Kernel) (f : Nat) : Set (EnvIdx × Idx) :=
  {x | ∃ d, k.dirs x.1 = some d ∧ x.2.val < userPdes ∧ k.phys.word d x.2 &&& pteP ≠ 0 ∧
    pgnum (k.phys.word d x.2) = f}

/-- `f` is the page directory of a live environment. -/
def IsDirectory (k : Kernel) (f : Nat) : Prop := ∃ e, k.status e ≠ .free ∧ k.dirs e = some f

/-- The environment maps `f`, or it is one of its tables. -/
def Uses (k : Kernel) (e : EnvIdx) (f : Nat) : Prop :=
  (∃ i j, (e, i, j) ∈ k.mappings f) ∨ (∃ i, (e, i) ∈ k.tableEntries f) ∨ k.dirs e = some f

variable {k : Kernel} {e : EnvIdx} {f : Nat}

theorem mem_mappings {i j : Idx} :
    (e, i, j) ∈ k.mappings f ↔ k.phys.target k.dirs (.pte e i j) = some f := by
  have hbelow : pgaddr i j < utop ↔ i.val < userPdes := by
    rw [← pdx_lt_iff, pdx_pgaddr]
  constructor
  · rintro ⟨d, hd, hva, hmaps⟩
    have ht := (Phys.maps_iff hd hva).mp hmaps
    rwa [pdx_pgaddr, ptx_pgaddr] at ht
  · intro ht
    obtain ⟨t, htable, -⟩ := Phys.table_of_page ht
    obtain ⟨d, hd, hi, -⟩ := Phys.dir_of_table htable
    refine ⟨d, hd, hbelow.mpr hi, (Phys.maps_iff hd (hbelow.mpr hi)).mpr ?_⟩
    rwa [pdx_pgaddr, ptx_pgaddr]

theorem mem_tableEntries {i : Idx} :
    (e, i) ∈ k.tableEntries f ↔ k.phys.target k.dirs (.pde e i) = some f := by
  constructor
  · rintro ⟨d, hd, hi, hp, rfl⟩
    dsimp only at hd hi hp
    rw [Phys.target, Phys.pdeAt_of_dir hd hi, entryFrame, if_pos hp]
  · intro ht
    obtain ⟨d, hd, hi, hentry⟩ := Phys.dir_of_table ht
    rw [entryFrame] at hentry
    split at hentry
    · rename_i hp
      exact ⟨d, hd, hi, hp, Option.some.inj hentry⟩
    · simp at hentry

/-- Using a page is referring to it. -/
theorem uses_iff : k.Uses e f ↔ ∃ s, k.phys.target k.dirs s = some f ∧
    (s = .dir e ∨ (∃ i, s = .pde e i) ∨ ∃ i j, s = .pte e i j) := by
  simp only [Uses, mem_mappings, mem_tableEntries]
  constructor
  · rintro (⟨i, j, h⟩ | ⟨i, h⟩ | h)
    · exact ⟨_, h, .inr (.inr ⟨i, j, rfl⟩)⟩
    · exact ⟨_, h, .inr (.inl ⟨i, rfl⟩)⟩
    · exact ⟨.dir e, h, .inl rfl⟩
  · rintro ⟨s, h, rfl | ⟨i, rfl⟩ | ⟨i, j, rfl⟩⟩
    · exact .inr (.inr h)
    · exact .inr (.inl ⟨i, h⟩)
    · exact .inl ⟨i, j, h⟩

/-- Every slot belongs to an environment. -/
theorem uses_of_target {s : Slot EnvIdx} (h : k.phys.target k.dirs s = some f) :
    ∃ e, k.Uses e f := by
  cases s with
  | dir e => exact ⟨e, uses_iff.mpr ⟨_, h, .inl rfl⟩⟩
  | pde e i => exact ⟨e, uses_iff.mpr ⟨_, h, .inr (.inl ⟨i, rfl⟩)⟩⟩
  | pte e i j => exact ⟨e, uses_iff.mpr ⟨_, h, .inr (.inr ⟨i, j, rfl⟩)⟩⟩

end Kernel

namespace MemInv

variable {L : Layout} {k : Kernel} {f : Nat}

open scoped Classical in
/-- Nobody shares a page directory. -/
theorem directories (h : MemInv L k) (f : Nat) :
    {e | k.phys.target k.dirs (.dir e) = some f}.ncard = if k.IsDirectory f then 1 else 0 := by
  split
  · rename_i hdir
    obtain ⟨e, -, he⟩ := hdir
    rw [Set.ncard_eq_one]
    refine ⟨e, Set.eq_singleton_iff_unique_mem.mpr ⟨he, fun e' he' => ?_⟩⟩
    exact h.phys.tables.unshared.dir_inj he' he
  · rename_i hnone
    rw [Set.ncard_eq_zero, Set.eq_empty_iff_forall_notMem]
    intro e he
    refine hnone ⟨e, fun hfree => ?_, he⟩
    have hd : k.dirs e = some f := he
    rw [(h.live e).mp hfree] at hd
    simp at hd

open scoped Classical in
theorem ref_eq (h : MemInv L k) (hf : L.owned f) : (k.phys.ref f).toNat =
    (k.mappings f).ncard + (k.tableEntries f).ncard + if k.IsDirectory f then 1 else 0 := by
  have hpte : k.mappings f = {x | k.phys.target k.dirs (.pte x.1 x.2.1 x.2.2) = some f} :=
    Set.ext fun _ => Kernel.mem_mappings
  have hpde : k.tableEntries f = {x | k.phys.target k.dirs (.pde x.1 x.2) = some f} :=
    Set.ext fun _ => Kernel.mem_tableEntries
  rw [h.phys.counts.counted f hf, inFlight_none, refCount_slots, hpte, hpde, h.directories]
  rfl

end MemInv

namespace HoldInv

variable {L : Layout} {k : Kernel} {hand : List Nat} {e : EnvIdx} {f : Nat}

open scoped Classical in
theorem ref_eq (h : HoldInv L hand k) (hf : L.owned f) : (k.phys.ref f).toNat =
    (k.mappings f).ncard + (k.tableEntries f).ncard + if k.IsDirectory f then 1 else 0 :=
  h.mem.ref_eq hf

theorem freeList (h : HoldInv L hand k) :
    ∃ l, IsList k.phys.link k.phys.pageFreeList l ∧ l.Nodup ∧
      ∀ f, f ∈ l ↔ L.owned f ∧ k.phys.ref f = 0 ∧ f ∉ hand := by
  obtain ⟨l, hl, -⟩ := h.mem.phys.counts.free
  refine ⟨l, hl, hl.nodup, fun f => ?_⟩
  rw [← hl.linked_iff, h.held]
  constructor
  · intro hlisted
    obtain ⟨howned, href⟩ := h.mem.phys.counts.ref_of_listed hlisted
    exact ⟨howned, href, fun hlost => hlost.2.2 hlisted⟩
  · rintro ⟨howned, href, hhand⟩
    by_contra hlisted
    exact hhand ⟨howned, href, hlisted⟩

/-- `env_free` frees what only its environment used. -/
theorem envFree_frees (h : HoldInv L hand k) (c : Nat) (hlive : k.status e ≠ .free) :
    ∃ k', Jos.envFree c e k = .ret () k' ∧
      ∀ f, k.Uses e f → (∀ e', k.Uses e' f → e' = e) → k'.phys.Listed f := by
  obtain ⟨_, k', hrun, hmem, hnone, hshed⟩ := exists_of_wp (h.mem.envFree_shrinks (c := c) hlive)
  refine ⟨k', hrun, fun f huses honly => ?_⟩
  obtain ⟨s, hs, -⟩ := Kernel.uses_iff.mp huses
  have howned := h.mem.phys.tables.owned s f hs
  -- nothing refers to the page any more
  have hfresh : ∀ s', k'.phys.target k'.dirs s' ≠ some f := by
    intro s' hs'
    obtain ⟨e', he'⟩ := Kernel.uses_of_target (k := k') hs'
    obtain ⟨s₁, ht, hkind⟩ := Kernel.uses_iff.mp he'
    obtain rfl : e' = e := honly e' (Kernel.uses_iff.mpr ⟨s₁, hshed.target s₁ f ht, hkind⟩)
    have hpde : ∀ i, k'.phys.target k'.dirs (.pde e' i) = none := by
      intro i
      rw [Phys.target, Phys.pdeAt, hnone]
      exact entryFrame_zero
    rcases hkind with rfl | ⟨i, rfl⟩ | ⟨i, j, rfl⟩
    · rw [Phys.target, hnone] at ht
      simp at ht
    · rw [hpde] at ht
      simp at ht
    · obtain ⟨t, htable, -⟩ := Phys.table_of_page ht
      rw [hpde] at htable
      simp at htable
  have hzero := hmem.phys.counts.ref_eq_zero howned hfresh
  by_contra hlisted
  have hlost := (wp_ret hrun).mp (envFree_lost k c e) f ⟨hzero, hlisted⟩
  exact h.mem.phys.counts.ref_ne_zero howned hs hlost.1

end HoldInv

open scoped Classical in
/-- In every run in which no page gets 65536 references, for every page that is not reserved
at boot. -/
theorem page_counts_exact {m : Machine} {k₀ k : Kernel} {hand : List Nat}
    (booted : Booted m [] k₀) (run : PageRun (fun k op => op.Sane k) k₀ k hand) :
    (∀ f, k₀.phys.Listed f → (k.phys.ref f).toNat =
      (k.mappings f).ncard + (k.tableEntries f).ncard + if k.IsDirectory f then 1 else 0) ∧
    (∃ l, IsList k.phys.link k.phys.pageFreeList l ∧ l.Nodup ∧
      ∀ f, f ∈ l ↔ k₀.phys.Listed f ∧ k.phys.ref f = 0 ∧ f ∉ hand) ∧
    (∀ op : PageOp, op.Legal k hand → op.Sane k → ∃ hand' k', op.exec hand k = .ret hand' k') ∧
    ∀ c e, k.status e ≠ .free → ∃ k', envFree c e k = .ret () k' ∧
      ∀ f, k.Uses e f → (∀ e', k.Uses e' f → e' = e) → k'.phys.Listed f := by
  obtain ⟨L, -, hstart, howned⟩ := booted.holdInv
  have h := hstart.run run
  refine ⟨fun f hf => h.ref_eq ((howned f).mpr hf), ?_, fun op legal sane => ?_,
    fun c e hlive => h.envFree_frees c hlive⟩
  · simp only [← howned]
    exact h.freeList
  · obtain ⟨hand', k', hrun, -⟩ := exists_of_wp (h.exec legal sane)
    exact ⟨hand', k', hrun⟩

/-- The environment 0 has the directory `d` and maps nothing; 1 would be the next one. -/
structure FreshEnv (d : Nat) (k : Kernel) : Prop where
  pgdir : k.dirs 0 = some d
  used : k.status 0 ≠ .free
  unmapped : ∀ i j, k.phys.pteAt k.dirs 0 i j = 0
  slots : k.envFreeList = some 1
  free : k.phys.FreePages 3

/-- It maps the page `f` at `0x800000` and nothing else. -/
structure FirstPage (d f : Nat) (k : Kernel) : Prop where
  pgdir : k.dirs 0 = some d
  used : k.status 0 ≠ .free
  page_lt : f < 1048576
  mapped : k.entryAt 0 0x800000 = mkPte f (pteU ||| pteW)
  unmapped : ∀ i j, ¬ (i = 2 ∧ j = 0) → k.phys.pteAt k.dirs 0 i j = 0
  slots : k.envFreeList = some 1
  free : k.phys.FreePages 1

theorem FirstPage.pageAt {d f : Nat} {k : Kernel} (h : FirstPage d f k) :
    k.pageAt 0 0x800000 = some f := by
  have hentry : k.phys.pteAt k.dirs 0 (pdx 0x800000) (ptx 0x800000) = mkPte f (pteU ||| pteW) :=
    h.mapped
  rw [Kernel.pageAt, Phys.target, hentry, entryFrame_mkPte h.page_lt (by decide)]

/-- The first `env_alloc` of a machine without programs. -/
theorem qemu_freshEnv : ∃ k₀ k d, Booted qemu [] k₀ ∧
    PageRun (fun k op => op.Sane k) k₀ k [] ∧ FreshEnv d k := by
  obtain ⟨n, l, p, htree, hlen, hbooted⟩ := qemu.builds (r := 4) (by decide) (by decide) (by decide)
  have booted := hbooted [] _ rfl
  obtain ⟨hphys, -, -, hslot, hnext, hzero, -⟩ := envInit_spec qemu.toHardware p
  generalize envInit qemu.toHardware p = k₀ at booted hphys hslot hnext hzero
  have hroom : k₀.phys.FreePages 4 := by
    rw [hphys]
    exact ⟨l, htree.free, hlen⟩
  obtain ⟨L, -, h₀, -⟩ := booted.holdInv
  have hnone : k₀.dirs 0 = none := congrArg Env.pgdir (hzero 0)
  obtain ⟨d, hd⟩ := hroom.head
  have hlt := h₀.mem.phys.lt_npages (h₀.mem.phys.alloc hd true).2.1.owned
  have hrun : PageOp.exec [] (.envAlloc 0) k₀ =
      .ret [] { k₀.created 0 0 d with phys := k₀.phys.newDir k₀.kernPgdir d } :=
    bind_ret _ (envAlloc_run 0 hslot hd hlt h₀.mem.phys.npages_le)
  have hdirs : ({ k₀.created 0 0 d with phys := k₀.phys.newDir k₀.kernPgdir d } : Kernel).dirs =
      Function.update k₀.dirs 0 (some d) := by
    funext e
    by_cases he : e = 0
    · subst he
      simp [Kernel.dirs, Kernel.created]
    · simp [Kernel.dirs, Kernel.created, Kernel.setEnv, Function.update_of_ne he]
  refine ⟨k₀, _, d, booted, .step (.envAlloc 0) .start trivial trivial hrun, ?_, ?_, fun i j => ?_,
    hnext, newDir_freePages hroom hd⟩
  · rw [hdirs, Function.update_self]
  · simp [Kernel.status, Kernel.created]
  · rw [hdirs, h₀.mem.kern, (h₀.mem.phys.newDir hd hnone).2.1]
    exact Phys.pteAt_of_none (by simp [Phys.target, Phys.pdeAt, hnone])

/-- A page is allocated and mapped. -/
theorem FreshEnv.mapPage {L : Layout} {k₀ k : Kernel} {d : Nat} (h : FreshEnv d k)
    (hold : HoldInv L [] k) (run : PageRun (fun k op => op.Sane k) k₀ k []) :
    ∃ k' f, PageRun (fun k op => op.Sane k) k₀ k' [] ∧ FirstPage d f k' := by
  rcases MemInv.userPageAlloc_spec hold.mem.phys false with
    ⟨-, hnone⟩ | ⟨f, q, hrun₁, hq, -, -, href, hmap, hkeeps, hfree₁⟩
  · obtain ⟨g, hg⟩ := h.free.head
    rw [hnone] at hg
    simp at hg
  have run₁ : PageRun (fun k op => op.Sane k) k₀ { k with phys := q } [f] :=
    .step (.pageAlloc false) run trivial trivial (bind_ret _ (pmap_ret hrun₁))
  have hmem : MemInv L { k with phys := q } := hold.mem.of_phys hq
  have hsane : ({ k with phys := q } : Kernel).pageAt 0 0x800000 = some f ∨ q.ref f ≠ 65535 :=
    .inr (by rw [href]; decide)
  have hfree₁ := hfree₁ 2 h.free
  have hva : (0x800000 : Word) < utop := by decide
  have hperm : (pteU ||| pteW).toNat < 4096 := by decide
  obtain ⟨r, k₂, hrun₂, hends, hcases⟩ := hmem.insertInto_spec h.used hva hperm hmap hsane
  rcases hcases with ⟨-, -, hnone⟩ | ⟨rfl, hedit, hfree₂⟩
  · obtain ⟨g, hg⟩ := hfree₁.head
    rw [hnone] at hg
    simp at hg
  have hexec : PageOp.exec [f] (.insert 0 f 0x800000 (pteU ||| pteW)) { k with phys := q } =
      .ret [] k₂ := by
    rw [PageOp.exec, bind_ret _ hrun₂, if_pos rfl]
    simp
  have hlegal : (PageOp.insert 0 f 0x800000 (pteU ||| pteW)).Legal { k with phys := q } [f] :=
    ⟨h.used, by decide, by decide, .inl (by simp)⟩
  have hidx : pdx 0x800000 = 2 ∧ ptx 0x800000 = 0 := by decide
  have hlt := hmem.phys.lt_npages hmap.owned
  have hn := hmem.phys.npages_le
  refine ⟨k₂, f, .step _ run₁ hlegal hsane hexec, ?_⟩
  rw [hends.1]
  refine ⟨h.pgdir, h.used, by omega, hedit.pteAt_self, fun i j hne => ?_, h.slots, hfree₂ 1 hfree₁⟩
  have hrest := hedit.pteAt_of_ne 0 i j (by rw [hidx.1, hidx.2]; exact fun heq => hne heq.2)
  exact hrest.trans ((hkeeps.pteAt 0 i j).trans (h.unmapped i j))

/-- Three operations lead to an environment with one page. -/
theorem qemu_firstPage : ∃ k₀ k d f, Booted qemu [] k₀ ∧
    PageRun (fun k op => op.Sane k) k₀ k [] ∧ FirstPage d f k := by
  obtain ⟨k₀, k, d, booted, run, hfresh⟩ := qemu_freshEnv
  obtain ⟨L, -, h₀, -⟩ := booted.holdInv
  obtain ⟨k', f, run', hpage⟩ := hfresh.mapPage (h₀.run run) run
  exact ⟨k₀, k', d, f, booted, run', hpage⟩

/-- The page directory of the environment 0 is freed with it. -/
theorem page_counts_exact_firstPage : ∃ k₀ k k' d f, Booted qemu [] k₀ ∧
    PageRun (fun k op => op.Sane k) k₀ k [] ∧ FirstPage d f k ∧
    envFree 0 0 k = .ret () k' ∧ k'.phys.Listed d := by
  obtain ⟨k₀, k, d, f, booted, run, hpage⟩ := qemu_firstPage
  obtain ⟨L, -, h₀, -⟩ := booted.holdInv
  have hunshared := (h₀.run run).mem.phys.tables.unshared
  obtain ⟨-, -, -, hfrees⟩ := page_counts_exact booted run
  obtain ⟨k', hrun, hlisted⟩ := hfrees 0 0 hpage.used
  refine ⟨k₀, k, k', d, f, booted, run, hpage, hrun,
    hlisted d (.inr (.inr hpage.pgdir)) fun e' huses => ?_⟩
  obtain ⟨s, hs, hkind⟩ := Kernel.uses_iff.mp huses
  rcases hunshared s (.dir 0) d hs hpage.pgdir with rfl | ⟨-, i, j, j', hdir⟩
  · simpa [eq_comm] using hkind
  · simp at hdir

end Jos
