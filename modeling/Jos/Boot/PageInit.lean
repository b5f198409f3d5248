import Jos.Boot.Init
import Jos.Pmap.Run

/-!
# What `page_init` frees

The loop of `page_init` for any memory size, any end of base memory and any end of
the kernel. It sorts the pages into the free list and the pages in use. The list
grows at the front, so it is in descending order and its last page is the first one
that was freed. A page above base memory and below the I/O hole is in no range that
the loop knows and ends up on the list: the list is exactly the usable memory if and
only if base memory reaches the hole.
-/

namespace Jos

open Prog

/-- `page_init` with `stop` for `PADDR(boot_alloc(0))/PGSIZE`. -/
def pageInitUpTo (npages npagesBasemem stop : Nat) : Pmap Unit :=
  forRange npages fun i =>
    if i = 0 then reservePage i
    else if i < npagesBasemem then
      if i = mpentryPaddr / pgsize then modify fun p => p.setRef i 1
      else releasePage i
    else if iophysmem / pgsize ≤ i ∧ i < extphysmem / pgsize then reservePage i
    else if extphysmem / pgsize ≤ i ∧ i < stop then reservePage i
    else releasePage i

theorem pageInit_eq (m : Hardware) :
    pageInit m = pageInitUpTo m.npages m.npagesBasemem m.firstFree := rfl

/-- The pages that the loop puts on the free list. -/
def Freed (npages npagesBasemem stop f : Nat) : Prop :=
  f < npages ∧ f ≠ 0 ∧
    (f < npagesBasemem ∧ f ≠ mpentryPaddr / pgsize ∨
      npagesBasemem ≤ f ∧ ¬ (iophysmem / pgsize ≤ f ∧ f < extphysmem / pgsize) ∧
        ¬ (extphysmem / pgsize ≤ f ∧ f < stop))

/-- The pages that the kernel may use: base memory without page 0 and the page at
`MPENTRY_PADDR`, and what follows the kernel. -/
def Usable (npages npagesBasemem stop f : Nat) : Prop :=
  1 ≤ f ∧ f < npagesBasemem ∧ f ≠ mpentryPaddr / pgsize ∨ stop ≤ f ∧ f < npages

theorem reservePage_run (p : Phys) (i : Nat) :
    reservePage i p = .ret () { p with pages := Function.update p.pages i ⟨none, 1⟩ } := by
  rw [reservePage, modify_bind, modify_run]
  simp [Phys.setLink, Phys.setRef]

theorem releasePage_run (p : Phys) (i : Nat) :
    releasePage i p = .ret () { p with
      pages := Function.update p.pages i ⟨p.pageFreeList, 0⟩, pageFreeList := some i } := by
  rw [releasePage, modify_bind, modify_bind, modify_run]
  simp [Phys.setLink, Phys.setRef]

/-- From `p₀`, the first `n` pages are initialised; those that satisfy `S` are on the
free list `l`. -/
structure Sorted (S : Nat → Prop) (p₀ : Phys) (n : Nat) (l : List Nat) (p : Phys) : Prop where
  npages : p.npages = p₀.npages
  userPages : p.userPages = p₀.userPages
  mem : p.mem = p₀.mem
  free : IsList p.link p.pageFreeList l
  listed : ∀ f, f ∈ l ↔ f < n ∧ S f
  descending : l.Pairwise (· > ·)
  ref : ∀ f ∈ l, p.ref f = 0
  reserved : ∀ f < n, ¬ S f → p.ref f = 1 ∧ (p.link f = none ∨ p.link f = p₀.link f)
  rest : ∀ f, n ≤ f → p.pages f = p₀.pages f

namespace Sorted

variable {S : Nat → Prop} {p₀ p q : Phys} {n : Nat} {l : List Nat}

theorem start (h : p₀.pageFreeList = none) : Sorted S p₀ 0 [] p₀ := by
  refine ⟨rfl, rfl, rfl, ?_, fun f => ?_, List.Pairwise.nil, fun f hf => ?_, fun f hf => ?_,
    fun f _ => rfl⟩
  · rw [h]
    exact .nil
  · simp
  · simp at hf
  · exact absurd hf (Nat.not_lt_zero f)

/-- One more page that is in use. -/
theorem reserve (h : Sorted S p₀ n l p) (hn : ¬ S n) {o : Option Nat}
    (ho : o = none ∨ o = p₀.link n) :
    Sorted S p₀ (n + 1) l { p with pages := Function.update p.pages n ⟨o, 1⟩ } := by
  set q : Phys := { p with pages := Function.update p.pages n ⟨o, 1⟩ }
  have hpages : ∀ f, f ≠ n → q.pages f = p.pages f := fun f hf => Function.update_of_ne hf _ _
  have hself : q.pages n = ⟨o, 1⟩ := Function.update_self _ _ _
  have hne : ∀ f ∈ l, f ≠ n := by
    rintro f hf rfl
    exact hn ((h.listed f).mp hf).2
  refine ⟨h.npages, h.userPages, h.mem, ?_, fun f => ?_, h.descending, fun f hf => ?_,
    fun f hlt hf => ?_, fun f hle => ?_⟩
  · exact h.free.congr fun f hf => congrArg PageInfo.link (hpages f (hne f hf))
  · rw [h.listed]
    constructor
    · exact fun ⟨hlt, hf⟩ => ⟨by omega, hf⟩
    · rintro ⟨hlt, hf⟩
      have hfn : f ≠ n := by
        rintro rfl
        exact hn hf
      exact ⟨by omega, hf⟩
  · exact (congrArg PageInfo.ref (hpages f (hne f hf))).trans (h.ref f hf)
  · by_cases hfn : f = n
    · subst hfn
      exact ⟨congrArg PageInfo.ref hself, by rwa [Phys.link, hself]⟩
    · obtain ⟨href, hlink⟩ := h.reserved f (by omega) hf
      exact ⟨(congrArg PageInfo.ref (hpages f hfn)).trans href,
        by rwa [Phys.link, hpages f hfn]⟩
  · exact (hpages f (by omega)).trans (h.rest f (by omega))

/-- One more page on the free list. -/
theorem release (h : Sorted S p₀ n l p) (hn : S n) :
    Sorted S p₀ (n + 1) (n :: l) { p with
      pages := Function.update p.pages n ⟨p.pageFreeList, 0⟩, pageFreeList := some n } := by
  set q : Phys := { p with
    pages := Function.update p.pages n ⟨p.pageFreeList, 0⟩, pageFreeList := some n }
  have hpages : ∀ f, f ≠ n → q.pages f = p.pages f := fun f hf => Function.update_of_ne hf _ _
  have hself : q.pages n = ⟨p.pageFreeList, 0⟩ := Function.update_self _ _ _
  have hlt : ∀ f ∈ l, f < n := fun f hf => ((h.listed f).mp hf).1
  have hfresh : n ∉ l := fun hin => absurd (hlt n hin) (Nat.lt_irrefl n)
  refine ⟨h.npages, h.userPages, h.mem, ?_, fun f => ?_, List.pairwise_cons.mpr ⟨hlt, h.descending⟩,
    fun f hf => ?_, fun f hfn hf => ?_, fun f hle => ?_⟩
  · refine (h.free.push hfresh).congr fun f _ => ?_
    by_cases hne : f = n
    · rw [hne, Function.update_self]
      exact congrArg PageInfo.link hself
    · rw [Function.update_of_ne hne]
      exact congrArg PageInfo.link (hpages f hne)
  · rw [List.mem_cons, h.listed]
    constructor
    · rintro (rfl | ⟨hlt, hf⟩)
      · exact ⟨by omega, hn⟩
      · exact ⟨by omega, hf⟩
    · rintro ⟨hlt, hf⟩
      by_cases hne : f = n
      · exact .inl hne
      · exact .inr ⟨by omega, hf⟩
  · rcases List.mem_cons.mp hf with rfl | hf
    · exact congrArg PageInfo.ref hself
    · exact (congrArg PageInfo.ref (hpages f (Nat.ne_of_lt (hlt f hf)))).trans (h.ref f hf)
  · have hne : f ≠ n := by
      rintro rfl
      exact hf hn
    obtain ⟨href, hlink⟩ := h.reserved f (by omega) hf
    exact ⟨(congrArg PageInfo.ref (hpages f hne)).trans href, by rwa [Phys.link, hpages f hne]⟩
  · exact (hpages f (by omega)).trans (h.rest f (by omega))

end Sorted

/-- The loop sorts the pages, and leaves memory alone. -/
theorem pageInitUpTo_spec (npages npagesBasemem stop : Nat) {p : Phys}
    (h : p.pageFreeList = none) :
    ∃ q l, pageInitUpTo npages npagesBasemem stop p = .ret () q ∧
      Sorted (Freed npages npagesBasemem stop) p npages l q := by
  set S := Freed npages npagesBasemem stop with hS
  have hspec : wp (pageInitUpTo npages npagesBasemem stop) (fun _ q => ∃ l, Sorted S p npages l q)
      (fun _ _ => False) (fun _ => False) p := by
    refine wp_forRange (fun n q => ∃ l, Sorted S p n l q) ?_ ⟨[], Sorted.start h⟩
    rintro n q hn ⟨l, hq⟩
    have hreserve : ¬ S n → wp (reservePage n) (fun _ q => ∃ l, Sorted S p (n + 1) l q)
        (fun _ _ => False) (fun _ => False) q := by
      intro hf
      rw [wp_ret (reservePage_run q n)]
      exact ⟨l, hq.reserve hf (.inl rfl)⟩
    have hrelease : S n → wp (releasePage n) (fun _ q => ∃ l, Sorted S p (n + 1) l q)
        (fun _ _ => False) (fun _ => False) q := by
      intro hf
      rw [wp_ret (releasePage_run q n)]
      exact ⟨n :: l, hq.release hf⟩
    rw [wp_ite, wp_ite, wp_ite, wp_ite, wp_ite]
    refine ⟨fun hz => hreserve fun hf => hf.2.1 hz, fun hz => ⟨fun hbase => ⟨fun hmp => ?_,
      fun hmp => hrelease ⟨hn, hz, .inl ⟨hbase, hmp⟩⟩⟩, fun hbase => ⟨fun hio => hreserve ?_,
      fun hio => ⟨fun hext => hreserve ?_,
        fun hext => hrelease ⟨hn, hz, .inr ⟨by omega, hio, hext⟩⟩⟩⟩⟩⟩
    · -- the link of the page at `MPENTRY_PADDR` is not written
      rw [wp_modify]
      have hset : q.setRef n 1 =
          { q with pages := Function.update q.pages n ⟨p.link n, 1⟩ } := by
        rw [Phys.setRef, hq.rest n (Nat.le_refl n)]
        rfl
      rw [hset]
      refine ⟨l, hq.reserve ?_ (.inr rfl)⟩
      rintro ⟨-, -, ⟨-, hne⟩ | ⟨hle, -⟩⟩
      · exact hne hmp
      · omega
    · rintro ⟨-, -, ⟨hlt, -⟩ | ⟨-, hnio, -⟩⟩
      · exact hbase hlt
      · exact hnio hio
    · rintro ⟨-, -, ⟨hlt, -⟩ | ⟨-, -, hnext⟩⟩
      · exact hbase hlt
      · exact hnext hext
  obtain ⟨_, q, hrun, l, hl⟩ := exists_of_wp hspec
  exact ⟨q, l, hrun, hl⟩

/-- With base memory up to the I/O hole the loop frees the usable pages. -/
theorem freed_iff_usable {npages npagesBasemem stop f : Nat}
    (hbase : npagesBasemem = iophysmem / pgsize) (hstop : extphysmem / pgsize ≤ stop)
    (hle : stop ≤ npages) :
    Freed npages npagesBasemem stop f ↔ Usable npages npagesBasemem stop f := by
  simp only [Freed, Usable, mpentryPaddr, iophysmem, extphysmem, pgsize] at *
  omega

/-- The first page above base memory is freed when it is below the I/O hole. -/
theorem freed_gap {npages npagesBasemem stop : Nat} (hpos : 0 < npagesBasemem)
    (hgap : npagesBasemem < iophysmem / pgsize) (hnpages : extphysmem / pgsize ≤ npages) :
    Freed npages npagesBasemem stop npagesBasemem := by
  simp only [Freed, mpentryPaddr, iophysmem, extphysmem, pgsize] at *
  omega

/-- After `page_init` the usable pages, each once and without references, are the free
list. -/
def FreesUsable (npages npagesBasemem stop : Nat) (p : Phys) : Prop :=
  ∃ q l, pageInitUpTo npages npagesBasemem stop p = .ret () q ∧
    IsList q.link q.pageFreeList l ∧ l.Nodup ∧
    (∀ f, f ∈ l ↔ Usable npages npagesBasemem stop f) ∧ ∀ f ∈ l, q.ref f = 0

section Usable

variable {npages npagesBasemem stop : Nat} {p : Phys}

/-- Memory between base memory and the I/O hole is freed, and it is not usable. -/
theorem not_freesUsable (hpos : 0 < npagesBasemem) (hgap : npagesBasemem < iophysmem / pgsize)
    (hstop : extphysmem / pgsize ≤ stop) (hle : stop ≤ npages) (hlist : p.pageFreeList = none) :
    ¬ FreesUsable npages npagesBasemem stop p := by
  rintro ⟨q', l', hrun', hl', -, husable, -⟩
  obtain ⟨q, l, hrun, hq⟩ := pageInitUpTo_spec npages npagesBasemem stop hlist
  have hfreed : Freed npages npagesBasemem stop npagesBasemem :=
    freed_gap hpos hgap (hstop.trans hle)
  have hmem : npagesBasemem ∈ l := (hq.listed _).mpr ⟨hfreed.1, hfreed⟩
  cases hrun.symm.trans hrun'
  rw [hq.free.unique hl', husable] at hmem
  rcases hmem with ⟨-, hlt, -⟩ | ⟨hge, -⟩
  · exact absurd hlt (Nat.lt_irrefl _)
  · simp only [iophysmem, extphysmem, pgsize] at *
    omega

theorem freesUsable (hbase : npagesBasemem = iophysmem / pgsize)
    (hstop : extphysmem / pgsize ≤ stop) (hle : stop ≤ npages) (hlist : p.pageFreeList = none) :
    FreesUsable npages npagesBasemem stop p := by
  obtain ⟨q, l, hrun, hq⟩ := pageInitUpTo_spec npages npagesBasemem stop hlist
  refine ⟨q, l, hrun, hq.free, hq.free.nodup, fun f => ?_, hq.ref⟩
  rw [hq.listed, ← freed_iff_usable hbase hstop hle]
  exact ⟨fun h => h.2, fun h => ⟨h.1, h⟩⟩

end Usable

/-- `page_init` frees exactly the usable pages if and only if there is no memory
between the end of base memory and the I/O hole. -/
theorem page_init_usable (npages npagesBasemem stop : Nat) (p : Phys)
    (hmpentry : mpentryPaddr / pgsize + 1 ≤ npagesBasemem)
    (hbase : npagesBasemem ≤ iophysmem / pgsize) (hstop : extphysmem / pgsize ≤ stop)
    (hle : stop ≤ npages) (hlist : p.pageFreeList = none) :
    FreesUsable npages npagesBasemem stop p ↔ npagesBasemem = iophysmem / pgsize := by
  constructor
  · intro hfrees
    by_contra hne
    have hpos : 0 < npagesBasemem := Nat.lt_of_lt_of_le (Nat.succ_pos _) hmpentry
    exact not_freesUsable hpos (Nat.lt_of_le_of_ne hbase hne) hstop hle hlist hfrees
  · intro heq
    exact freesUsable heq hstop hle hlist

/-- 128 MB of memory, 640 KB of it below the hole. -/
theorem page_init_usable_640K :
    FreesUsable 32768 160 768 (.blank 32768) ↔ 160 = iophysmem / pgsize :=
  page_init_usable 32768 160 768 _ (by decide) (by decide) (by decide) (by decide) rfl

/-- With 639 KB the page that base memory does not fill is freed. -/
theorem page_init_frees_gap :
    mpentryPaddr / pgsize + 1 ≤ 159 ∧ 159 ≤ iophysmem / pgsize ∧
      ¬ FreesUsable 32768 159 768 (.blank 32768) :=
  ⟨by decide, by decide, not_freesUsable (by decide) (by decide) (by decide) (by decide) rfl⟩

end Jos
