import Jos.Boot.PageInit

/-!
# The physical page allocator

A history of `page_alloc`, `page_free` and `page_decref` that starts with the list of
`page_init`. The pages that were returned and not freed since are `held`; whoever holds
a page may change its count. What the free list is at any time is one invariant
(`Holds`): the list and the held pages are together the pages of `page_init`.

A page that is on the list already is refused by `page_free` because of its link. The
last page of the list has none: freeing it again closes the list to a cycle.
-/

namespace Jos

open Prog

/-- Those who hold pages use them: they may change the contents of memory and the counts
of their pages. -/
structure Uses (held : List Nat) (p q : Phys) : Prop where
  npages : q.npages = p.npages
  list : q.pageFreeList = p.pageFreeList
  link : q.link = p.link
  ref : ∀ f, f ∉ held → q.ref f = p.ref f

/-- What the allocator's callers may do from `p₀` on: take pages, use them, and free those
that nothing refers to. -/
inductive AllocRun (p₀ : Phys) : List Nat → Phys → Prop
  | start : AllocRun p₀ [] p₀
  | alloc {held : List Nat} {p q : Phys} {zero : Bool} {f : Nat} : AllocRun p₀ held p →
      pageAlloc zero p = .ret (some f) q → AllocRun p₀ (f :: held) q
  | refused {held : List Nat} {p q : Phys} {zero : Bool} : AllocRun p₀ held p →
      pageAlloc zero p = .ret none q → AllocRun p₀ held q
  | uses {held : List Nat} {p q : Phys} : AllocRun p₀ held p → Uses held p q → AllocRun p₀ held q
  | free {held : List Nat} {p q : Phys} {f : Nat} : AllocRun p₀ held p → f ∈ held → p.ref f = 0 →
      pageFree f p = .ret () q → AllocRun p₀ (held.erase f) q
  | decref {held : List Nat} {p q : Phys} {f : Nat} : AllocRun p₀ held p → f ∈ held → p.ref f = 1 →
      pageDecref f p = .ret () q → AllocRun p₀ (held.erase f) q

/-- The free list is `l`, and with the pages in `held` it makes up `l₀`. -/
structure Holds (l₀ held l : List Nat) (p : Phys) : Prop where
  bound : p.npages ≤ 65536
  valid : ∀ f ∈ l₀, f < p.npages
  free : IsList p.link p.pageFreeList l
  split : (held ++ l).Perm l₀
  nodup : l₀.Nodup
  ref : ∀ f ∈ l, p.ref f = 0
  link : ∀ f ∈ held, p.link f = none

namespace Holds

variable {l₀ held l : List Nat} {p q : Phys} {f : Nat}

theorem mem_of_listed (h : Holds l₀ held l p) (hf : f ∈ l) : f ∈ l₀ :=
  h.split.subset (List.mem_append_right held hf)

theorem not_listed (h : Holds l₀ held l p) (hf : f ∈ held) : f ∉ l := by
  have hn : (held ++ l).Nodup := h.split.nodup_iff.mpr h.nodup
  exact List.disjoint_of_nodup_append hn hf

theorem held_nodup (h : Holds l₀ held l p) : held.Nodup :=
  (h.split.nodup_iff.mpr h.nodup).of_append_left

/-- `page_alloc` returns the first page of the list. -/
theorem pageAlloc (h : Holds l₀ held (f :: l) p) (zero : Bool) :
    ∃ q, Jos.pageAlloc zero p = .ret (some f) q ∧ Holds l₀ (f :: held) l q ∧ f ∉ held := by
  have hhead : p.pageFreeList = some f := h.free.head_eq
  have hlt : f < p.npages := h.valid f (h.mem_of_listed (by simp))
  have hfresh : f ∉ held := fun hf => h.not_listed hf (by simp)
  have hfields : ∀ b, (p.alloc f b).npages = p.npages ∧ (p.alloc f b).pageFreeList = p.link f ∧
      (p.alloc f b).ref = p.ref ∧ (p.alloc f b).link = Function.update p.link f none := by
    intro b
    have hlink : (p.take f).link = Function.update p.link f none := by
      rw [Phys.take, Phys.setLink_link]
      rfl
    have href : (p.take f).ref = p.ref := by
      rw [Phys.take, Phys.setLink_ref]
      rfl
    cases b with
    | false => exact ⟨rfl, rfl, href, hlink⟩
    | true => exact ⟨rfl, rfl, href, hlink⟩
  obtain ⟨hnpages, hlist, href, hlink⟩ := hfields zero
  refine ⟨p.alloc f zero, pageAlloc_some hhead hlt h.bound zero, ⟨?_, ?_, ?_, ?_, h.nodup, ?_, ?_⟩,
    hfresh⟩
  · rw [hnpages]
    exact h.bound
  · rw [hnpages]
    exact h.valid
  · rw [hlist, hlink]
    have hpop := h.free
    rw [hhead] at hpop
    exact hpop.pop none
  · exact (List.perm_middle.symm).trans h.split
  · intro g hg
    rw [href]
    exact h.ref g (List.mem_cons_of_mem f hg)
  · intro g hg
    rw [hlink]
    rcases List.mem_cons.mp hg with rfl | hheld
    · exact Function.update_self _ _ _
    · have hne : g ≠ f := by
        rintro rfl
        exact hfresh hheld
      rw [Function.update_of_ne hne]
      exact h.link g hheld

/-- The pages that are held may change their counts. -/
theorem uses (h : Holds l₀ held l p) (hu : Uses held p q) : Holds l₀ held l q := by
  refine ⟨?_, ?_, ?_, h.split, h.nodup, ?_, ?_⟩
  · rw [hu.npages]
    exact h.bound
  · rw [hu.npages]
    exact h.valid
  · rw [hu.list, hu.link]
    exact h.free
  · intro f hf
    rw [hu.ref f fun hheld => h.not_listed hheld hf]
    exact h.ref f hf
  · rw [hu.link]
    exact h.link

/-- A held page without references is accepted by `page_free`. -/
theorem pageFree (h : Holds l₀ held l p) (hf : f ∈ held) (href : p.ref f = 0) :
    ∃ q, Jos.pageFree f p = .ret () q ∧ Holds l₀ (held.erase f) (f :: l) q := by
  refine ⟨_, pageFree_run href (h.link f hf), ⟨h.bound, h.valid, ?_, ?_, h.nodup, ?_, ?_⟩⟩
  · have hpush := h.free.push (h.not_listed hf)
    change IsList (p.setLink f p.pageFreeList).link (some f) (f :: l)
    rw [Phys.setLink_link]
    exact hpush
  · have hback : (held.erase f ++ f :: l).Perm (held ++ l) :=
      List.perm_middle.trans ((List.perm_cons_erase hf).symm.append_right l)
    exact hback.trans h.split
  · intro g hg
    change (p.setLink f p.pageFreeList).ref g = 0
    rw [Phys.setLink_ref]
    rcases List.mem_cons.mp hg with rfl | hg
    · exact href
    · exact h.ref g hg
  · intro g hg
    obtain ⟨hne, hg⟩ := (h.held_nodup.mem_erase_iff).mp hg
    change (p.setLink f p.pageFreeList).link g = none
    rw [Phys.setLink_link, Function.update_of_ne hne]
    exact h.link g hg

/-- So is one whose last reference is dropped. -/
theorem pageDecref (h : Holds l₀ held l p) (hf : f ∈ held) (href : p.ref f = 1) :
    ∃ q, Jos.pageDecref f p = .ret () q ∧ Holds l₀ (held.erase f) (f :: l) q := by
  have huses : Uses held p (p.setRef f 0) := by
    refine ⟨rfl, rfl, Phys.setRef_link _ 0, fun g hg => ?_⟩
    have hne : g ≠ f := by
      rintro rfl
      exact hg hf
    exact Phys.setRef_ref_of_ne _ 0 hne
  have hrun : Jos.pageDecref f p = Jos.pageFree f (p.setRef f 0) := by
    have hzero : p.ref f - 1 = 0 := by
      rw [href]
      rfl
    rw [Jos.pageDecref, modify_bind, get_bind, hzero, when_pos _ (Phys.setRef_ref_self _ 0)]
  rw [hrun]
  exact (h.uses huses).pageFree hf (Phys.setRef_ref_self _ 0)

/-- With an empty list every page is held. -/
theorem perm_iff (h : Holds l₀ held l p) : held.Perm l₀ ↔ l = [] := by
  constructor
  · intro hperm
    have hlen := h.split.length_eq
    rw [List.length_append, hperm.length_eq] at hlen
    exact List.eq_nil_of_length_eq_zero (by omega)
  · rintro rfl
    simpa using h.split

/-- What the allocator does next: `page_alloc` returns a page that is not held, or nothing
if all are; a held page can be freed. -/
structure Serves (l₀ held : List Nat) (p : Phys) : Prop where
  alloc : ∀ zero, ¬ held.Perm l₀ →
    ∃ f q, Jos.pageAlloc zero p = .ret (some f) q ∧ f ∈ l₀ ∧ f ∉ held ∧ q.link f = none
  refuse : ∀ zero, held.Perm l₀ → Jos.pageAlloc zero p = .ret none p
  free : ∀ f ∈ held, p.ref f = 0 → ∃ q, Jos.pageFree f p = .ret () q
  decref : ∀ f ∈ held, p.ref f = 1 → ∃ q, Jos.pageDecref f p = .ret () q

theorem serves (h : Holds l₀ held l p) : Serves l₀ held p := by
  refine ⟨fun zero hmore => ?_, fun zero hall => ?_, fun f hf href => ?_, fun f hf href => ?_⟩
  · cases l with
    | nil => exact absurd (h.perm_iff.mpr rfl) hmore
    | cons f l =>
        obtain ⟨q, hrun, hq, hfresh⟩ := h.pageAlloc zero
        exact ⟨f, q, hrun, h.mem_of_listed (by simp), hfresh, hq.link f (by simp)⟩
  · have hnil := h.free
    rw [h.perm_iff.mp hall] at hnil
    cases hhead : p.pageFreeList with
    | none => exact pageAlloc_none hhead zero
    | some a =>
        rw [hhead] at hnil
        cases hnil
  · obtain ⟨q, hrun, -⟩ := h.pageFree hf href
    exact ⟨q, hrun⟩
  · obtain ⟨q, hrun, -⟩ := h.pageDecref hf href
    exact ⟨q, hrun⟩

end Holds

/-- The invariant along a history. -/
theorem AllocRun.holds {p₀ p : Phys} {l₀ held : List Nat} (h₀ : Holds l₀ [] l₀ p₀)
    (h : AllocRun p₀ held p) : ∃ l, Holds l₀ held l p := by
  induction h with
  | start => exact ⟨l₀, h₀⟩
  | @alloc held p q zero f _ hrun ih =>
      obtain ⟨l, hl⟩ := ih
      cases l with
      | nil =>
          rw [hl.serves.refuse zero (hl.perm_iff.mpr rfl)] at hrun
          cases hrun
      | cons g l =>
          obtain ⟨q', hrun', hq', -⟩ := hl.pageAlloc zero
          cases hrun'.symm.trans hrun
          exact ⟨l, hq'⟩
  | @refused held p q zero _ hrun ih =>
      obtain ⟨l, hl⟩ := ih
      by_cases hall : held.Perm l₀
      · cases (hl.serves.refuse zero hall).symm.trans hrun
        exact ⟨l, hl⟩
      · obtain ⟨f, q', hrun', -⟩ := hl.serves.alloc zero hall
        cases hrun'.symm.trans hrun
  | uses _ huses ih =>
      obtain ⟨l, hl⟩ := ih
      exact ⟨l, hl.uses huses⟩
  | @free held p q f _ hf href hrun ih =>
      obtain ⟨l, hl⟩ := ih
      obtain ⟨q', hrun', hq'⟩ := hl.pageFree hf href
      cases hrun'.symm.trans hrun
      exact ⟨f :: l, hq'⟩
  | @decref held p q f _ hf href hrun ih =>
      obtain ⟨l, hl⟩ := ih
      obtain ⟨q', hrun', hq'⟩ := hl.pageDecref hf href
      cases hrun'.symm.trans hrun
      exact ⟨f :: l, hq'⟩

/-- What `page_init` leaves is where the allocator starts. -/
theorem Sorted.holds {S : Nat → Prop} {p q : Phys} {n : Nat} {l : List Nat}
    (h : Sorted S p n l q) (hn : n ≤ p.npages) (hbound : p.npages ≤ 65536) : Holds l [] l q := by
  refine ⟨?_, fun f hf => ?_, h.free, List.Perm.refl _, h.free.nodup, h.ref, fun f hf => ?_⟩
  · rw [h.npages]
    exact hbound
  · rw [h.npages]
    exact Nat.lt_of_lt_of_le ((h.listed f).mp hf).1 hn
  · simp at hf

/-- The lowest page of a descending list is the last one. -/
theorem getLast?_of_descending {l : List Nat} {a : Nat} (h : l.Pairwise (· > ·)) (ha : a ∈ l)
    (hle : ∀ b ∈ l, a ≤ b) : l.getLast? = some a := by
  induction l with
  | nil => simp at ha
  | cons b l ih =>
      obtain ⟨hb, hl⟩ := List.pairwise_cons.mp h
      cases l with
      | nil => simpa [eq_comm] using ha
      | cons c l =>
          rw [List.getLast?_cons_cons]
          have hne : a ≠ b := by
            rintro rfl
            have hc : a ≤ c := hle c (by simp)
            have hlt : a > c := hb c (by simp)
            omega
          exact ih hl ((List.mem_cons.mp ha).resolve_left hne)
            fun d hd => hle d (List.mem_cons_of_mem b hd)

/-- The pages of 128 MB, and page 1 at the end of the list. -/
theorem blank_list : ∃ p₀ l, pageInitUpTo 32768 160 768 (.blank 32768) = .ret () p₀ ∧
    Sorted (Freed 32768 160 768) (.blank 32768) 32768 l p₀ ∧ 1 ∈ l ∧ 2 ∈ l ∧
    l.getLast? = some 1 := by
  obtain ⟨p₀, l, hinit, hsorted⟩ := pageInitUpTo_spec 32768 160 768 (p := .blank 32768) rfl
  have hone : 1 ∈ l := (hsorted.listed 1).mpr ⟨by decide, by simp [Freed, mpentryPaddr, pgsize]⟩
  have htwo : 2 ∈ l := (hsorted.listed 2).mpr ⟨by decide, by simp [Freed, mpentryPaddr, pgsize]⟩
  refine ⟨p₀, l, hinit, hsorted, hone, htwo, getLast?_of_descending hsorted.descending hone ?_⟩
  intro f hf
  have hpos : f ≠ 0 := ((hsorted.listed f).mp hf).2.2.1
  omega

/-- In every history from `page_init` on, the free list is duplicate-free and ends, its
pages have no references, and with the held pages it makes up the list of `page_init`;
no call that a history may make panics. -/
theorem allocator_partition (npagesBasemem stop : Nat) (p p₀ q : Phys) (held : List Nat)
    (hbound : p.npages ≤ 65536) (hlist : p.pageFreeList = none)
    (hinit : pageInitUpTo p.npages npagesBasemem stop p = .ret () p₀) (h : AllocRun p₀ held q) :
    ∃ l₀ l, IsList p₀.link p₀.pageFreeList l₀ ∧
      (∀ f, f ∈ l₀ ↔ Freed p.npages npagesBasemem stop f) ∧
      IsList q.link q.pageFreeList l ∧ l.Nodup ∧ (∀ f ∈ l, q.ref f = 0) ∧
      (held ++ l).Perm l₀ ∧ (held ++ l).Nodup ∧ Holds.Serves l₀ held q := by
  obtain ⟨p₁, l₀, hrun, hsorted⟩ := pageInitUpTo_spec p.npages npagesBasemem stop hlist
  cases hrun.symm.trans hinit
  obtain ⟨l, hl⟩ := h.holds (hsorted.holds (Nat.le_refl _) hbound)
  refine ⟨l₀, l, hsorted.free, fun f => ?_, hl.free, hl.free.nodup, hl.ref, hl.split,
    hl.split.nodup_iff.mpr hl.nodup, hl.serves⟩
  exact (hsorted.listed f).trans ⟨fun hf => hf.2, fun hf => ⟨hf.1, hf⟩⟩

/-- One page of 128 MB is taken. -/
theorem allocator_partition_first : ∃ p₀ q f,
    pageInitUpTo 32768 160 768 (.blank 32768) = .ret () p₀ ∧ AllocRun p₀ [f] q ∧
    ∃ l₀ l, IsList p₀.link p₀.pageFreeList l₀ ∧ (∀ g, g ∈ l₀ ↔ Freed 32768 160 768 g) ∧
      IsList q.link q.pageFreeList l ∧ l.Nodup ∧ (∀ g ∈ l, q.ref g = 0) ∧
      ([f] ++ l).Perm l₀ ∧ ([f] ++ l).Nodup ∧ Holds.Serves l₀ [f] q := by
  obtain ⟨p₀, l₀, hinit, hsorted, hone, -⟩ := blank_list
  have hholds : Holds l₀ [] l₀ p₀ := hsorted.holds (Nat.le_refl _) (by decide)
  have hmore : ¬ ([] : List Nat).Perm l₀ := fun hperm => by simp [hperm.nil_eq.symm] at hone
  obtain ⟨f, q, hrun, -⟩ := hholds.serves.alloc true hmore
  have hq : AllocRun p₀ [f] q := .alloc .start hrun
  exact ⟨p₀, q, f, hinit, hq,
    allocator_partition 160 768 (.blank 32768) p₀ q [f] (by decide) rfl hinit hq⟩

/-! ## Freeing a page twice -/

section DoubleFree

variable {p : Phys} {l : List Nat} {f : Nat}

/-- `page_free` refuses the pages of the list by their links. -/
theorem pageFree_listed (hlist : IsList p.link p.pageFreeList l) (hf : f ∈ l)
    (hlast : l.getLast? ≠ some f) : pageFree f p = .panic .pageFree :=
  pageFree_panic fun hnone => hlast ((hlist.next_eq_none hf).mp hnone)

/-- The last one is accepted, and the list becomes a cycle. -/
theorem pageFree_last (hlist : IsList p.link p.pageFreeList l) (href : p.ref f = 0)
    (hlast : l.getLast? = some f) :
    ∃ q, pageFree f p = .ret () q ∧ ∀ l', ¬ IsList q.link q.pageFreeList l' := by
  have hf : f ∈ l := List.mem_of_getLast? hlast
  have hnone : p.link f = none := (hlist.next_eq_none hf).mpr hlast
  refine ⟨_, pageFree_run href hnone, fun l' => ?_⟩
  change ¬ IsList (p.setLink f p.pageFreeList).link (some f) l'
  rw [Phys.setLink_link]
  apply IsList.not_of_linked
  rw [Function.update_self]
  exact (hlist.linked_iff.mpr hf).update hnone _

end DoubleFree

/-- In every history from `page_init` on, `page_free` detects that a page is on the list
already if and only if the page is not the last one; freeing the last one again makes the
list cyclic. -/
theorem double_free_detected (npagesBasemem stop : Nat) (p p₀ q : Phys) (held l : List Nat)
    (f : Nat) (hbound : p.npages ≤ 65536) (hlist : p.pageFreeList = none)
    (hinit : pageInitUpTo p.npages npagesBasemem stop p = .ret () p₀) (h : AllocRun p₀ held q)
    (hl : IsList q.link q.pageFreeList l) (hf : f ∈ l) :
    (pageFree f q = .panic .pageFree ↔ l.getLast? ≠ some f) ∧
      (l.getLast? = some f →
        ∃ q', pageFree f q = .ret () q' ∧ ∀ l', ¬ IsList q'.link q'.pageFreeList l') := by
  obtain ⟨p₁, l₀, hrun, hsorted⟩ := pageInitUpTo_spec p.npages npagesBasemem stop hlist
  cases hrun.symm.trans hinit
  obtain ⟨l', hholds⟩ := h.holds (hsorted.holds (Nat.le_refl _) hbound)
  have hzero : q.ref f = 0 := by
    rw [hl.unique hholds.free] at hf
    exact hholds.ref f hf
  have hcycle : l.getLast? = some f → ∃ q', pageFree f q = .ret () q' ∧
      ∀ l', ¬ IsList q'.link q'.pageFreeList l' := pageFree_last hl hzero
  refine ⟨⟨fun hpanic hlast => ?_, pageFree_listed hl hf⟩, hcycle⟩
  obtain ⟨q', hret, -⟩ := hcycle hlast
  cases hret.symm.trans hpanic

theorem double_free_detected_two : ∃ p₀ l, pageInitUpTo 32768 160 768 (.blank 32768) = .ret () p₀ ∧
    IsList p₀.link p₀.pageFreeList l ∧ 2 ∈ l ∧
    ((pageFree 2 p₀ = .panic .pageFree ↔ l.getLast? ≠ some 2) ∧
      (l.getLast? = some 2 →
        ∃ q', pageFree 2 p₀ = .ret () q' ∧ ∀ l', ¬ IsList q'.link q'.pageFreeList l')) := by
  obtain ⟨p₀, l, hinit, hsorted, -, htwo, -⟩ := blank_list
  exact ⟨p₀, l, hinit, hsorted.free, htwo, double_free_detected 160 768 (.blank 32768) p₀ p₀ [] l 2
    (by decide) rfl hinit .start hsorted.free htwo⟩

/-- Right after `page_init`, freeing page 1 is not detected, and the list is cyclic. -/
theorem double_free_missed : ∃ p₀ l q, pageInitUpTo 32768 160 768 (.blank 32768) = .ret () p₀ ∧
    AllocRun p₀ [] p₀ ∧ IsList p₀.link p₀.pageFreeList l ∧ 1 ∈ l ∧
    pageFree 1 p₀ = .ret () q ∧ ∀ l', ¬ IsList q.link q.pageFreeList l' := by
  obtain ⟨p₀, l, hinit, hsorted, hone, -, hlast⟩ := blank_list
  obtain ⟨q, hrun, hcycle⟩ := pageFree_last hsorted.free (hsorted.ref 1 hone) hlast
  exact ⟨p₀, l, q, hinit, .start, hsorted.free, hone, hrun, hcycle⟩

end Jos
