import Jos.Base.Linked
import Jos.Pmap.Slots

/-!
# The free list and the reference counts

`Counts L t o p` ties the `pages[]` array of `p` to a reference map `t`: `pp_ref`
of each page that the allocator manages is the number of its references, and the
pages on the free list have none. `o` is one more reference, held by the running
code: a page table entry is written and its count adjusted in two steps, and in
between the reference is in flight.

Pages that the allocator does not manage never change at all.
-/

namespace Jos

/-- What booting leaves: the state of memory, the kernel's page directory, and the
set of pages on the free list. Whatever the other pages hold stays as it is. -/
structure Layout where
  boot : Phys
  kern : Nat
  owned : Nat → Prop
  npages_le : boot.npages ≤ 65536
  owned_lt : ∀ f, owned f → f < boot.npages
  kern_lt : kern < boot.npages
  kern_reserved : ¬ owned kern
  kern_empty : ∀ i : Idx, i.val < userPdes → boot.word kern i &&& pteP = 0
  /-- The tables of the kernel's half are reserved pages. -/
  table_reserved : ∀ i : Idx, userPdes ≤ i.val → boot.word kern i &&& pteP ≠ 0 →
    pgnum (boot.word kern i) < boot.npages ∧ ¬ owned (pgnum (boot.word kern i))
  /-- User mode can write nothing in the kernel's half. -/
  user_readonly : ∀ i j : Idx, userPdes ≤ i.val → i ≠ pdx uvpt → boot.word kern i &&& pteP ≠ 0 →
    boot.word (pgnum (boot.word kern i)) j &&& pteU ≠ 0 →
    boot.word (pgnum (boot.word kern i)) j &&& pteW = 0

namespace Phys

/-- The page is on the free list. -/
def Listed (p : Phys) (f : Nat) : Prop := Linked p.link p.pageFreeList f

/-- At least `n` pages are free. -/
def FreePages (p : Phys) (n : Nat) : Prop :=
  ∃ l, IsList p.link p.pageFreeList l ∧ n ≤ l.length

/-- `page_decref`: one reference less, and with the last one the page is freed. -/
def drop (p : Phys) (f : Nat) : Phys :=
  let q := p.setRef f (p.ref f - 1)
  if q.ref f = 0 then { q.setLink f q.pageFreeList with pageFreeList := some f } else q

/-- `page_alloc` takes `f` from the head of the list. -/
def take (p : Phys) (f : Nat) : Phys := { p with pageFreeList := p.link f }.setLink f none

end Phys

/-- One for the page of the reference in flight. -/
def inFlight (o : Option Nat) (f : Nat) : Nat := if o = some f then 1 else 0

@[simp] theorem inFlight_none (f : Nat) : inFlight none f = 0 := by simp [inFlight]

@[simp] theorem inFlight_self (f : Nat) : inFlight (some f) f = 1 := by simp [inFlight]

theorem inFlight_of_ne {f g : Nat} (h : g ≠ f) : inFlight (some f) g = 0 := by
  simp [inFlight, h.symm]

structure Counts {σ : Type} (L : Layout) (t : σ → Option Nat) (o : Option Nat) (p : Phys) :
    Prop where
  free : ∃ l, IsList p.link p.pageFreeList l ∧ (∀ f ∈ l, L.owned f ∧ p.ref f = 0) ∧
    ∀ f, L.owned f → f ∉ l → p.link f = none
  counted : ∀ f, L.owned f → (p.ref f).toNat = refCount t f + inFlight o f
  frozen : ∀ f, ¬ L.owned f → p.pages f = L.boot.pages f
  flight_owned : ∀ f, o = some f → L.owned f

section Pages

variable (p : Phys) {f g : Nat}

@[simp] theorem Phys.setRef_ref_self (r : BitVec 16) : (p.setRef f r).ref f = r := by
  simp [Phys.setRef, Phys.ref]

theorem Phys.setRef_ref_of_ne (r : BitVec 16) (h : g ≠ f) : (p.setRef f r).ref g = p.ref g := by
  simp [Phys.setRef, Phys.ref, Function.update_of_ne h]

@[simp] theorem Phys.setRef_link (r : BitVec 16) : (p.setRef f r).link = p.link := by
  funext g
  by_cases h : g = f
  · subst h
    simp [Phys.setRef, Phys.link]
  · simp [Phys.setRef, Phys.link, Function.update_of_ne h]

@[simp] theorem Phys.setLink_ref (o : Option Nat) : (p.setLink f o).ref = p.ref := by
  funext g
  by_cases h : g = f
  · subst h
    simp [Phys.setLink, Phys.ref]
  · simp [Phys.setLink, Phys.ref, Function.update_of_ne h]

theorem Phys.setLink_link (o : Option Nat) :
    (p.setLink f o).link = Function.update p.link f o := by
  funext g
  by_cases h : g = f
  · subst h
    simp [Phys.setLink, Phys.link]
  · simp [Phys.setLink, Phys.link, Function.update_of_ne h]

end Pages

namespace Phys.FreePages

variable {p q : Phys} {n : Nat} {f : Nat}

theorem congr (h : p.FreePages n) (hlink : q.link = p.link)
    (hfree : q.pageFreeList = p.pageFreeList) : q.FreePages n := by
  rw [FreePages, hlink, hfree]
  exact h

theorem mono {m : Nat} (h : p.FreePages n) (hm : m ≤ n) : p.FreePages m := by
  obtain ⟨l, hl, hlen⟩ := h
  exact ⟨l, hl, hm.trans hlen⟩

theorem head (h : p.FreePages (n + 1)) : ∃ f, p.pageFreeList = some f := by
  obtain ⟨l, hl, hlen⟩ := h
  rcases hl.head_cases with ⟨-, rfl⟩ | ⟨f, -, hf, -⟩
  · simp at hlen
  · exact ⟨f, hf⟩

theorem take (h : p.FreePages (n + 1)) (head : p.pageFreeList = some f) :
    (p.take f).FreePages n := by
  obtain ⟨l, hl, hlen⟩ := h
  rw [head] at hl
  obtain ⟨r, rfl⟩ : ∃ r, l = f :: r := by
    cases hl with
    | cons rest => exact ⟨_, rfl⟩
  refine ⟨r, ?_, by simpa using hlen⟩
  change IsList ({ p with pageFreeList := p.link f }.setLink f none).link (p.link f) r
  rw [Phys.setLink_link]
  exact hl.pop none

theorem setRef (h : p.FreePages n) (r : BitVec 16) : (p.setRef f r).FreePages n :=
  h.congr (p.setRef_link r) rfl

end Phys.FreePages

namespace Counts

variable {σ : Type} {L : Layout} {t : σ → Option Nat} {o : Option Nat} {p q : Phys} {f : Nat}
  {s : σ}

/-- The allocator does not look at memory. -/
theorem congr (h : Counts L t o p) (hpages : q.pages = p.pages)
    (hfree : q.pageFreeList = p.pageFreeList) : Counts L t o q := by
  have href : q.ref = p.ref := funext fun f => by rw [Phys.ref, hpages, Phys.ref]
  have hlink : q.link = p.link := funext fun f => by rw [Phys.link, hpages, Phys.link]
  refine ⟨?_, ?_, ?_, h.flight_owned⟩
  · rw [hlink, hfree, href]
    exact h.free
  · rw [href]
    exact h.counted
  · rw [hpages]
    exact h.frozen

theorem ref_of_listed (h : Counts L t o p) (hf : p.Listed f) : L.owned f ∧ p.ref f = 0 := by
  obtain ⟨l, hl, hzero, -⟩ := h.free
  exact hzero f (hl.linked_iff.mp hf)

theorem link_of_not_listed (h : Counts L t o p) (hf : L.owned f) (hn : ¬ p.Listed f) :
    p.link f = none := by
  obtain ⟨l, hl, -, hnone⟩ := h.free
  exact hnone f hf fun hmem => hn (hl.linked_iff.mpr hmem)

theorem not_listed_of_ref (h : Counts L t o p) (hr : p.ref f ≠ 0) : ¬ p.Listed f :=
  fun hf => hr (h.ref_of_listed hf).2

theorem flight_ref_ne_zero (h : Counts L t (some f) p) : p.ref f ≠ 0 := by
  intro hz
  have hc := h.counted f (h.flight_owned f rfl)
  rw [hz, inFlight_self, show (0 : BitVec 16).toNat = 0 from rfl] at hc
  omega

/-- `pp_ref++` puts a reference in flight. -/
theorem incref (h : Counts L t none p) (hf : L.owned f) (hn : ¬ p.Listed f)
    (hmax : p.ref f ≠ 65535) : Counts L t (some f) (p.setRef f (p.ref f + 1)) := by
  obtain ⟨l, hl, hzero, hnone⟩ := h.free
  have hmem : f ∉ l := fun hmem => hn (hl.linked_iff.mpr hmem)
  refine ⟨⟨l, ?_, fun g hg => ?_, ?_⟩, fun g hg => ?_, fun g hg => ?_, fun g hg => ?_⟩
  · rw [Phys.setRef_link]
    exact hl
  · have hne : g ≠ f := by
      rintro rfl
      exact hmem hg
    rw [Phys.setRef_ref_of_ne _ _ hne]
    exact hzero g hg
  · rw [Phys.setRef_link]
    exact hnone
  · by_cases hne : g = f
    · subst hne
      have hc := h.counted g hg
      have hlt : (p.ref g).toNat ≠ 65535 := fun heq => hmax (BitVec.eq_of_toNat_eq heq)
      have hlt' := (p.ref g).isLt
      rw [Phys.setRef_ref_self, inFlight_self, BitVec.toNat_add,
        show (1 : BitVec 16).toNat = 1 from rfl]
      rw [inFlight_none] at hc
      omega
    · rw [Phys.setRef_ref_of_ne _ _ hne, inFlight_of_ne hne, h.counted g hg, inFlight_none]
  · have hne : g ≠ f := by
      rintro rfl
      exact hg hf
    simp [Phys.setRef, Function.update_of_ne hne, h.frozen g hg]
  · rwa [← Option.some.inj hg]

/-- `page_decref` of a page with a reference in flight consumes that reference. -/
theorem drop (h : Counts L t (some f) p) : Counts L t none (p.drop f) := by
  have hf := h.flight_owned f rfl
  obtain ⟨l, hl, hzero, hnone⟩ := h.free
  have hmem : f ∉ l := fun hmem => h.flight_ref_ne_zero (hzero f hmem).2
  have hcount : ∀ g, L.owned g →
      ((p.setRef f (p.ref f - 1)).ref g).toNat = refCount t g + inFlight none g := by
    intro g hg
    rw [inFlight_none]
    by_cases hne : g = f
    · subst hne
      have hc := h.counted g hg
      have hlt := (p.ref g).isLt
      rw [inFlight_self] at hc
      rw [Phys.setRef_ref_self, BitVec.toNat_sub, show (1 : BitVec 16).toNat = 1 from rfl]
      omega
    · rw [Phys.setRef_ref_of_ne _ _ hne, h.counted g hg, inFlight_of_ne hne]
  have hfrozen : ∀ g, ¬ L.owned g → g ≠ f := by
    rintro g hg rfl
    exact hg hf
  rw [Phys.drop]
  by_cases hlast : (p.setRef f (p.ref f - 1)).ref f = 0
  · -- the last reference: the page goes to the head of the list
    rw [if_pos hlast]
    refine ⟨⟨f :: l, ?_, fun g hg => ?_, fun g hg hgl => ?_⟩, fun g hg => ?_, fun g hg => ?_, by simp⟩
    · change IsList ((p.setRef f (p.ref f - 1)).setLink f p.pageFreeList).link (some f) (f :: l)
      rw [Phys.setLink_link, Phys.setRef_link]
      exact hl.push hmem
    · refine ⟨?_, ?_⟩
      · rcases List.mem_cons.mp hg with rfl | hgl
        · exact hf
        · exact (hzero g hgl).1
      · change ((p.setRef f (p.ref f - 1)).setLink f _).ref g = 0
        rw [Phys.setLink_ref]
        rcases List.mem_cons.mp hg with rfl | hgl
        · exact hlast
        · have hne : g ≠ f := by
            rintro rfl
            exact hmem hgl
          rw [Phys.setRef_ref_of_ne _ _ hne]
          exact (hzero g hgl).2
    · change ((p.setRef f (p.ref f - 1)).setLink f _).link g = none
      have hne : g ≠ f := fun heq => hgl (heq ▸ List.mem_cons_self)
      rw [Phys.setLink_link, Function.update_of_ne hne, Phys.setRef_link]
      exact hnone g hg fun hmem => hgl (List.mem_cons_of_mem f hmem)
    · change (((p.setRef f (p.ref f - 1)).setLink f _).ref g).toNat = _
      rw [Phys.setLink_ref]
      exact hcount g hg
    · simp [Phys.setLink, Phys.setRef, Function.update_of_ne (hfrozen g hg), h.frozen g hg]
  · rw [if_neg hlast]
    refine ⟨⟨l, ?_, fun g hg => ?_, ?_⟩, hcount, fun g hg => ?_, by simp⟩
    · rw [Phys.setRef_link]
      exact hl
    · have hne : g ≠ f := by
        rintro rfl
        exact hmem hg
      rw [Phys.setRef_ref_of_ne _ _ hne]
      exact hzero g hg
    · rw [Phys.setRef_link]
      exact hnone
    · simp [Phys.setRef, Function.update_of_ne (hfrozen g hg), h.frozen g hg]

/-- Only the page itself can get on the list by a `page_decref`. -/
theorem drop_listed {g : Nat} (h : Counts L t (some f) p) (hg : (p.drop f).Listed g) :
    g = f ∨ p.Listed g := by
  obtain ⟨l, hl, hzero, -⟩ := h.free
  have hmem : f ∉ l := fun hmem => h.flight_ref_ne_zero (hzero f hmem).2
  rw [Phys.drop] at hg
  split at hg
  · have hlist : IsList ((p.setRef f (p.ref f - 1)).setLink f p.pageFreeList).link (some f)
        (f :: l) := by
      rw [Phys.setLink_link, Phys.setRef_link]
      exact hl.push hmem
    rcases List.mem_cons.mp (hlist.linked_iff.mp hg) with rfl | hgl
    · exact .inl rfl
    · exact .inr (hl.linked_iff.mpr hgl)
  · rw [Phys.Listed, Phys.setRef_link] at hg
    exact .inr hg

/-- No page leaves the list by a `page_decref`. -/
theorem drop_freePages {n : Nat} (h : Counts L t (some f) p) (hp : p.FreePages n) :
    (p.drop f).FreePages n := by
  obtain ⟨l, hl, hlen⟩ := hp
  have hmem : f ∉ l := fun hmem => h.flight_ref_ne_zero (h.ref_of_listed (hl.linked_iff.mpr hmem)).2
  rw [Phys.drop]
  split
  · refine ⟨f :: l, ?_, by rw [List.length_cons]; omega⟩
    change IsList ((p.setRef f (p.ref f - 1)).setLink f p.pageFreeList).link (some f) (f :: l)
    rw [Phys.setLink_link, Phys.setRef_link]
    exact hl.push hmem
  · exact Phys.FreePages.setRef ⟨l, hl, hlen⟩ _

/-- `page_alloc`: the first page of the list has no references. -/
theorem take (h : Counts L t none p) (head : p.pageFreeList = some f) :
    Counts L t none (p.take f) ∧ L.owned f ∧ p.ref f = 0 ∧ ¬ (p.take f).Listed f ∧
      ∀ g, (p.take f).Listed g → p.Listed g := by
  obtain ⟨l, hl, hzero, hnone⟩ := h.free
  rw [head] at hl
  obtain ⟨r, rfl⟩ : ∃ r, l = f :: r := by
    cases hl with
    | cons rest => exact ⟨_, rfl⟩
  have hpop : IsList (p.take f).link (p.take f).pageFreeList r := by
    change IsList ({ p with pageFreeList := p.link f }.setLink f none).link (p.link f) r
    rw [Phys.setLink_link]
    exact hl.pop none
  have hf := hzero f (by simp)
  have hfresh : f ∉ r := (List.nodup_cons.mp hl.nodup).1
  have href : (p.take f).ref = p.ref := Phys.setLink_ref _ _
  refine ⟨⟨⟨r, hpop, fun g hg => ?_, fun g hg hgr => ?_⟩, ?_, fun g hg => ?_, by simp⟩,
    hf.1, hf.2, fun hlisted => hfresh (hpop.linked_iff.mp hlisted), fun g hlisted => ?_⟩
  · rw [href]
    exact hzero g (List.mem_cons_of_mem f hg)
  · change ({ p with pageFreeList := p.link f }.setLink f none).link g = none
    rw [Phys.setLink_link]
    by_cases hne : g = f
    · subst hne
      simp
    · rw [Function.update_of_ne hne]
      exact hnone g hg fun hmem => hgr ((List.mem_cons.mp hmem).resolve_left hne)
  · rw [href]
    exact h.counted
  · have hne : g ≠ f := by
      rintro rfl
      exact hg hf.1
    simp [Phys.take, Phys.setLink, Function.update_of_ne hne, h.frozen g hg]
  · rw [Phys.Listed, head]
    exact hl.linked_iff.mpr (List.mem_cons_of_mem f (hpop.linked_iff.mp hlisted))

/-- The page of the only reference to it has count 1. -/
theorem ref_eq_one (h : Counts L t none p) (hf : L.owned f) (hs : t s = some f)
    (sole : ∀ s', t s' = some f → s' = s) : p.ref f = 1 := by
  apply BitVec.eq_of_toNat_eq
  rw [h.counted f hf, RefCount.eq_one hs sole]
  rfl

variable [Finite σ]

theorem ref_ne_zero (h : Counts L t o p) (hf : L.owned f) (hs : t s = some f) : p.ref f ≠ 0 := by
  intro hz
  have hc := h.counted f hf
  have hpos := RefCount.pos_of_mem hs
  rw [hz, show (0 : BitVec 16).toNat = 0 from rfl] at hc
  omega

/-- A page that nothing refers to has count 0. -/
theorem ref_eq_zero (h : Counts L t none p) (hf : L.owned f) (hs : ∀ s, t s ≠ some f) :
    p.ref f = 0 := by
  apply BitVec.eq_of_toNat_eq
  rw [h.counted f hf, RefCount.eq_zero_iff.mpr hs]
  rfl

variable [DecidableEq σ]

/-- The reference in flight is stored in an empty slot. -/
theorem fill (h : Counts L t (some f) p) (hs : t s = none) :
    Counts L (Function.update t s (some f)) none p := by
  refine ⟨h.free, fun g hg => ?_, h.frozen, by simp⟩
  rw [h.counted g hg, inFlight_none]
  by_cases hne : g = f
  · subst hne
    rw [inFlight_self, RefCount.update_some hs, Nat.add_zero]
  · rw [inFlight_of_ne hne, RefCount.update_of_ne _ (by simp [hs]) (by simpa using Ne.symm hne)]

/-- A slot is emptied, and its reference is in flight. -/
theorem clear (h : Counts L t none p) (hf : L.owned f) (hs : t s = some f) :
    Counts L (Function.update t s none) (some f) p := by
  refine ⟨h.free, fun g hg => ?_, h.frozen, fun g hg => Option.some.inj hg ▸ hf⟩
  rw [h.counted g hg, inFlight_none]
  by_cases hne : g = f
  · subst hne
    rw [inFlight_self, RefCount.update_none hs, Nat.add_zero]
  · rw [inFlight_of_ne hne, RefCount.update_of_ne _ (by simpa [hs] using Ne.symm hne) (by simp)]

end Counts

end Jos
