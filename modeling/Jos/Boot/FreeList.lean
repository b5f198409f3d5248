import Jos.Boot.Init
import Jos.Pmap.Counts

/-!
# The order of the free list (`check_page_free_list`)

The first test of the allocator moves the pages below 4 MB, which are all that is mapped so far, to
the front of the free list. The list is split in place: each half is extended through a pointer to
its last link, which is a local variable at first.
-/

namespace Jos

/-- What an element of `tp` points to. -/
inductive TailPtr
  | pp1
  | pp2
  | link (pp : Nat)

/-- The variables of the reordering. `tp` has the elements 0 and 1. -/
structure Reorder where
  phys : Phys
  pp1 : Option Nat
  pp2 : Option Nat
  tp : Bool → TailPtr

/-- `PDX(page2pa(pp)) >= pdx_limit`. -/
def pagetype (pp : Nat) : Bool := decide ((pdx (page2pa pp)).val ≥ 1)

namespace Reorder

/-- `*ptr = v`. -/
def store (r : Reorder) (v : Option Nat) : TailPtr → Reorder
  | .pp1 => { r with pp1 := v }
  | .pp2 => { r with pp2 := v }
  | .link pp => { r with phys := r.phys.setLink pp v }

/-- One round of the loop. -/
def step (r : Reorder) (pp : Nat) : Reorder :=
  let r := r.store (some pp) (r.tp (pagetype pp))
  { r with tp := Function.update r.tp (pagetype pp) (.link pp) }

/-- The loop, for at most `n` rounds. -/
def loop : Nat → Option Nat → Reorder → Option Reorder
  | _, none, r => some r
  | 0, some _, _ => none
  | n + 1, some pp, r =>
      let r := r.step pp
      loop n (r.phys.link pp) r

/-- What follows the loop. -/
def finish (r : Reorder) : Phys :=
  let r := r.store none (r.tp true)
  let r := r.store r.pp2 (r.tp false)
  { r.phys with pageFreeList := r.pp1 }

end Reorder

/-- The reordering of `check_page_free_list(1)`. The local variables are not initialized. -/
def reorderFreeList (n : Nat) (pp1 pp2 : Option Nat) (p : Phys) : Option Phys :=
  (Reorder.loop n p.pageFreeList ⟨p, pp1, pp2, fun type => if type then .pp2 else .pp1⟩).map
    Reorder.finish

namespace Reorder

variable {p : Phys} {r : Reorder} {t : Bool} {l done rest : List Nat} {pp f : Nat}
  {v : Option Nat}

/-- The variable that holds the first page of a type. -/
def head (r : Reorder) (t : Bool) : Option Nat := if t then r.pp2 else r.pp1

/-- Where the next page of a type is stored. -/
def lastLink (t : Bool) (l : List Nat) : TailPtr :=
  match l.getLast? with
  | none => if t then .pp2 else .pp1
  | some pp => .link pp

/-- The pages of a type so far are `l`. What the last link is does not matter. -/
structure Tails (r : Reorder) (t : Bool) (l : List Nat) : Prop where
  tp : r.tp t = lastLink t l
  segment : ∃ tail, ListSegment r.phys.link (r.head t) l tail

/-! ### A store through `tp` -/

@[simp] theorem store_tp (c : TailPtr) : (r.store v c).tp = r.tp := by
  cases c
  all_goals rfl

/-- A store through `tp` changes nothing but the last link of its type. -/
theorem store_pages (htp : r.tp t = lastLink t l) (hf : f ∉ l) :
    (r.store v (r.tp t)).phys.pages f = r.phys.pages f := by
  rw [htp, lastLink]
  cases hlast : l.getLast? with
  | none =>
      cases t
      all_goals rfl
  | some pp =>
      have hne : f ≠ pp := by
        rintro rfl
        exact hf (List.mem_of_getLast? hlast)
      exact Function.update_of_ne hne _ _

theorem store_head (htp : r.tp t = lastLink t l) :
    (r.store v (r.tp t)).head (!t) = r.head (!t) := by
  rw [htp, lastLink]
  cases l.getLast? with
  | none =>
      cases t
      all_goals rfl
  | some pp => rfl

/-- Its own segment now ends with what was stored. -/
theorem Tails.store (h : r.Tails t l) (hn : l.Nodup) (v : Option Nat) :
    ListSegment (r.store v (r.tp t)).phys.link ((r.store v (r.tp t)).head t) l v := by
  obtain ⟨htp, tail, hseg⟩ := h
  rw [htp, lastLink]
  cases hlast : l.getLast? with
  | none =>
      obtain rfl := List.getLast?_eq_none_iff.mp hlast
      cases t
      all_goals exact .nil
  | some pp =>
      change ListSegment (r.phys.setLink pp v).link (r.head t) l v
      rw [Phys.setLink_link]
      exact hseg.update_last hn hlast v

/-- The other one stays. -/
theorem Tails.store_other {l' : List Nat} (h : r.Tails (!t) l') (htp : r.tp t = lastLink t l)
    (hdisj : ∀ f ∈ l', f ∉ l) (v : Option Nat) : (r.store v (r.tp t)).Tails (!t) l' := by
  obtain ⟨htp', tail, hseg⟩ := h
  refine ⟨by rw [store_tp, htp'], tail, ?_⟩
  rw [store_head htp]
  exact hseg.congr fun f hf => congrArg PageInfo.link (store_pages htp (hdisj f hf))

/-! ### The loop -/

/-- What a store leaves of the rest of the memory manager. -/
structure Same (p q : Phys) : Prop where
  npages : q.npages = p.npages
  ref : q.ref = p.ref
  mem : q.mem = p.mem
  userPages : q.userPages = p.userPages

theorem store_same (h : Same p r.phys) (v : Option Nat) (c : TailPtr) :
    Same p (r.store v c).phys := by
  cases c with
  | pp1 | pp2 => exact h
  | link pp => exact ⟨h.npages, (Phys.setLink_ref _ v).trans h.ref, h.mem, h.userPages⟩

/-- The pages in `done` are on the list of their type, in their order. -/
structure Split (p : Phys) (done rest : List Nat) (r : Reorder) : Prop where
  tails : ∀ t, r.Tails t (done.filter fun pp => pagetype pp == t)
  nodup : (done ++ rest).Nodup
  pages : ∀ f, f ∉ done → r.phys.pages f = p.pages f
  same : Same p r.phys

/-- A page has one type. -/
theorem other_type (h : f ∈ done.filter fun pp => pagetype pp == !t) :
    f ∉ done.filter fun pp => pagetype pp == t := by
  intro h'
  have htype : pagetype f = !t := by simpa using (List.mem_filter.mp h).2
  have htype' : pagetype f = t := by simpa using (List.mem_filter.mp h').2
  rw [htype'] at htype
  cases t
  all_goals contradiction

theorem filter_snoc (t : Bool) (done : List Nat) (pp : Nat) :
    (done ++ [pp]).filter (fun pp => pagetype pp == t) =
      done.filter (fun pp => pagetype pp == t) ++ if pagetype pp = t then [pp] else [] := by
  rw [List.filter_append]
  by_cases h : pagetype pp = t
  · simp [h]
  · simp [h]

theorem Split.step (h : Split p done (pp :: rest) r) : Split p (done ++ [pp]) rest (r.step pp) := by
  have hn : (done ++ [pp]).Nodup := by
    have hall := h.nodup
    rw [List.append_cons] at hall
    exact hall.of_append_left
  have hpp : pp ∉ done := by
    intro hmem
    exact List.disjoint_of_nodup_append hn hmem (List.mem_singleton_self pp)
  have hown := h.tails (pagetype pp)
  have hnown : (done.filter fun f => pagetype f == pagetype pp).Nodup :=
    (h.nodup.of_append_left).filter _
  have hpages : ∀ f, f ∉ done → (r.step pp).phys.pages f = r.phys.pages f := fun f hf =>
    store_pages hown.tp fun hmem => hf (List.mem_filter.mp hmem).1
  refine ⟨fun t => ?_, by rw [List.append_assoc]; exact h.nodup, fun f hf => ?_, ?_⟩
  · rw [filter_snoc]
    by_cases ht : pagetype pp = t
    · subst ht
      rw [if_pos rfl]
      refine ⟨?_, (r.step pp).phys.link pp, ?_⟩
      · rw [lastLink, List.getLast?_append_of_ne_nil _ (by simp)]
        exact Function.update_self _ _ _
      · exact (hown.store hnown (some pp)).snoc rfl
    · rw [if_neg ht, List.append_nil]
      obtain rfl : t = !pagetype pp := by
        cases t
        all_goals simpa using ht
      have hother := (h.tails (!pagetype pp)).store_other hown.tp (fun f hf => other_type hf)
        (some pp)
      refine ⟨?_, hother.segment⟩
      rw [← hother.tp]
      exact Function.update_of_ne (by simp) _ _
  · have hf' : f ∉ done := fun hmem => hf (List.mem_append_left _ hmem)
    exact (hpages f hf').trans (h.pages f hf')
  · exact store_same h.same _ _

/-- The loop goes along the old list, whose links it has not changed yet. -/
theorem Split.loop {o : Option Nat} {n : Nat} (hl : IsList p.link o rest) (h : Split p done rest r)
    (hn : rest.length ≤ n) :
    ∃ r', loop n o r = some r' ∧ Split p (done ++ rest) [] r' := by
  induction hl generalizing done r n with
  | nil =>
      rw [List.append_nil]
      refine ⟨r, ?_, h⟩
      cases n
      all_goals rfl
  | @cons pp rest _ ih =>
      obtain ⟨n, rfl⟩ : ∃ n', n = n' + 1 := ⟨n - 1, by rw [List.length_cons] at hn; omega⟩
      have hnext : (r.step pp).phys.link pp = p.link pp := by
        have hpp : pp ∉ done := fun hmem =>
          List.disjoint_of_nodup_append h.nodup hmem (List.mem_cons_self ..)
        have hown := h.tails (pagetype pp)
        have hpages : (r.step pp).phys.pages pp = r.phys.pages pp :=
          store_pages hown.tp fun hmem => hpp (List.mem_filter.mp hmem).1
        exact congrArg PageInfo.link (hpages.trans (h.pages pp hpp))
      rw [Reorder.loop, hnext, List.append_cons]
      exact ih h.step (Nat.le_of_succ_le_succ hn)

/-- What the two stores behind the loop leave. -/
theorem Split.finish (h : Split p done [] r) :
    IsList r.finish.link r.finish.pageFreeList
        (done.filter (fun pp => pagetype pp == false) ++
          done.filter (fun pp => pagetype pp == true)) ∧
      (∀ f, f ∉ done → r.finish.pages f = p.pages f) ∧ Same p r.finish := by
  have hn := h.nodup.of_append_left
  have hlow := h.tails false
  have hhigh := h.tails true
  -- the second list ends
  have hsecond := hhigh.store (hn.filter _) none
  have hlow' := hlow.store_other hhigh.tp (fun f hf => other_type hf) none
  have hpages₁ : ∀ f, f ∉ done → (r.store none (r.tp true)).phys.pages f = r.phys.pages f :=
    fun f hf => store_pages hhigh.tp fun hmem => hf (List.mem_filter.mp hmem).1
  revert hsecond hlow' hpages₁
  have hsame₁ := store_same h.same none (r.tp true)
  revert hsame₁
  rw [Reorder.finish]
  generalize r.store none (r.tp true) = r₁
  intro hsame₁ hsecond hlow' hpages₁
  -- the first list goes on with it
  have hfirst := hlow'.store (hn.filter _) r₁.pp2
  have hpages₂ : ∀ f, f ∉ done.filter (fun f => pagetype f == false) →
      (r₁.store r₁.pp2 (r₁.tp false)).phys.pages f = r₁.phys.pages f :=
    fun f hf => store_pages hlow'.tp hf
  have hkeep : IsList (r₁.store r₁.pp2 (r₁.tp false)).phys.link r₁.pp2
      (done.filter fun f => pagetype f == true) :=
    hsecond.isList.congr fun f hf =>
      congrArg PageInfo.link (hpages₂ f fun hf' => other_type hf' hf)
  refine ⟨hfirst.append hkeep, fun f hf => ?_, ?_⟩
  · have hlast := hpages₂ f fun hmem => hf (List.mem_filter.mp hmem).1
    exact hlast.trans ((hpages₁ f hf).trans (h.pages f hf))
  · obtain ⟨hnpages, href, hmem, huser⟩ := store_same hsame₁ r₁.pp2 (r₁.tp false)
    exact ⟨hnpages, href, hmem, huser⟩

end Reorder

/-- The pages below 4 MB. -/
def belowLimit (l : List Nat) : List Nat := l.filter fun pp => (pdx (page2pa pp)).val < 1

/-- The others. -/
def fromLimit (l : List Nat) : List Nat := l.filter fun pp => ¬(pdx (page2pa pp)).val < 1

theorem belowLimit_perm (l : List Nat) : (belowLimit l ++ fromLimit l).Perm l := by
  rw [belowLimit, fromLimit]
  simpa using List.filter_append_perm (fun pp => decide ((pdx (page2pa pp)).val < 1)) l

theorem filter_pagetype (l : List Nat) :
    l.filter (fun pp => pagetype pp == false) ++ l.filter (fun pp => pagetype pp == true) =
      belowLimit l ++ fromLimit l := by
  have htype : ∀ pp, (pagetype pp == false) = decide ((pdx (page2pa pp)).val < 1) := by
    intro pp
    rw [pagetype, Bool.eq_iff_iff, beq_iff_eq, decide_eq_false_iff_not, decide_eq_true_iff]
    omega
  have htype' : ∀ pp, (pagetype pp == true) = decide ¬(pdx (page2pa pp)).val < 1 := by
    intro pp
    rw [pagetype, Bool.eq_iff_iff, beq_iff_eq, decide_eq_true_iff, decide_eq_true_iff]
    omega
  rw [belowLimit, fromLimit]
  simp only [htype, htype']

theorem reorderFreeList_spec {p : Phys} {l : List Nat} {n : Nat}
    (h : IsList p.link p.pageFreeList l) (hn : l.length ≤ n) (pp1 pp2 : Option Nat) :
    ∃ q, reorderFreeList n pp1 pp2 p = some q ∧
      IsList q.link q.pageFreeList (belowLimit l ++ fromLimit l) ∧
      (∀ f, f ∉ l → q.pages f = p.pages f) ∧ Reorder.Same p q := by
  have hstart : Reorder.Split p [] l ⟨p, pp1, pp2, fun type => if type then .pp2 else .pp1⟩ :=
    ⟨fun t => ⟨rfl, _, .nil⟩, h.nodup, fun _ _ => rfl, rfl, rfl, rfl, rfl⟩
  obtain ⟨r, hloop, hsplit⟩ := hstart.loop h hn
  rw [List.nil_append] at hsplit
  have hfinish := hsplit.finish
  rw [filter_pagetype] at hfinish
  exact ⟨r.finish, by rw [reorderFreeList, hloop]; rfl, hfinish⟩

/-- The reordering is one of the self tests that the boot code may do. -/
theorem reorderFreeList_selfTest {p q : Phys} {l : List Nat} {n : Nat} {pp1 pp2 : Option Nat}
    (h : IsList p.link p.pageFreeList l) (hn : l.length ≤ n)
    (hq : reorderFreeList n pp1 pp2 p = some q) : SelfTest p q := by
  obtain ⟨q', hq', hlist, hpages, hnpages, href, hmem, huser⟩ := reorderFreeList_spec h hn pp1 pp2
  obtain rfl := Option.some.inj (hq.symm.trans hq')
  refine ⟨hnpages, fun l' hl' => ?_, href, fun f hf => ?_, fun f _ => by rw [hmem], huser⟩
  · obtain rfl := hl'.unique h
    exact ⟨_, hlist, belowLimit_perm l'⟩
  · exact congrArg PageInfo.link (hpages f fun hmem => hf (h.linked_iff.mpr hmem))

/-- The reordering ends after a round for each page, and is a stable partition of the free list,
whatever was in the local variables. -/
theorem check_page_free_list_stable (p : Phys) (l : List Nat)
    (h : IsList p.link p.pageFreeList l) (pp1 pp2 : Option Nat) (n : Nat) (hn : l.length ≤ n) :
    ∃ q, reorderFreeList n pp1 pp2 p = some q ∧
      IsList q.link q.pageFreeList (belowLimit l ++ fromLimit l) ∧
      (belowLimit l ++ fromLimit l).Perm l ∧
      (∀ f, f ∉ l → q.pages f = p.pages f) ∧ Reorder.Same p q := by
  obtain ⟨q, hq, hlist, hpages, hsame⟩ := reorderFreeList_spec h hn pp1 pp2
  exact ⟨q, hq, hlist, belowLimit_perm l, hpages, hsame⟩

/-- Three free pages: one at 4 MB, one below it, and one behind it. -/
def threeFree : Phys where
  npages := 2048
  pages f := if f = 1024 then ⟨some 3, 0⟩ else if f = 3 then ⟨some 1500, 0⟩ else ⟨none, 0⟩
  pageFreeList := some 1024
  mem _ _ := 0
  userPages := []

theorem check_page_free_list_stable_three :
    ∃ q, reorderFreeList 3 (some 7) none threeFree = some q ∧
      IsList q.link q.pageFreeList (belowLimit [1024, 3, 1500] ++ fromLimit [1024, 3, 1500]) ∧
      (belowLimit [1024, 3, 1500] ++ fromLimit [1024, 3, 1500]).Perm [1024, 3, 1500] ∧
      (∀ f, f ∉ [1024, 3, 1500] → q.pages f = threeFree.pages f) ∧ Reorder.Same threeFree q :=
  check_page_free_list_stable threeFree [1024, 3, 1500] (.cons (.cons (.cons .nil))) (some 7) none 3
    (by decide)

example : belowLimit [1024, 3, 1500] ++ fromLimit [1024, 3, 1500] = [3, 1024, 1500] := by decide

end Jos
