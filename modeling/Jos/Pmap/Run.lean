import Jos.Pmap.Counts

/-!
# Running the functions of `pmap.c`

One equation for each way through a function: what it returns and the state it
leaves, or where it panics. They need no invariant, so they also apply to states
that should never be reached.
-/

namespace Jos

open Prog

variable {p : Phys} {d f pp t : Nat} {va perm : Word}

theorem pgnum_pageAddr (h : f < 1048576) : pgnum (pageAddr f) = f := by
  rw [pgnum_eq, pageAddr_toNat h]
  omega

theorem kaddr_run {a : Word} (h : pgnum a < p.npages) : kaddr a p = .ret (pgnum a) p := by
  rw [kaddr, frameOf, get_bind, if_neg (by omega)]
  rfl

theorem kaddr_panic {a : Word} (h : p.npages ≤ pgnum a) : kaddr a p = .panic .kaddr := by
  rw [kaddr, frameOf, get_bind, if_pos h]
  rfl

theorem pa2page_run {a : Word} (h : pgnum a < p.npages) :
    pa2page a p = .ret (pgnum a) p := by
  rw [pa2page, frameOf, get_bind, if_neg (by omega)]
  rfl

theorem pa2page_panic {a : Word} (h : p.npages ≤ pgnum a) :
    pa2page a p = .panic .pa2page := by
  rw [pa2page, frameOf, get_bind, if_pos h]
  rfl

theorem page2kva_run (h : pp < p.npages) (hn : p.npages ≤ 65536) :
    page2kva pp p = .ret pp p := by
  have hnum : pgnum (page2pa pp) = pp := pgnum_pageAddr (by omega)
  rw [page2kva, kaddr_run (by rwa [hnum]), hnum]

theorem clearPage_run (h : pp < p.npages) (hn : p.npages ≤ 65536) :
    clearPage pp p = .ret () (p.setPage pp fun _ => 0) := by
  rw [clearPage, bind_ret _ (page2kva_run h hn)]
  rfl

theorem pageAlloc_none (head : p.pageFreeList = none) (zero : Bool) :
    pageAlloc zero p = .ret none p := by
  rw [pageAlloc, get_bind, head]
  rfl

/-- The page that `page_alloc` returns, cleared on request. -/
def Phys.alloc (p : Phys) (f : Nat) (zero : Bool) : Phys :=
  if zero = true then (p.take f).setPage f fun _ => 0 else p.take f

theorem pageAlloc_some (head : p.pageFreeList = some f) (h : f < p.npages)
    (hn : p.npages ≤ 65536) (zero : Bool) :
    pageAlloc zero p = .ret (some f) (p.alloc f zero) := by
  rw [pageAlloc, get_bind, head]
  simp only [modify_bind]
  cases zero with
  | false => rfl
  | true =>
      rw [when_pos _ rfl]
      have hclear : clearPage f (p.take f) = .ret () ((p.take f).setPage f fun _ => 0) :=
        clearPage_run h hn
      exact bind_ret _ hclear

theorem pageFree_run (href : p.ref f = 0) (hlink : p.link f = none) :
    pageFree f p = .ret () { p.setLink f p.pageFreeList with pageFreeList := some f } := by
  rw [pageFree, get_bind, if_neg (by simp [href, hlink])]
  rfl

/-- A page that is linked to another one must not be freed. -/
theorem pageFree_panic (hlink : p.link f ≠ none) : pageFree f p = .panic .pageFree := by
  rw [pageFree, get_bind, if_pos (.inr hlink)]
  rfl

theorem pageDecref_run (hlink : p.link f = none) : pageDecref f p = .ret () (p.drop f) := by
  rw [pageDecref, modify_bind, get_bind, Phys.drop]
  by_cases hlast : (p.setRef f (p.ref f - 1)).ref f = 0
  · rw [when_pos _ hlast, if_pos hlast]
    exact pageFree_run hlast (by simpa using hlink)
  · rw [when_neg _ hlast, if_neg hlast]
    rfl

theorem pageDecref_panic (href : p.ref f = 1) (hlink : p.link f ≠ none) :
    pageDecref f p = .panic .pageFree := by
  rw [pageDecref, modify_bind, get_bind, when_pos _ (by simp [href])]
  exact pageFree_panic (by simpa using hlink)

theorem pgdirWalk_false (p : Phys) (pgdir : Nat) (va : Word) :
    pgdirWalk pgdir va false p =
      if p.word pgdir (pdx va) &&& pteP = 0 then .ret none p
      else if pgnum (p.word pgdir (pdx va)) ≥ p.npages then .panic .kaddr
      else .ret (some ⟨pgnum (p.word pgdir (pdx va)), ptx va⟩) p := by
  rw [pgdirWalk, get_bind]
  by_cases hp : p.word pgdir (pdx va) &&& pteP = 0
  · simp [hp]
  · simp only [hp, ne_eq, not_false_eq_true, if_true, if_false]
    by_cases hn : pgnum (p.word pgdir (pdx va)) ≥ p.npages
    · rw [if_pos hn]
      apply bind_panic
      rw [kaddr, frameOf, get_bind, pgnum_pteAddr, if_pos hn]
      rfl
    · rw [if_neg hn]
      apply bind_ret
      rw [kaddr, frameOf, get_bind, pgnum_pteAddr, if_neg hn]
      rfl

theorem pgdirWalk_found (hp : p.word d (pdx va) &&& pteP ≠ 0)
    (ht : pgnum (p.word d (pdx va)) < p.npages) (create : Bool) :
    pgdirWalk d va create p = .ret (some ⟨pgnum (p.word d (pdx va)), ptx va⟩) p := by
  rw [pgdirWalk, get_bind, if_pos hp]
  have hk := kaddr_run (p := p) (a := pteAddr (p.word d (pdx va))) (by rwa [pgnum_pteAddr])
  rw [pgnum_pteAddr] at hk
  exact bind_ret _ hk

theorem pgdirWalk_absent (hp : p.word d (pdx va) &&& pteP = 0) :
    pgdirWalk d va false p = .ret none p := by
  rw [pgdirWalk_false, if_pos hp]

theorem pgdirWalk_noMem (hp : p.word d (pdx va) &&& pteP = 0) (head : p.pageFreeList = none) :
    pgdirWalk d va true p = .ret none p := by
  rw [pgdirWalk, get_bind, if_neg (by simpa using hp), if_pos rfl,
    bind_ret _ (pageAlloc_none head true)]
  rfl

/-- A new, empty page table `f` hung into the directory `d`. -/
def Phys.growTable (p : Phys) (d f : Nat) (i : Idx) : Phys :=
  let q := p.alloc f true
  (q.setRef f (q.ref f + 1)).setWord d i (page2pa f ||| pteP ||| pteW ||| pteU)

theorem pgdirWalk_create (hp : p.word d (pdx va) &&& pteP = 0)
    (head : p.pageFreeList = some f) (h : f < p.npages) (hn : p.npages ≤ 65536) :
    pgdirWalk d va true p = .ret (some ⟨f, ptx va⟩) (p.growTable d f (pdx va)) := by
  rw [pgdirWalk, get_bind, if_neg (by simpa using hp), if_pos rfl,
    bind_ret _ (pageAlloc_some head h hn true)]
  have hkva : page2kva f (p.alloc f true) = .ret f (p.alloc f true) := page2kva_run h hn
  exact bind_ret _ hkva

theorem pageLookup_none (hp : p.word d (pdx va) &&& pteP = 0) :
    pageLookup d va p = .ret none p := by
  rw [pageLookup, bind_ret _ (pgdirWalk_absent hp)]
  rfl

/-- Whatever the entry holds is taken for a page. -/
theorem pageLookup_some (hp : p.word d (pdx va) &&& pteP ≠ 0)
    (ht : pgnum (p.word d (pdx va)) < p.npages)
    (hf : pgnum (p.word (pgnum (p.word d (pdx va))) (ptx va)) < p.npages) :
    pageLookup d va p =
      .ret (some (pgnum (p.word (pgnum (p.word d (pdx va))) (ptx va)),
        ⟨pgnum (p.word d (pdx va)), ptx va⟩)) p := by
  rw [pageLookup, bind_ret _ (pgdirWalk_found hp ht false)]
  have hpa := pa2page_run (p := p)
    (a := pteAddr (p.word (pgnum (p.word d (pdx va))) (ptx va))) (by rwa [pgnum_pteAddr])
  rw [pgnum_pteAddr] at hpa
  exact bind_ret _ hpa

theorem pageLookup_panic (hp : p.word d (pdx va) &&& pteP ≠ 0)
    (ht : pgnum (p.word d (pdx va)) < p.npages)
    (hf : p.npages ≤ pgnum (p.word (pgnum (p.word d (pdx va))) (ptx va))) :
    pageLookup d va p = .panic .pa2page := by
  rw [pageLookup, bind_ret _ (pgdirWalk_found hp ht false)]
  have hpa := pa2page_panic (p := p)
    (a := pteAddr (p.word (pgnum (p.word d (pdx va))) (ptx va))) (by rwa [pgnum_pteAddr])
  exact (bind_ret (m := PtePtr.load ⟨_, ptx va⟩) _ rfl).trans (bind_panic _ hpa)

theorem pageRemove_none (hp : p.word d (pdx va) &&& pteP = 0) :
    pageRemove d va p = .ret () p := by
  rw [pageRemove, bind_ret _ (pageLookup_none hp)]
  rfl

theorem pageRemove_some {pte : PtePtr} (hl : pageLookup d va p = .ret (some (f, pte)) p)
    (hlink : p.link f = none) :
    pageRemove d va p = .ret () ((p.drop f).setWord pte.table pte.idx 0) := by
  rw [pageRemove, bind_ret _ hl]
  exact bind_ret _ (pageDecref_run hlink)

theorem pageInsert_noMem (hw : pgdirWalk d va true p = .ret none p) :
    pageInsert d pp va perm p = .ret (-eNoMem) p := by
  rw [pageInsert, bind_ret _ hw]
  rfl

variable {q : Phys} {pte : PtePtr}

/-- The entry holds the same page already: only the permissions change. -/
theorem pageInsert_same (hw : pgdirWalk d va true p = .ret (some pte) q)
    (hp : q.word pte.table pte.idx &&& pteP ≠ 0)
    (hsame : pteAddr (q.word pte.table pte.idx) = page2pa pp) :
    pageInsert d pp va perm p = .ret 0 (q.setWord pte.table pte.idx (mkPte pp perm)) := by
  rw [pageInsert, bind_ret _ hw]
  have hload : pte.load q = .ret (q.word pte.table pte.idx) q := rfl
  simp only [bind_ret _ hload]
  rw [if_pos ⟨hp, hsame⟩]
  rfl

theorem pageInsert_empty (hw : pgdirWalk d va true p = .ret (some pte) q)
    (hp : q.word pte.table pte.idx &&& pteP = 0) :
    pageInsert d pp va perm p = .ret 0
      ((q.setWord pte.table pte.idx (mkPte pp perm)).setRef pp (q.ref pp + 1)) := by
  rw [pageInsert, bind_ret _ hw]
  have hload : pte.load q = .ret (q.word pte.table pte.idx) q := rfl
  simp only [bind_ret _ hload]
  rw [if_neg (fun h => h.1 hp), when_neg _ (by simpa using hp)]
  rfl

theorem pageInsert_replace {r : Phys} (hw : pgdirWalk d va true p = .ret (some pte) q)
    (hp : q.word pte.table pte.idx &&& pteP ≠ 0)
    (hother : pteAddr (q.word pte.table pte.idx) ≠ page2pa pp)
    (hrem : pageRemove d va q = .ret () r) :
    pageInsert d pp va perm p = .ret 0
      ((r.setWord pte.table pte.idx (mkPte pp perm)).setRef pp (r.ref pp + 1)) := by
  rw [pageInsert, bind_ret _ hw]
  have hload : pte.load q = .ret (q.word pte.table pte.idx) q := rfl
  simp only [bind_ret _ hload]
  rw [if_neg (fun h => hother h.2), when_pos _ hp, bind_ret _ hrem]
  rfl

/-- Physical memory that is all zero: no directory maps anything. -/
def Phys.blank (npages : Nat) : Phys :=
  { npages, pages := fun _ => ⟨none, 0⟩, pageFreeList := none, mem := fun _ _ => 0,
    userPages := [] }

/-- The page 2 is mapped at `0x800000`, through the page table 1 in the directory 0. -/
def Phys.onePage : Phys :=
  ((Phys.blank 3).setWord 0 (pdx 0x800000) (mkPte 1 (pteU ||| pteW))).setWord 1 (ptx 0x800000)
    (mkPte 2 (pteU ||| pteW))

end Jos
