import Jos.Pmap.Invariant

/-!
# What the functions of `pmap.c` do to a well-formed memory

Each theorem gives, for every state of the invariant, the result of the call and
the state after it, which satisfies the invariant again. None of the functions
panics there. `Keeps` is the frame: page tables may be allocated, but what is
mapped where, and the contents of the pages that are not on the free list, stay.
-/

namespace Jos

open Prog

namespace Phys

variable {ι : Type} {L : Layout} {dirs : ι → Option Nat} {p q r : Phys} {e : ι} {i j : Idx}
  {d t f pp : Nat} {va perm w : Word}

/-- A page that is allocated, but that nothing refers to yet. -/
structure Spare (L : Layout) (dirs : ι → Option Nat) (p : Phys) (f : Nat) : Prop where
  owned : L.owned f
  unlisted : ¬ p.Listed f
  fresh : ∀ s, p.target dirs s ≠ some f

theorem Spare.not_structural (h : Spare L dirs p f) : ¬ p.Structural dirs f := by
  rintro (⟨e, hd⟩ | ⟨e, i, ht⟩)
  · exact h.fresh (.dir e) hd
  · exact h.fresh (.pde e i) ht

/-- From `p` to `q` no mapping and no page in use has changed. -/
structure Keeps (dirs : ι → Option Nat) (p q : Phys) : Prop where
  pteAt : ∀ e i j, q.pteAt dirs e i j = p.pteAt dirs e i j
  userPages : ∀ f ∈ p.userPages, f ∈ q.userPages
  unlisted : ∀ f, ¬ p.Listed f → ¬ q.Listed f
  ref : ∀ f, ¬ p.Listed f → q.ref f = p.ref f
  structural : ∀ f, ¬ p.Listed f → q.Structural dirs f → p.Structural dirs f
  mem : ∀ f, ¬ p.Listed f → ¬ p.Structural dirs f → q.mem f = p.mem f

theorem Keeps.refl (dirs : ι → Option Nat) (p : Phys) : Keeps dirs p p :=
  ⟨fun _ _ _ => rfl, fun _ h => h, fun _ h => h, fun _ _ => rfl, fun _ _ h => h,
    fun _ _ _ => rfl⟩

/-- A page table entry is present exactly if its slot refers to a page. -/
theorem target_pte_eq_none : p.target dirs (.pte e i j) = none ↔
    p.pteAt dirs e i j &&& pteP = 0 := by
  rw [target, entryFrame]
  split
  · rename_i h
    simp only [reduceCtorEq, false_iff]
    exact h
  · rename_i h
    simpa using h

/-- The page may be mapped: it is a user page in use, and no table. -/
structure Mappable (L : Layout) (dirs : ι → Option Nat) (p : Phys) (pp : Nat) : Prop where
  owned : L.owned pp
  unlisted : ¬ p.Listed pp
  plain : ¬ p.Structural dirs pp
  user : pp ∈ p.userPages

/-- From `p` to `q` one page table entry has become `w`. -/
structure Edits (dirs : ι → Option Nat) (p q : Phys) (e : ι) (i j : Idx) (w : Word) : Prop where
  pteAt_self : q.pteAt dirs e i j = w
  pteAt_of_ne : ∀ e' i' j', ¬ (e' = e ∧ i' = i ∧ j' = j) →
    q.pteAt dirs e' i' j' = p.pteAt dirs e' i' j'
  mem : ∀ f, ¬ p.Listed f → ¬ p.Structural dirs f → q.mem f = p.mem f

/-- An edit after changes that only concern tables and free pages. -/
theorem Edits.of_keeps (hk : Keeps dirs p q) (h : Edits dirs q r e i j w) :
    Edits dirs p r e i j w := by
  refine ⟨h.pteAt_self, fun e' i' j' hne => ?_, fun f hf hs => ?_⟩
  · rw [h.pteAt_of_ne e' i' j' hne, hk.pteAt]
  · rw [h.mem f (hk.unlisted f hf) fun hs' => hs (hk.structural f hf hs'), hk.mem f hf hs]

namespace Inv

/-- An entry may be written before or after the count is adjusted. -/
theorem drop_setWord (p : Phys) (f t : Nat) (j : Idx) (w : Word) :
    (p.drop f).setWord t j w = (p.setWord t j w).drop f := by
  rw [Phys.drop, Phys.drop]
  by_cases hlast : (p.setRef f (p.ref f - 1)).ref f = 0
  · rw [if_pos hlast, if_pos (by exact hlast)]
    rfl
  · rw [if_neg hlast, if_neg (by exact hlast)]
    rfl

/-- What the x86 walk and `pgdir_walk` see of a page table. -/
theorem table_walk (h : Inv L dirs none p) (hd : dirs e = some d)
    (ht : p.target dirs (.pde e (pdx va)) = some t) :
    p.word d (pdx va) &&& pteP ≠ 0 ∧ pgnum (p.word d (pdx va)) = t ∧ t < p.npages := by
  obtain ⟨d', hd', -, hentry⟩ := dir_of_table ht
  obtain rfl : d = d' := Option.some.inj (hd.symm.trans hd')
  rw [entryFrame] at hentry
  split at hentry
  · rename_i hp
    exact ⟨hp, Option.some.inj hentry, h.lt_npages (h.tables.owned _ t ht)⟩
  · simp at hentry

theorem no_table_walk (hd : dirs e = some d) (hva : va < utop)
    (ht : p.target dirs (.pde e (pdx va)) = none) : p.word d (pdx va) &&& pteP = 0 := by
  rw [target, pdeAt_of_dir hd ((pdx_lt_iff va).mpr hva), entryFrame] at ht
  split at ht
  · simp at ht
  · rename_i hp
    simpa using hp

/-- `page_lookup` of a mapped page. -/
theorem lookup (h : Inv L dirs none p) (hd : dirs e = some d)
    (hf : p.target dirs (.pte e (pdx va) (ptx va)) = some f) :
    ∃ t, p.target dirs (.pde e (pdx va)) = some t ∧
      pageLookup d va p = .ret (some (f, ⟨t, ptx va⟩)) p := by
  obtain ⟨t, ht, hentry⟩ := table_of_page hf
  obtain ⟨hp, hnum, hlt⟩ := h.table_walk hd ht
  have hpage : pgnum (p.word t (ptx va)) = f := by
    rw [entryFrame] at hentry
    split at hentry
    · exact Option.some.inj hentry
    · simp at hentry
  have hflt := h.lt_npages (h.tables.owned _ f hf)
  refine ⟨t, ht, ?_⟩
  rw [pageLookup_some hp (by rwa [hnum]) (by rwa [hnum, hpage]), hnum, hpage]

theorem mappable_keeps (hpp : Mappable L dirs p pp) (hk : Keeps dirs p q) :
    Mappable L dirs q pp :=
  ⟨hpp.owned, hk.unlisted pp hpp.unlisted,
    fun hs => hpp.plain (hk.structural pp hpp.unlisted hs), hk.userPages pp hpp.user⟩

section Alloc

variable [Finite ι]

theorem listed_fresh (h : Inv L dirs none p) (hf : p.Listed f) (s : Slot ι) :
    p.target dirs s ≠ some f := by
  intro hs
  exact h.counts.ref_ne_zero (h.tables.owned s f hs) hs (h.counts.ref_of_listed hf).2

/-- The first page of the free list, after `page_alloc`. -/
theorem alloc (h : Inv L dirs none p) (head : p.pageFreeList = some f) (zero : Bool) :
    Inv L dirs none (p.alloc f zero) ∧ Spare L dirs (p.alloc f zero) f ∧
      Keeps dirs p (p.alloc f zero) ∧ (p.alloc f zero).target dirs = p.target dirs ∧
      (zero = true → (p.alloc f zero).mem f = fun _ => 0) := by
  have hlisted : p.Listed f := by
    rw [Listed, head]
    exact .here f
  have hfresh := h.listed_fresh hlisted
  obtain ⟨hcounts, howned, hzero, hunlisted, hsub⟩ := h.counts.take head
  have hs : ¬ p.Structural dirs f := by
    rintro (⟨e, hd⟩ | ⟨e, i, ht⟩)
    · exact hfresh (.dir e) hd
    · exact hfresh (.pde e i) ht
  have htake : Inv L dirs none (p.take f) := by
    refine ⟨h.npages, h.tables.congr rfl rfl, ?_⟩
    rw [target_congr fun _ _ => rfl]
    exact hcounts
  have hstruct : ∀ g, (p.alloc f zero).mem g = p.mem g ∨ g = f := by
    intro g
    rw [Phys.alloc]
    split
    · by_cases hg : g = f
      · exact .inr hg
      · exact .inl ((p.take f).mem_setPage_of_ne _ hg)
    · exact .inl rfl
  have hmem : ∀ g, p.Structural dirs g → (p.alloc f zero).mem g = p.mem g := by
    intro g hg
    refine (hstruct g).resolve_right ?_
    rintro rfl
    exact hs hg
  have htarget : (p.alloc f zero).target dirs = p.target dirs := target_congr hmem
  have hlink : ∀ g, (p.alloc f zero).Listed g ↔ (p.take f).Listed g := by
    intro g
    rw [Phys.alloc]
    split <;> exact Iff.rfl
  have href : (p.alloc f zero).ref = p.ref := by
    rw [Phys.alloc]
    split <;> exact setLink_ref _ _
  refine ⟨?_, ⟨howned, ?_, ?_⟩, ⟨fun e i j => pteAt_congr hmem, ?_, ?_, ?_, ?_, ?_⟩, htarget, ?_⟩
  · rw [Phys.alloc]
    split
    · exact htake.setPage howned hs _
    · exact htake
  · rwa [hlink]
  · rw [htarget]
    exact hfresh
  · rw [Phys.alloc]
    split <;> exact fun _ h => h
  · intro g hg
    rw [hlink]
    exact fun hl => hg (hsub g hl)
  · intro g _
    rw [href]
  · intro g _
    rw [Structural, htarget]
    exact id
  · intro g hg _
    refine (hstruct g).resolve_right ?_
    rintro rfl
    exact hg hlisted
  · rintro rfl
    simp [Phys.alloc, Phys.setPage]

end Alloc

theorem entryFrame_table (h : f < 1048576) :
    entryFrame (page2pa f ||| pteP ||| pteW ||| pteU) = some f := by
  have hw : page2pa f ||| pteP ||| pteW ||| pteU = mkPte f (pteW ||| pteU) := by
    simp only [mkPte, page2pa, BitVec.or_assoc]
    congr 1
  rw [hw]
  exact entryFrame_mkPte h (by decide)

variable [DecidableEq ι]

/-- Storing an entry in the table that a walk has found. -/
theorem edits (hkeeps : Keeps dirs p q) (hu : q.Unshared dirs)
    (ht : q.target dirs (.pde e i) = some t) (hmem : r.mem = (q.setWord t j w).mem) :
    Edits dirs p r e i j w := by
  have hpte : ∀ e' i' j', r.pteAt dirs e' i' j' =
      if e' = e ∧ i' = i ∧ j' = j then w else p.pteAt dirs e' i' j' := by
    intro e' i' j'
    rw [pteAt_congr (p := q.setWord t j w) fun g _ => by rw [hmem], pteAt_setPte hu ht,
      hkeeps.pteAt]
  refine ⟨?_, fun e' i' j' hne => ?_, fun g hg hs => ?_⟩
  · rw [hpte, if_pos ⟨rfl, rfl, rfl⟩]
  · rw [hpte, if_neg hne]
  · have hgt : g ≠ t := by
      rintro rfl
      exact hs (hkeeps.structural g hg (.inr ⟨e, i, ht⟩))
    rw [hmem, mem_setWord_of_ne _ _ hgt, hkeeps.mem g hg hs]

variable [Finite ι]

/-- The page table that `pgdir_walk` allocates. -/
theorem growTable (h : Inv L dirs none p) (head : p.pageFreeList = some f)
    (hd : dirs e = some d) (hi : i.val < userPdes) (hnone : p.target dirs (.pde e i) = none) :
    Inv L dirs none (p.growTable d f i) ∧
      (p.growTable d f i).target dirs (.pde e i) = some f ∧ Keeps dirs p (p.growTable d f i) := by
  obtain ⟨ha, hspare, hkeeps, htarget, hzero⟩ := h.alloc head true
  have hflt : f < 1048576 := by
    have := ha.lt_npages hspare.owned
    have := ha.npages_le
    omega
  have href : (p.alloc f true).ref f = 0 := ha.counts.ref_eq_zero hspare.owned hspare.fresh
  have hin := ha.incref hspare.owned hspare.unlisted (by rw [href]; decide)
  -- the count is adjusted before the directory entry is written
  rw [Phys.growTable]
  generalize hq : (p.alloc f true).setRef f ((p.alloc f true).ref f + 1) = q at hin ⊢
  have hmem : q.mem = (p.alloc f true).mem := by rw [← hq]; rfl
  have htq : q.target dirs = p.target dirs := by
    rw [← htarget]
    exact target_congr fun g _ => by rw [hmem]
  have hpte : ∀ e i j, q.pteAt dirs e i j = p.pteAt dirs e i j := by
    intro e' i' j'
    rw [← hkeeps.pteAt]
    exact pteAt_congr fun g _ => by rw [hmem]
  have hzero' : ∀ j, q.word f j = 0 := by
    intro j
    rw [word, hmem, hzero rfl]
    exact readWord_zero j
  have hw : entryFrame (page2pa f ||| pteP ||| pteW ||| pteU) = some f := entryFrame_table hflt
  have hU : (page2pa f ||| pteP ||| pteW ||| pteU) &&& pteU ≠ 0 := by
    simp [BitVec.and_or_distrib_right, pteU]
  have hW : (page2pa f ||| pteP ||| pteW ||| pteU) &&& pteW ≠ 0 := by
    simp [BitVec.and_or_distrib_right, pteU, pteW]
  have hfresh : ∀ s, q.target dirs s ≠ some f := by
    rw [htq, ← htarget]
    exact hspare.fresh
  have hnone' : q.target dirs (.pde e i) = none := by rw [htq, hnone]
  have hne : f ≠ d := by
    rintro rfl
    exact hfresh (.dir e) hd
  have hgrown := target_linkTable hin.tables.unshared hd hi hnone' hw hne hzero'
  have hlist : ∀ g, (q.setWord d i (page2pa f ||| pteP ||| pteW ||| pteU)).Listed g ↔
      (p.alloc f true).Listed g := by
    intro g
    rw [Listed, Listed, ← hq]
    exact Iff.of_eq (by rw [show (((p.alloc f true).setRef f _).setWord d i _).link =
      ((p.alloc f true).setRef f _).link from rfl, setRef_link]; rfl)
  have hfl : ∀ g, ¬ p.Listed g → g ≠ f := by
    rintro g hg rfl
    rw [Listed, head] at hg
    exact hg (.here g)
  refine ⟨hin.linkTable hd hi hnone' hw hU hW hfresh hzero', ?_, ⟨?_, ?_, ?_, ?_, ?_, ?_⟩⟩
  · rw [hgrown, Function.update_self]
  · intro e' i' j'
    rw [pteAt_linkTable hin.tables.unshared hd hi hnone' hw hne hzero', hpte]
  · rw [← hq]
    exact hkeeps.userPages
  · intro g hg
    rw [hlist]
    exact hkeeps.unlisted g hg
  · intro g hg
    rw [← hkeeps.ref g hg, ← hq]
    exact setRef_ref_of_ne _ _ (hfl g hg)
  · intro g hg hs
    rcases hs with hd' | ⟨e', i', ht'⟩
    · exact .inl hd'
    · rw [hgrown] at ht'
      by_cases heq : Slot.pde e' i' = .pde e i
      · rw [heq, Function.update_self] at ht'
        exact absurd (Option.some.inj ht').symm (hfl g hg)
      · rw [Function.update_of_ne heq, htq] at ht'
        exact .inr ⟨e', i', ht'⟩
  · intro g hg hs
    have hgd : g ≠ d := by
      rintro rfl
      exact hs (.inl ⟨e, hd⟩)
    rw [mem_setWord_of_ne _ _ hgd, hmem]
    exact hkeeps.mem g hg hs

omit [DecidableEq ι] [Finite ι] in
theorem alloc_freePages {n : Nat} (h : p.FreePages (n + 1)) (head : p.pageFreeList = some f)
    (zero : Bool) : (p.alloc f zero).FreePages n := by
  rw [Phys.alloc]
  split
  · exact (h.take head).congr rfl rfl
  · exact h.take head

/-- `pgdir_walk(pgdir, va, 1)` finds or makes the page table. -/
theorem walk (h : Inv L dirs none p) (hd : dirs e = some d) (hva : va < utop) :
    (∃ q t, pgdirWalk d va true p = .ret (some ⟨t, ptx va⟩) q ∧ Inv L dirs none q ∧
        q.target dirs (.pde e (pdx va)) = some t ∧ Keeps dirs p q ∧
        ∀ n, p.FreePages (n + 1) → q.FreePages n) ∨
      pgdirWalk d va true p = .ret none p ∧ p.pageFreeList = none := by
  cases ht : p.target dirs (.pde e (pdx va)) with
  | some t =>
      obtain ⟨hp, hnum, hlt⟩ := h.table_walk hd ht
      refine .inl ⟨p, t, ?_, h, ht, .refl dirs p, fun n ⟨l, hl, hlen⟩ => ⟨l, hl, by omega⟩⟩
      rw [pgdirWalk_found hp (by rwa [hnum]), hnum]
  | none =>
      have hp := no_table_walk hd hva ht
      cases head : p.pageFreeList with
      | none => exact .inr ⟨pgdirWalk_noMem hp head, rfl⟩
      | some f =>
          have hf : L.owned f := (h.counts.take head).2.1
          obtain ⟨hinv, htab, hkeeps⟩ :=
            h.growTable head hd ((pdx_lt_iff va).mpr hva) ht
          refine .inl ⟨_, f, pgdirWalk_create hp head (h.lt_npages hf) h.npages_le, hinv, htab,
            hkeeps, fun n hfree => ?_⟩
          exact ((alloc_freePages hfree head true).setRef _).congr rfl rfl

/-- `page_remove` of a mapped page. -/
theorem remove (h : Inv L dirs none p) (hd : dirs e = some d)
    (hf : p.target dirs (.pte e (pdx va) (ptx va)) = some f) :
    ∃ t, p.target dirs (.pde e (pdx va)) = some t ∧
      pageRemove d va p = .ret () ((p.drop f).setWord t (ptx va) 0) ∧
      Inv L dirs none ((p.drop f).setWord t (ptx va) 0) := by
  obtain ⟨t, ht, hl⟩ := h.lookup hd hf
  have howned := h.tables.owned _ f hf
  have href := h.counts.ref_ne_zero howned hf
  have hlink := h.counts.link_of_not_listed howned (h.counts.not_listed_of_ref href)
  refine ⟨t, ht, pageRemove_some hl hlink, ?_⟩
  rw [drop_setWord]
  exact (h.clearPte ht hf).drop

omit [Finite ι] in
theorem remove_edits (h : Inv L dirs none p) (ht : p.target dirs (.pde e i) = some t) :
    Edits dirs p ((p.drop f).setWord t j 0) e i j 0 :=
  edits (.refl dirs p) h.tables.unshared ht (by rw [drop_setWord, drop_mem])

/-- What is known of the other pages after a `page_remove`. -/
theorem remove_other {g : Nat} (h : Inv L dirs none p) (ht : p.target dirs (.pde e i) = some t)
    (hf : p.target dirs (.pte e i j) = some f) (hg : g ≠ f) :
    ((p.drop f).setWord t j 0).ref g = p.ref g ∧
      (((p.drop f).setWord t j 0).Listed g → p.Listed g) := by
  constructor
  · change (p.drop f).ref g = p.ref g
    rw [Phys.drop]
    split
    · change ((p.setRef f (p.ref f - 1)).setLink f _).ref g = p.ref g
      rw [setLink_ref, setRef_ref_of_ne _ _ hg]
    · exact setRef_ref_of_ne _ _ hg
  · rw [drop_setWord]
    intro hl
    exact ((h.clearPte ht hf).counts.drop_listed hl).resolve_left hg

/-- The end of `page_insert`: the entry is empty, and the page is mapped there. -/
theorem insertEmpty (h : Inv L dirs none q) (ht : q.target dirs (.pde e i) = some t)
    (hnone : q.target dirs (.pte e i j) = none) (hpp : Mappable L dirs q pp)
    (hw : entryFrame w = some pp) (hmax : q.ref pp ≠ 65535) :
    Inv L dirs none ((q.setWord t j w).setRef pp (q.ref pp + 1)) := by
  have hin := h.incref hpp.owned hpp.unlisted hmax
  have htq : (q.setRef pp (q.ref pp + 1)).target dirs = q.target dirs := target_congr fun _ _ => rfl
  refine hin.fillPte (f := pp) (by rwa [htq]) (by rwa [htq]) hw ?_ hpp.user
  rw [Structural, htq]
  exact hpp.plain

/-- The end of `page_insert` when another page is mapped there. -/
theorem insertOver (h : Inv L dirs none q) (hd : dirs e = some d)
    (ht : q.target dirs (.pde e (pdx va)) = some t)
    (hf : q.target dirs (.pte e (pdx va) (ptx va)) = some f) (hpp : Mappable L dirs q pp)
    (hne : pp ≠ f) (hw : entryFrame w = some pp) :
    ∃ r, pageRemove d va q = .ret () r ∧
      ((r.setWord t (ptx va) w).setRef pp (r.ref pp + 1)).mem = (q.setWord t (ptx va) w).mem ∧
      (q.ref pp ≠ 65535 → Inv L dirs none ((r.setWord t (ptx va) w).setRef pp (r.ref pp + 1)) ∧
        ∀ n, q.FreePages n → r.FreePages n) := by
  obtain ⟨t', ht', hrem, hr⟩ := h.remove hd hf
  obtain rfl : t = t' := Option.some.inj (ht.symm.trans ht')
  obtain ⟨href, hlisted⟩ := h.remove_other ht hf hne
  generalize hreq : (q.drop f).setWord t (ptx va) 0 = r at hrem hr href hlisted
  have hmem : r.mem = (q.setWord t (ptx va) 0).mem := by rw [← hreq, drop_setWord, drop_mem]
  have huser : r.userPages = q.userPages := by
    rw [← hreq]
    exact drop_userPages q f
  have htarget : r.target dirs =
      Function.update (q.target dirs) (.pte e (pdx va) (ptx va)) none := by
    rw [target_congr (p := q.setWord t (ptx va) 0) fun g _ => by rw [hmem],
      target_setPte h.tables.unshared ht]
    rfl
  have htable : r.target dirs (.pde e (pdx va)) = some t := by
    rw [htarget, Function.update_of_ne (by simp), ht]
  have hnone : r.target dirs (.pte e (pdx va) (ptx va)) = none := by
    rw [htarget, Function.update_self]
  have hpr : Mappable L dirs r pp := by
    refine ⟨hpp.owned, fun hl => hpp.unlisted (hlisted hl), fun hs => hpp.plain ?_,
      huser ▸ hpp.user⟩
    rcases hs with hd' | ⟨e', i', ht'⟩
    · exact .inl hd'
    · rw [htarget, Function.update_of_ne (by simp)] at ht'
      exact .inr ⟨e', i', ht'⟩
  refine ⟨r, hrem, ?_, fun hmax =>
    ⟨hr.insertEmpty htable hnone hpr hw (by rwa [href]), fun n hfree => ?_⟩⟩
  · change (r.setWord t (ptx va) w).mem = _
    simp only [Phys.setWord, Phys.setPage, hmem, Function.update_self, Function.update_idem,
      writeWord_writeWord]
  · rw [← hreq, drop_setWord]
    exact (h.clearPte ht hf).counts.drop_freePages (hfree.congr rfl rfl)

/-- `page_insert` of a page that may be mapped. The counts only stay exact if the page has room
for one more reference. -/
theorem insert_total (h : Inv L dirs none p) (hd : dirs e = some d) (hva : va < utop)
    (hperm : perm.toNat < 4096) (hpp : Mappable L dirs p pp) :
    (pageInsert d pp va perm p = .ret (-eNoMem) p ∧ p.pageFreeList = none ∧
        p.target dirs (.pde e (pdx va)) = none) ∨
      ∃ q, pageInsert d pp va perm p = .ret 0 q ∧
        Edits dirs p q e (pdx va) (ptx va) (mkPte pp perm) ∧
        ((p.target dirs (.pte e (pdx va) (ptx va)) = some pp ∨ p.ref pp ≠ 65535) →
          Inv L dirs none q ∧ ∀ n, p.FreePages (n + 1) → q.FreePages n) := by
  rcases h.walk hd hva with ⟨q, t, hwalk, hq, ht, hkeeps, hfree⟩ | ⟨hwalk, head⟩
  · right
    have hpq := mappable_keeps hpp hkeeps
    have hlt : pp < 1048576 := by
      have := hq.lt_npages hpq.owned
      have := hq.npages_le
      omega
    have hw : entryFrame (mkPte pp perm) = some pp := entryFrame_mkPte hlt hperm
    have hpte : q.pteAt dirs e (pdx va) (ptx va) = q.word t (ptx va) := pteAt_of_table ht
    have htarget : p.target dirs (.pte e (pdx va) (ptx va)) =
        q.target dirs (.pte e (pdx va) (ptx va)) := by
      rw [target, target, hkeeps.pteAt]
    by_cases hp : q.word t (ptx va) &&& pteP = 0
    · have hnone : q.target dirs (.pte e (pdx va) (ptx va)) = none := by
        rw [target_pte_eq_none, hpte, hp]
      refine ⟨_, pageInsert_empty hwalk hp, edits hkeeps hq.tables.unshared ht rfl, fun hmax =>
        ⟨hq.insertEmpty ht hnone hpq hw ?_,
          fun n hn => ((hfree n hn).congr (q := q.setWord _ _ _) rfl rfl).setRef _⟩⟩
      rw [hkeeps.ref pp hpp.unlisted]
      refine hmax.resolve_left ?_
      rw [htarget, hnone]
      simp
    · have hsome : q.target dirs (.pte e (pdx va) (ptx va)) = some (pgnum (q.word t (ptx va))) := by
        rw [target, hpte, entryFrame, if_pos hp]
      by_cases hsame : pteAddr (q.word t (ptx va)) = page2pa pp
      · have hnum : pgnum (q.word t (ptx va)) = pp := by
          rw [← pgnum_pteAddr, hsame]
          exact pgnum_pageAddr hlt
        rw [hnum] at hsome
        exact ⟨_, pageInsert_same hwalk hp hsame, edits hkeeps hq.tables.unshared ht rfl,
          fun _ => ⟨hq.samePte ht hsome hw, fun n hn => (hfree n hn).congr rfl rfl⟩⟩
      · have hne : pp ≠ pgnum (q.word t (ptx va)) := by
          rintro rfl
          exact hsame (pteAddr_eq _)
        obtain ⟨r, hrem, hmem, hinv⟩ := hq.insertOver hd ht hsome hpq hne hw
        refine ⟨_, pageInsert_replace hwalk hp hsame hrem, edits hkeeps hq.tables.unshared ht hmem,
          fun hmax => ?_⟩
        have hmax' : q.ref pp ≠ 65535 := by
          rw [hkeeps.ref pp hpp.unlisted]
          refine hmax.resolve_left ?_
          rw [htarget, hsome]
          exact fun heq => hne (Option.some.inj heq).symm
        obtain ⟨hr, hmore⟩ := hinv hmax'
        exact ⟨hr,
          fun n hn => ((hmore n (hfree n hn)).congr (q := r.setWord _ _ _) rfl rfl).setRef _⟩
  · refine .inl ⟨pageInsert_noMem hwalk, head, ?_⟩
    by_contra hsome
    obtain ⟨t, ht⟩ := Option.ne_none_iff_exists'.mp hsome
    obtain ⟨hp, hnum, hlt⟩ := h.table_walk hd ht
    rw [pgdirWalk_found hp (by rwa [hnum])] at hwalk
    simp at hwalk

theorem insert (h : Inv L dirs none p) (hd : dirs e = some d) (hva : va < utop)
    (hperm : perm.toNat < 4096) (hpp : Mappable L dirs p pp)
    (hmax : p.target dirs (.pte e (pdx va) (ptx va)) = some pp ∨ p.ref pp ≠ 65535) :
    (pageInsert d pp va perm p = .ret (-eNoMem) p ∧ p.pageFreeList = none) ∨
      ∃ q, pageInsert d pp va perm p = .ret 0 q ∧ Inv L dirs none q ∧
        Edits dirs p q e (pdx va) (ptx va) (mkPte pp perm) ∧
        ∀ n, p.FreePages (n + 1) → q.FreePages n := by
  rcases h.insert_total hd hva hperm hpp with ⟨hrun, head, -⟩ | ⟨q, hrun, hedit, hinv⟩
  · exact .inl ⟨hrun, head⟩
  · exact .inr ⟨q, hrun, (hinv hmax).1, hedit, (hinv hmax).2⟩

end Inv

end Phys

end Jos
