import Jos.Boot.Start
import Jos.Pmap.Leaks

/-!
# Runs of the memory operations

Any sequence of `env_alloc`, `page_alloc`, `page_insert`, `page_remove` and `env_free`
from the booted kernel on, each called as its contract allows. The caller of
`page_alloc` has the page in hand until it is mapped somewhere; `hand` are these
pages. They are the only ones that are neither in use nor free, and this is what
the runs keep.
-/

namespace Jos

open Prog

/-- What the x86 walk finds below `UTOP` is what the slots of the address space say. -/
theorem Phys.maps_iff {dirs : EnvIdx → Option Nat} {p : Phys} {e : EnvIdx} {d f : Nat} {va : Word}
    (hd : dirs e = some d) (hva : va < utop) :
    p.Maps d va f ↔ p.target dirs (.pte e (pdx va) (ptx va)) = some f := by
  have hpde : p.pdeAt dirs e (pdx va) = p.word d (pdx va) := pdeAt_of_dir hd ((pdx_lt_iff va).mpr hva)
  by_cases hp : p.word d (pdx va) &&& pteP = 0
  · have hnone : p.target dirs (.pde e (pdx va)) = none := by
      rw [target, hpde, entryFrame, if_neg (by simpa using hp)]
    rw [Maps, translate_of_no_table hp, target, pteAt_of_none hnone]
    simp
  · have ht : p.target dirs (.pde e (pdx va)) = some (pgnum (p.word d (pdx va))) := by
      rw [target, hpde, entryFrame, if_pos hp]
    rw [maps_of_table hp, target, pteAt_of_table ht, entryFrame]
    split
    · rename_i hpte
      exact ⟨fun h => by rw [h.2], fun h => ⟨hpte, Option.some.inj h⟩⟩
    · rename_i hpte
      exact ⟨fun h => absurd h.1 hpte, fun h => by simp at h⟩

/-- A call of one of the operations. -/
inductive PageOp where
  | envAlloc (parentId : Word)
  | pageAlloc (zero : Bool)
  | insert (e : EnvIdx) (pp : Nat) (va perm : Word)
  | remove (e : EnvIdx) (va : Word)
  | envFree (c : Nat) (e : EnvIdx)

namespace PageOp

/-- Run the operation; the result are the pages in hand. -/
def exec (hand : List Nat) : PageOp → KM (List Nat)
  | .envAlloc parentId => do
      let _ ← Jos.envAlloc parentId
      pure hand
  | .pageAlloc zero => do
      let found ← pmap (userPageAlloc zero)
      pure (found.toList ++ hand)
  | .insert e pp va perm => do
      let r ← insertInto e pp va perm
      pure (if r = 0 then hand.filter (· ≠ pp) else hand)
  | .remove e va => do
      let pgdir ← pgdirOf e
      pmap (pageRemove pgdir va)
      pure hand
  | .envFree c e => do
      Jos.envFree c e
      pure hand

/-- The operation is called on a live environment and below `UTOP`; what is inserted comes
from `page_alloc`, either fresh or mapped somewhere already. -/
def Legal (k : Kernel) (hand : List Nat) : PageOp → Prop
  | .envAlloc _ => True
  | .pageAlloc _ => True
  | .insert e pp va perm => k.status e ≠ .free ∧ va < utop ∧ perm.toNat < 4096 ∧
      (pp ∈ hand ∨ ∃ e' va', k.pageAt e' va' = some pp)
  | .remove e va => k.status e ≠ .free ∧ va < utop
  | .envFree _ e => k.status e ≠ .free

/-- No page gets a 65536th reference, and nothing is removed where a page table exists but
no page is mapped. -/
def Sane (k : Kernel) : PageOp → Prop
  | .insert e pp va _ => k.pageAt e va = some pp ∨ k.phys.ref pp ≠ 65535
  | .remove e va => ¬ k.HoleAt e va
  | _ => True

end PageOp

/-- A run of legal operations that all satisfy `G`. -/
inductive PageRun (G : Kernel → PageOp → Prop) (k₀ : Kernel) : Kernel → List Nat → Prop
  | start : PageRun G k₀ k₀ []
  | step {k k' : Kernel} {hand hand' : List Nat} (op : PageOp) (before : PageRun G k₀ k hand)
      (legal : op.Legal k hand) (guard : G k op) (run : op.exec hand k = .ret hand' k') :
      PageRun G k₀ k' hand'

theorem PageRun.weaken {G : Kernel → PageOp → Prop} {k₀ k : Kernel} {hand : List Nat}
    (h : PageRun G k₀ k hand) : PageRun (fun _ _ => True) k₀ k hand := by
  induction h with
  | start => exact .start
  | step op _ legal _ run ih => exact .step op ih legal trivial run

/-- `env_free` loses no page. -/
theorem envFree_lost (k : Kernel) (c : Nat) (e : EnvIdx) :
    wp (envFree c e) (fun _ k' => ∀ g, k'.phys.Lost g → k.phys.Lost g) (fun _ _ => True)
      (fun _ => True) k := by
  rw [envFree, wp_bind, wp_get, wp_bind]
  have hcr3 : wp (when (k.curenv c = some e)
      (modify fun k => k.setCpu c { k.cpus c with cr3 := k.kernPgdir }) : KM Unit)
      (fun _ k₁ => k₁.phys = k.phys) (fun _ _ => True) (fun _ => True) k := by
    rw [wp_when, wp_modify]
    exact ⟨fun _ => rfl, fun _ => rfl⟩
  apply wp_imp hcr3
  intro _ k₁ hphys
  rw [wp_bind, pgdirOf, wp_bind, wp_get]
  cases hd : (k₁.envs e).pgdir with
  | none =>
      dsimp only
      rw [wp_panic]
      trivial
  | some d =>
      dsimp only
      rw [wp_pure, wp_bind, pmap, wp_zoom]
      apply wp_mono (envFreePdes_lost k₁.phys d) _ (fun r => r.elim) (fun _ _ => trivial)
      intro _ p hp
      simp only [paddrPgdir, wp_bind, wp_get, hd, wp_pure, wp_modify, pmap, wp_zoom, pa2page,
        frameOf, wp_ite, wp_panic]
      refine ⟨fun _ => trivial, fun _ => ?_⟩
      apply wp_mono (pageDecref_lost _ _) _ (fun r => r.elim) (fun _ _ => trivial)
      intro _ q hq g hg
      rw [← hphys]
      exact hp g (hq.1 g hg)

theorem Kernel.SlotsFree.envFree {k k' : Kernel} {c : Nat} {e : EnvIdx} (h : k.SlotsFree)
    (hlive : k.status e ≠ .free) (run : Jos.envFree c e k = .ret () k') : k'.SlotsFree := by
  have same := (wp_ret run).mp (envFree_released (k := k) (X := fun _ _ => True))
  generalize hk : (if k.curenv c = some e then k.setCpu c { k.cpus c with cr3 := k.kernPgdir }
    else k) = k₁ at same
  have hslots : k₁.SlotsFree ∧ k₁.status e ≠ .free := by
    rw [← hk]
    split
    · exact ⟨h.congr (fun _ => rfl) rfl fun _ hfree => hfree, hlive⟩
    · exact ⟨h, hlive⟩
  exact (hslots.1.released hslots.2).congr (fun e' => (same.envs e').link) same.envFreeList
    fun e' hfree => (same.envs e').status.trans hfree

/-- The pages in hand are those that nobody refers to and that are not free. -/
structure HoldInv (L : Layout) (hand : List Nat) (k : Kernel) : Prop where
  mem : MemInv L k
  slots : k.SlotsFree
  held : ∀ f, f ∈ hand ↔ L.owned f ∧ k.phys.Lost f
  user : ∀ f ∈ hand, f ∈ k.phys.userPages

namespace HoldInv

variable {L : Layout} {k k' : Kernel} {hand : List Nat} {e : EnvIdx} {f pp : Nat}
  {va perm : Word}

/-- A page in hand can be mapped. -/
theorem mappable (h : HoldInv L hand k) (hf : f ∈ hand) :
    Phys.Mappable L k.dirs k.phys f := by
  obtain ⟨howned, href, hlisted⟩ := (h.held f).mp hf
  have hfresh : ∀ s, k.phys.target k.dirs s ≠ some f := fun s hs =>
    h.mem.phys.counts.ref_ne_zero howned hs href
  refine ⟨howned, hlisted, ?_, h.user f hf⟩
  rintro (⟨e, hd⟩ | ⟨e, i, ht⟩)
  · exact hfresh (.dir e) hd
  · exact hfresh (.pde e i) ht

/-- The invariant after a call that changes memory only. -/
theorem of_phys (h : HoldInv L hand k) {p : Phys} {hand' : List Nat} (hp : p.Inv L k.dirs none)
    (held : ∀ f, f ∈ hand' ↔ L.owned f ∧ p.Lost f) (user : ∀ f ∈ hand', f ∈ p.userPages) :
    HoldInv L hand' { k with phys := p } :=
  ⟨h.mem.of_phys hp, h.slots.congr (fun _ => rfl) rfl fun _ hfree => hfree, held, user⟩

/-- `page_alloc` puts the page into the caller's hand. -/
theorem pageAlloc (h : HoldInv L hand k) (zero : Bool) :
    wp (PageOp.exec hand (.pageAlloc zero)) (HoldInv L) (fun _ _ => False) (fun _ => False) k := by
  rw [PageOp.exec, wp_bind]
  cases head : k.phys.pageFreeList with
  | none =>
      have hrun : userPageAlloc zero k.phys = .ret none k.phys := by
        rw [userPageAlloc, bind_ret _ (pageAlloc_none head zero)]
        rfl
      rw [wp_ret (pmap_ret hrun), wp_pure]
      exact h
  | some f =>
      obtain ⟨ha, hspare, -⟩ := h.mem.phys.alloc head zero
      have hlt := h.mem.phys.lt_npages hspare.owned
      have hrun : userPageAlloc zero k.phys = .ret (some f)
          { k.phys.alloc f zero with userPages := f :: (k.phys.alloc f zero).userPages } := by
        rw [userPageAlloc, bind_ret _ (pageAlloc_some head hlt h.mem.phys.npages_le zero)]
        rfl
      rw [wp_ret (pmap_ret hrun), wp_pure]
      have hlost : ∀ g, ({ k.phys.alloc f zero with
          userPages := f :: (k.phys.alloc f zero).userPages } : Phys).Lost g ↔
          k.phys.Lost g ∨ g = f := by
        intro g
        cases zero with
        | false => exact h.mem.phys.freeSound.lost_take head rfl rfl
        | true => exact h.mem.phys.freeSound.lost_take head rfl rfl
      have huser : (k.phys.alloc f zero).userPages = k.phys.userPages := by
        cases zero <;> rfl
      refine h.of_phys (ha.recordUserPage [f]) (fun g => ?_) fun g hg => ?_
      · rw [hlost, Option.toList_some, List.singleton_append, List.mem_cons, h.held]
        constructor
        · rintro (rfl | hg)
          · exact ⟨hspare.owned, .inr rfl⟩
          · exact ⟨hg.1, .inl hg.2⟩
        · rintro ⟨howned, hg | rfl⟩
          · exact .inr ⟨howned, hg⟩
          · exact .inl rfl
      · rw [Option.toList_some, List.singleton_append, List.mem_cons] at hg
        rw [List.mem_cons, huser]
        exact hg.imp_right (h.user g)

/-- `page_insert` takes it out again, if it succeeds. -/
theorem insert (h : HoldInv L hand k) (legal : (PageOp.insert e pp va perm).Legal k hand)
    (sane : (PageOp.insert e pp va perm).Sane k) :
    wp (PageOp.exec hand (.insert e pp va perm)) (HoldInv L) (fun _ _ => False) (fun _ => False)
      k := by
  obtain ⟨hlive, hva, hperm, hpp⟩ := legal
  have hmap : Phys.Mappable L k.dirs k.phys pp := by
    rcases hpp with hpp | ⟨e', va', hpp⟩
    · exact h.mappable hpp
    · exact h.mem.mappable hpp
  obtain ⟨d, hd, hpg⟩ := h.mem.pgdirOf_run hlive
  rw [PageOp.exec, wp_bind, insertInto, wp_bind, wp_ret hpg]
  rcases h.mem.phys.insert hd hva hperm hmap sane with ⟨hrun, -⟩ | ⟨q, hrun, hq, hedit, -⟩
  · rw [wp_ret (pmap_ret hrun), wp_pure, if_neg (by decide)]
    exact h
  · rw [wp_ret (pmap_ret hrun), wp_pure, if_pos rfl]
    have hmax : k.phys.Maps d va pp ∨ k.phys.ref pp ≠ 65535 := by
      exact sane.imp_left (Phys.maps_iff hd hva).mpr
    have hlost := (wp_ret hrun).mp (pageInsert_lost h.mem.phys.freeSound hmap.unlisted hmax)
    have hpage : q.ref pp ≠ 0 := by
      have hmaps : q.target k.dirs (.pte e (pdx va) (ptx va)) = some pp := by
        rw [Phys.target, hedit.pteAt_self]
        have hlt := h.mem.phys.lt_npages hmap.owned
        have hn := h.mem.phys.npages_le
        exact entryFrame_mkPte (by omega) hperm
      exact hq.counts.ref_ne_zero hmap.owned hmaps
    have hothers : ∀ g ∈ hand, g ≠ pp → q.Lost g ∧ (g ∈ k.phys.userPages → g ∈ q.userPages) :=
      fun g hg hne => h.mem.phys.insert_others hd hva ((h.held g).mp hg).2 hne hrun
    refine h.of_phys hq (fun g => ?_) fun g hg => ?_
    · rw [List.mem_filter, decide_eq_true_eq]
      constructor
      · rintro ⟨hg, hne⟩
        exact ⟨((h.held g).mp hg).1, (hothers g hg hne).1⟩
      · rintro ⟨howned, hg⟩
        refine ⟨(h.held g).mpr ⟨howned, hlost g hg⟩, ?_⟩
        rintro rfl
        exact hpage hg.1
    · rw [List.mem_filter, decide_eq_true_eq] at hg
      exact (hothers g hg.1 hg.2).2 (h.user g hg.1)

/-- `page_remove` of a mapped page, or where there is no page table. -/
theorem remove (h : HoldInv L hand k) (legal : (PageOp.remove e va).Legal k hand)
    (sane : (PageOp.remove e va).Sane k) :
    wp (PageOp.exec hand (.remove e va)) (HoldInv L) (fun _ _ => False) (fun _ => False) k := by
  obtain ⟨hlive, hva⟩ := legal
  obtain ⟨d, hd, hpg⟩ := h.mem.pgdirOf_run hlive
  rw [PageOp.exec, wp_bind, wp_ret hpg, wp_bind]
  cases hpage : k.pageAt e va with
  | none =>
      have hnone : k.phys.target k.dirs (.pde e (pdx va)) = none := by
        rw [Option.eq_none_iff_forall_ne_some]
        exact fun t ht => sane ⟨⟨t, ht⟩, hpage⟩
      have hrun := pageRemove_none (Phys.Inv.no_table_walk hd hva hnone)
      rw [wp_ret (pmap_ret hrun), wp_pure]
      exact h
  | some f =>
      obtain ⟨t, ht, hrun, hq⟩ := h.mem.phys.remove hd hpage
      rw [wp_ret (pmap_ret hrun), wp_pure]
      have hlost := ((wp_ret hrun).mp (pageRemove_lost k.phys d va)).1
      refine h.of_phys hq (fun g => ⟨fun hg => ?_, fun hg => ?_⟩) fun g hg => ?_
      · obtain ⟨howned, hgl⟩ := (h.held g).mp hg
        have hne : g ≠ f := by
          rintro rfl
          exact h.mem.phys.counts.ref_ne_zero howned hpage hgl.1
        obtain ⟨href, hlisted⟩ := h.mem.phys.remove_other ht hpage hne
        exact ⟨howned, href.trans hgl.1, fun hl => hgl.2 (hlisted hl)⟩
      · exact (h.held g).mpr ⟨hg.1, hlost g hg.2⟩
      · change g ∈ (k.phys.drop f).userPages
        rw [Phys.Inv.drop_userPages]
        exact h.user g hg

/-- `env_alloc` uses up a free page, but none in hand. -/
theorem envAlloc (h : HoldInv L hand k) (parentId : Word) :
    wp (PageOp.exec hand (.envAlloc parentId)) (HoldInv L) (fun _ _ => False) (fun _ => False)
      k := by
  rw [PageOp.exec, wp_bind]
  cases head : k.envFreeList with
  | none =>
      rw [Jos.envAlloc, wp_bind, wp_get, head]
      exact (wp_pure _).mpr ((wp_pure _).mpr h)
  | some e =>
      cases hpage : k.phys.pageFreeList with
      | none =>
          rw [Jos.envAlloc, wp_bind, wp_get, head]
          dsimp only
          rw [wp_bind, wp_ret (envSetupVm_noMem hpage), if_pos (by decide)]
          exact (wp_pure _).mpr ((wp_pure _).mpr h)
      | some f =>
          have hlt := h.mem.phys.lt_npages (h.mem.phys.alloc hpage true).2.1.owned
          rw [wp_ret (envAlloc_run parentId head hpage hlt h.mem.phys.npages_le), wp_pure]
          refine ⟨h.mem.created h.slots head hpage parentId,
            h.slots.created head parentId f _, fun g => ?_, h.user⟩
          rw [h.held, h.mem.phys.newDir_lost hpage]

/-- `env_free` gives pages back, but none that is in hand. -/
theorem envFree (h : HoldInv L hand k) {c : Nat} (hlive : k.status e ≠ .free) :
    wp (PageOp.exec hand (.envFree c e)) (HoldInv L) (fun _ _ => False) (fun _ => False) k := by
  obtain ⟨_, k', hrun, hmem, -, hshed⟩ := exists_of_wp (h.mem.envFree_shrinks (c := c) hlive)
  have hlost := (wp_ret hrun).mp (envFree_lost k c e)
  rw [PageOp.exec, wp_bind, wp_ret hrun, wp_pure]
  refine ⟨hmem, h.slots.envFree hlive hrun, fun g => ⟨fun hg => ?_, fun hg => ?_⟩, fun g hg => ?_⟩
  · obtain ⟨howned, hgl⟩ := (h.held g).mp hg
    have hfresh : ∀ s, k.phys.target k.dirs s ≠ some g := fun s hs =>
      h.mem.phys.counts.ref_ne_zero howned hs hgl.1
    refine ⟨howned, ?_, fun hl => ?_⟩
    · exact hmem.phys.counts.ref_eq_zero howned fun s hs => hfresh s (hshed.target s g hs)
    · rcases hshed.listed g hl with hl | ⟨s, hs⟩
      · exact hgl.2 hl
      · exact hfresh s hs
  · exact (h.held g).mpr ⟨hg.1, hlost g hg.2⟩
  · rw [hshed.userPages]
    exact h.user g hg

/-- Every legal operation returns, and keeps the invariant. -/
theorem exec (h : HoldInv L hand k) {op : PageOp} (legal : op.Legal k hand) (sane : op.Sane k) :
    wp (op.exec hand) (HoldInv L) (fun _ _ => False) (fun _ => False) k := by
  cases op with
  | envAlloc parentId => exact h.envAlloc parentId
  | pageAlloc zero => exact h.pageAlloc zero
  | insert e pp va perm => exact h.insert legal sane
  | remove e va => exact h.remove legal sane
  | envFree c e => exact h.envFree legal

theorem run {k₀ : Kernel} (h : HoldInv L [] k₀) (run : PageRun (fun k op => op.Sane k) k₀ k hand) :
    HoldInv L hand k := by
  induction run with
  | start => exact h
  | step op _ legal sane run ih => exact (wp_ret run).mp (ih.exec legal sane)

end HoldInv

/-- The kernel without programs: everything that the allocator manages is free. -/
theorem Booted.holdInv {m : Machine} {k : Kernel} (h : Booted m [] k) :
    ∃ L : Layout, m.Sets L ∧ HoldInv L [] k ∧ ∀ f, L.owned f ↔ k.phys.Listed f := by
  obtain ⟨n, l, p, htree, hcreate⟩ := h.kernTree
  obtain ⟨hphys, -, -, -, -, -, hidle⟩ := envInit_spec m.toHardware p
  have hmem := htree.memInv
  obtain ⟨-, rfl⟩ := Outcome.ret.inj hcreate
  generalize envInit m.toHardware p = k at hphys hidle hmem
  have howned : ∀ f, htree.layout.owned f ↔ k.phys.Listed f := by
    intro f
    rw [hphys]
    exact htree.free.linked_iff.symm
  refine ⟨htree.layout, htree.sets, ⟨hmem, hidle.slots, fun f => ?_, by simp⟩, howned⟩
  simp only [List.not_mem_nil, false_iff, not_and]
  intro hf hlost
  exact hlost.2 ((howned f).mp hf)

end Jos
