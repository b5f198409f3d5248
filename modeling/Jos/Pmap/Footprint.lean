import Jos.Kernel.AddressSpace
import Jos.Pmap.Remove
import Jos.Pmap.UserMem

/-!
# The pages that the memory manager writes

Without any invariant: `page_insert`, `page_remove` and the loops of `env_free` write to
the page directory they are given, to the page tables below `UTOP` that it names,
and to pages from the free list. A set `S` of pages that contains none of these
keeps its contents.
-/

namespace Jos

open Prog

variable {p q : Phys} {d f : Nat} {va : Word} {S : Nat → Prop}

section Reads

variable (p) (d) (va)

theorem pgdirWalk_reads :
    wp (pgdirWalk d va false) (fun found q => q = p ∧ ∀ pte, found = some pte →
      p.word d (pdx va) &&& pteP ≠ 0 ∧ pte = ⟨pgnum (p.word d (pdx va)), ptx va⟩)
      (fun _ _ => True) (fun _ => True) p := by
  by_cases hp : p.word d (pdx va) &&& pteP = 0
  · rw [wp_ret (pgdirWalk_absent hp)]
    exact ⟨rfl, fun _ h => by simp at h⟩
  · by_cases hn : pgnum (p.word d (pdx va)) < p.npages
    · rw [wp_ret (pgdirWalk_found hp hn false)]
      exact ⟨rfl, fun pte h => ⟨hp, (Option.some.inj h).symm⟩⟩
    · have hpanic : pgdirWalk d va false p = .panic .kaddr := by
        rw [pgdirWalk_false, if_neg hp, if_pos (by omega)]
      rw [wp_panic_eq hpanic]
      trivial

theorem pageLookup_reads :
    wp (pageLookup d va) (fun found q => q = p ∧ ∀ pp pte, found = some (pp, pte) →
      p.word d (pdx va) &&& pteP ≠ 0 ∧ pte = ⟨pgnum (p.word d (pdx va)), ptx va⟩ ∧
        pp = pgnum (p.word (pgnum (p.word d (pdx va))) (ptx va)))
      (fun _ _ => True) (fun _ => True) p := by
  rw [pageLookup, wp_bind]
  apply wp_imp (pgdirWalk_reads p d va)
  rintro found _ ⟨rfl, hfound⟩
  cases found with
  | none =>
      rw [wp_pure]
      exact ⟨rfl, fun _ _ h => by simp at h⟩
  | some pte =>
      simp only [PtePtr.load, pa2page, frameOf, wp_bind, wp_get, wp_pure, wp_ite, wp_panic]
      refine ⟨fun _ => trivial, fun _ => ⟨trivial, fun pp pte' h => ?_⟩⟩
      obtain ⟨rfl, rfl⟩ := Prod.mk.inj (Option.some.inj h)
      obtain ⟨hp, rfl⟩ := hfound _ rfl
      exact ⟨hp, rfl, pgnum_pteAddr _⟩

theorem userMemCheck_reads (len perm : Word) :
    wp (userMemCheck d va len perm) (fun _ q => q = p) (fun _ _ => True) (fun _ => True) p := by
  rw [userMemCheck]
  generalize roundup (va + len) = stop
  generalize perm ||| pteP ||| pteU = need
  generalize rounddown va = addr
  induction 1048576 generalizing addr with
  | zero => rw [userMemScan, wp_pure]
  | succ n ih =>
      rw [userMemScan, wp_ite, wp_bind, wp_pure]
      refine ⟨fun _ => ?_, fun _ => rfl⟩
      rcases userMemDenied_cases p d need addr with h | h | ⟨h, -⟩
      · rw [wp_ret h]
        exact ih _
      · rw [wp_ret h, if_pos rfl, wp_pure]
      · rw [wp_panic_eq h]
        trivial

theorem kernelLoad_reads :
    wp (kernelLoad d va) (fun _ q => q = p) (fun _ _ => True) (fun _ => True) p := by
  rw [kernelLoad, wp_bind, wp_get]
  cases p.translate d va with
  | none =>
      rw [wp_panic]
      trivial
  | some entries => rw [wp_pure]

theorem readString_reads (n : Nat) :
    wp (readString d n va) (fun _ q => q = p) (fun _ _ => True) (fun _ => True) p := by
  induction n generalizing va with
  | zero =>
      rw [readString, wp_bind]
      apply wp_imp (kernelLoad_reads p d va)
      rintro _ _ rfl
      rw [wp_pure]
  | succ n ih =>
      rw [readString, wp_bind]
      apply wp_imp (kernelLoad_reads p d va)
      rintro _ _ rfl
      rw [wp_when]
      exact ⟨fun _ => ih (va + 1), fun _ => rfl⟩

end Reads

namespace Phys

/-- The pages of `S` hold the same in both states. -/
def Agree (S : Nat → Prop) (p q : Phys) : Prop := ∀ f, S f → q.mem f = p.mem f

theorem Agree.refl (S : Nat → Prop) (p : Phys) : Agree S p p := fun _ _ => rfl

theorem Agree.trans {r : Phys} (h : Agree S p q) (h' : Agree S q r) : Agree S p r :=
  fun f hf => (h' f hf).trans (h f hf)

theorem Agree.of_mem (h : q.mem = p.mem) : Agree S p q := fun f _ => by rw [h]

theorem Agree.setPage (hf : ¬ S f) (page : Page) : Agree S p (p.setPage f page) := by
  intro g hg
  refine p.mem_setPage_of_ne page ?_
  rintro rfl
  exact hf hg

theorem Agree.setWord (hf : ¬ S f) (i : Idx) (w : Word) : Agree S p (p.setWord f i w) :=
  .setPage hf _

/-- Neither the directory nor one of its page tables below `UTOP` is in `S`. -/
structure Avoids (S : Nat → Prop) (p : Phys) (d : Nat) : Prop where
  dir : ¬ S d
  table : ∀ i : Idx, i.val < userPdes → p.word d i &&& pteP ≠ 0 → ¬ S (pgnum (p.word d i))

theorem Avoids.of_mem (h : Avoids S p d) (hmem : q.mem = p.mem) : Avoids S q d := by
  refine ⟨h.dir, fun i => ?_⟩
  rw [p.word_congr (by rw [hmem])]
  exact h.table i

/-- Clearing an entry anywhere does not bring in a page table. -/
theorem Avoids.clear (h : Avoids S p d) (t : Nat) (j : Idx) : Avoids S (p.setWord t j 0) d := by
  refine ⟨h.dir, fun i hi => ?_⟩
  rw [word_setWord]
  split
  · intro hp
    exact absurd (BitVec.zero_and) hp
  · exact h.table i hi

end Phys

theorem pageDecref_mem (p : Phys) (f : Nat) :
    wp (pageDecref f) (fun _ q => q.mem = p.mem) (fun _ _ => True) (fun _ => True) p := by
  rw [pageDecref, wp_bind, wp_modify, wp_bind, wp_get, wp_when, pageFree, wp_bind, wp_get, wp_ite,
    wp_panic, wp_modify]
  exact ⟨fun _ => ⟨fun _ => trivial, fun _ => rfl⟩, fun _ => rfl⟩

/-- `page_remove` when the page table for `va` is not in `S`. -/
theorem pageRemove_agrees
    (ht : p.word d (pdx va) &&& pteP ≠ 0 → ¬ S (pgnum (p.word d (pdx va)))) :
    wp (pageRemove d va) (fun _ q => Phys.Agree S p q ∧ (Phys.Avoids S p d → Phys.Avoids S q d))
      (fun _ _ => True) (fun _ => True) p := by
  rw [pageRemove, wp_bind]
  apply wp_imp (pageLookup_reads p d va)
  rintro found _ ⟨rfl, hfound⟩
  cases found with
  | none =>
      rw [wp_pure]
      exact ⟨.refl S _, fun h => h⟩
  | some found =>
      obtain ⟨pp, pte⟩ := found
      obtain ⟨hp, rfl, -⟩ := hfound pp pte rfl
      dsimp only
      rw [wp_bind]
      apply wp_imp (pageDecref_mem _ pp)
      intro _ q hmem
      rw [PtePtr.store, wp_modify]
      exact ⟨.trans (.of_mem hmem) (.setWord (ht hp) _ _), fun h => (h.of_mem hmem).clear _ _⟩

/-- The allocator writes to the page it returns only. -/
theorem pageAlloc_agrees (hlisted : ∀ g, p.Listed g → g < 1048576) (zero : Bool) :
    wp (pageAlloc zero) (fun found q => q.npages = p.npages ∧ (∀ g, q.Listed g → p.Listed g) ∧
      (found = none → q = p) ∧
      ∀ f, found = some f → p.Listed f ∧ ∀ g, g ≠ f → q.mem g = p.mem g)
      (fun _ _ => True) (fun _ => True) p := by
  rw [pageAlloc, wp_bind, wp_get]
  cases head : p.pageFreeList with
  | none =>
      rw [wp_pure]
      exact ⟨rfl, fun _ h => h, fun _ => rfl, fun _ h => by simp at h⟩
  | some f =>
      have hf : p.Listed f := by
        rw [Phys.Listed, head]
        exact .here f
      have hlist : ∀ g, (p.take f).Listed g → p.Listed g := by
        intro g hg
        rw [Phys.Listed, head]
        exact .there (Linked.of_update (by rwa [Phys.Listed, Phys.take, Phys.setLink_link] at hg))
      have hdone : ∀ q : Phys, q.npages = p.npages → q.Listed = (p.take f).Listed →
          (∀ g, g ≠ f → q.mem g = p.mem g) →
          q.npages = p.npages ∧ (∀ g, q.Listed g → p.Listed g) ∧ (some f = none → q = p) ∧
            ∀ f', some f = some f' → p.Listed f' ∧ ∀ g, g ≠ f' → q.mem g = p.mem g := by
        intro q hn hq hmem
        refine ⟨hn, fun g hg => hlist g (by rwa [hq] at hg), fun h => by simp at h, fun f' h => ?_⟩
        obtain rfl := Option.some.inj h
        exact ⟨hf, hmem⟩
      simp only [wp_bind, wp_modify, wp_when, wp_pure, clearPage, page2kva, kaddr, frameOf, wp_get,
        wp_ite, wp_panic, page2pa, pgnum_pageAddr (hlisted f hf)]
      refine ⟨fun _ => ⟨fun _ => trivial, fun _ => ?_⟩, fun _ => hdone _ rfl rfl fun _ _ => rfl⟩
      exact hdone _ rfl rfl fun g hg => (p.take f).mem_setPage_of_ne _ hg

/-- `pgdir_walk` returns an entry of a page table that is not in `S`. -/
theorem pgdirWalk_agrees (h : Phys.Avoids S p d) (hva : va < utop)
    (hfree : ∀ g, p.Listed g → ¬ S g ∧ g < 1048576) :
    wp (pgdirWalk d va true) (fun found q => Phys.Agree S p q ∧ ∀ pte, found = some pte →
      ¬ S pte.table ∧ q.word d (pdx va) &&& pteP ≠ 0 ∧ ¬ S (pgnum (q.word d (pdx va))))
      (fun _ _ => True) (fun _ => True) p := by
  have hi := (pdx_lt_iff va).mpr hva
  by_cases hp : p.word d (pdx va) &&& pteP = 0
  · rw [pgdirWalk, wp_bind, wp_get, if_neg (by simpa using hp), if_pos rfl, wp_bind]
    apply wp_imp (pageAlloc_agrees (fun g hg => (hfree g hg).2) true)
    rintro found q ⟨-, -, hnone, hsome⟩
    cases found with
    | none =>
        rw [wp_pure, hnone rfl]
        exact ⟨.refl S p, fun _ h => by simp at h⟩
    | some f =>
        obtain ⟨hlisted, hmem⟩ := hsome f rfl
        obtain ⟨hf, hlt⟩ := hfree f hlisted
        have hnum := pgnum_pageAddr hlt
        simp only [wp_bind, page2kva, kaddr, frameOf, wp_get, wp_ite, wp_panic, wp_pure, pageIncref,
          wp_modify, page2pa, hnum]
        refine ⟨fun _ => trivial, fun _ => ⟨?_, fun pte hpte => ?_⟩⟩
        · intro g hg
          have hgf : g ≠ f := fun heq => hf (heq ▸ hg)
          have hgd : g ≠ d := fun heq => h.dir (heq ▸ hg)
          rw [Phys.mem_setWord_of_ne _ _ hgd]
          exact hmem g hgf
        · rw [← Option.some.inj hpte, Phys.word_setWord_self, tablePde_eq]
          exact ⟨hf, mkPte_present f _, by rwa [pgnum_mkPte hlt (by decide)]⟩
  · by_cases hn : pgnum (p.word d (pdx va)) < p.npages
    · rw [wp_ret (pgdirWalk_found hp hn true)]
      refine ⟨.refl S p, fun pte hpte => ?_⟩
      rw [← Option.some.inj hpte]
      exact ⟨h.table _ hi hp, hp, h.table _ hi hp⟩
    · have hpanic : pgdirWalk d va true p = .panic .kaddr := by
        rw [pgdirWalk, get_bind, if_pos hp]
        exact bind_panic _ (kaddr_panic (by rw [pgnum_pteAddr]; omega))
      rw [wp_panic_eq hpanic]
      trivial

theorem pageInsert_agrees (h : Phys.Avoids S p d) (hva : va < utop)
    (hfree : ∀ g, p.Listed g → ¬ S g ∧ g < 1048576) (pp : Nat) (perm : Word) :
    wp (pageInsert d pp va perm) (fun _ q => Phys.Agree S p q) (fun _ _ => True) (fun _ => True)
      p := by
  rw [pageInsert, wp_bind]
  apply wp_imp (pgdirWalk_agrees h hva hfree)
  rintro found q ⟨hagree, hfound⟩
  cases found with
  | none =>
      rw [wp_pure]
      exact hagree
  | some pte =>
      obtain ⟨ht, hp, hwalk⟩ := hfound pte rfl
      simp only [PtePtr.load, PtePtr.store, wp_bind, wp_get, wp_pure, wp_ite, wp_modify]
      refine ⟨fun _ => hagree.trans (.setWord ht _ _), fun _ => ?_⟩
      have hremove : wp (when (q.word pte.table pte.idx &&& pteP ≠ 0) (pageRemove d va))
          (fun _ r => Phys.Agree S q r) (fun _ _ => True) (fun _ => True) q := by
        rw [wp_when]
        exact ⟨fun _ => wp_imp (pageRemove_agrees fun _ => hwalk) fun _ _ h => h.1,
          fun _ => .refl S q⟩
      apply wp_imp hremove
      intro _ r hr
      rw [pageIncref, wp_modify]
      exact (hagree.trans hr).trans (.trans (.setWord ht _ _) (.of_mem rfl))

/-- One page table of `env_free`. -/
theorem envFreePde_agrees (h : Phys.Avoids S p d) {i : Idx} (hi : i.val < userPdes) :
    wp (envFreePde d i) (fun _ q => Phys.Agree S p q ∧ Phys.Avoids S q d) (fun _ _ => True)
      (fun _ => True) p := by
  rw [envFreePde, wp_bind, wp_get]
  dsimp only
  rw [wp_ite, wp_pure, wp_bind]
  refine ⟨fun _ => ⟨.refl S p, h⟩, fun _ => ?_⟩
  have hkaddr : wp (kaddr (pteAddr (p.word d i))) (fun _ q => q = p) (fun _ _ => True)
      (fun _ => True) p := by
    rw [kaddr, frameOf, wp_bind, wp_get, wp_ite, wp_panic, wp_pure]
    exact ⟨fun _ => trivial, fun _ => rfl⟩
  apply wp_imp hkaddr
  intro pt p' hp'
  rw [hp', wp_bind]
  have hloop : wp (forRange 1024 fun pteno => do
      let p ← get
      when (p.word pt (Fin.ofNat 1024 pteno) &&& pteP ≠ 0)
        (pageRemove d (pgaddr i (Fin.ofNat 1024 pteno))))
      (fun _ q => Phys.Agree S p q ∧ Phys.Avoids S q d) (fun _ _ => True) (fun _ => True) p := by
    refine wp_imp (wp_forRange (fun _ q => Phys.Agree S p q ∧ Phys.Avoids S q d) ?_
      ⟨.refl S p, h⟩) fun _ _ hq => hq
    rintro n q - ⟨hagree, havoids⟩
    rw [wp_bind, wp_get, wp_when]
    refine ⟨fun _ => ?_, fun _ => ⟨hagree, havoids⟩⟩
    have hva : pgaddr i (Fin.ofNat 1024 n) < utop := by
      rw [← pdx_lt_iff, pdx_pgaddr]
      exact hi
    have htable := havoids.table _ ((pdx_lt_iff _).mpr hva)
    exact wp_imp (pageRemove_agrees htable) fun _ _ hr => ⟨hagree.trans hr.1, hr.2 havoids⟩
  apply wp_imp hloop
  rintro _ q ⟨hagree, havoids⟩
  rw [wp_bind, wp_modify, wp_bind, pa2page, frameOf, wp_bind, wp_get, wp_ite, wp_panic, wp_pure]
  refine ⟨fun _ => trivial, fun _ => ?_⟩
  refine wp_imp (pageDecref_mem _ _) fun _ r hmem => ⟨?_, ?_⟩
  · exact hagree.trans (.trans (.setWord h.dir _ _) (.of_mem hmem))
  · exact (havoids.clear _ _).of_mem hmem

/-- All page tables of `env_free`. -/
theorem envFreePdes_agree (h : Phys.Avoids S p d) :
    wp (forRange 955 fun pdeno => envFreePde d (Fin.ofNat 1024 pdeno))
      (fun _ q => Phys.Agree S p q) (fun _ _ => True) (fun _ => True) p := by
  refine wp_imp (wp_forRange (fun _ q => Phys.Agree S p q ∧ Phys.Avoids S q d) ?_
    ⟨.refl S p, h⟩) fun _ _ hq => hq.1
  rintro n q hn ⟨hagree, havoids⟩
  have hi : (Fin.ofNat 1024 n).val < userPdes := by
    rw [show (Fin.ofNat 1024 n).val = n from Nat.mod_eq_of_lt (by omega)]
    exact hn
  exact wp_imp (envFreePde_agrees havoids hi) fun _ _ hr => ⟨hagree.trans hr.1, hr.2⟩

end Jos
