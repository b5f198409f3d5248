import Jos.Kernel.Entry
import Jos.Pmap.Spec

/-!
# Building and freeing address spaces

`env_setup_vm` and `env_free` on a well-formed memory. The loops of `env_free`
empty one page table after the other; their invariants say which entries are
already gone.
-/

namespace Jos

open Prog

theorem pgaddr_toNat (d t : Idx) : (pgaddr d t).toNat = d.val * 4194304 + t.val * 4096 := by
  have hd := d.isLt
  have ht := t.isLt
  have hhigh : (BitVec.ofNat 32 d.val <<< 22).toNat = d.val <<< 22 := by
    simp only [BitVec.toNat_shiftLeft, BitVec.toNat_ofNat, Nat.shiftLeft_eq]
    omega
  have hlow : (BitVec.ofNat 32 t.val <<< 12).toNat = t.val * 4096 := by
    simp only [BitVec.toNat_shiftLeft, BitVec.toNat_ofNat, Nat.shiftLeft_eq]
    omega
  rw [pgaddr, BitVec.toNat_or, hhigh, hlow,
    ← Nat.shiftLeft_add_eq_or_of_lt (by omega : t.val * 4096 < 2 ^ 22), Nat.shiftLeft_eq]

@[simp] theorem pdx_pgaddr (d t : Idx) : pdx (pgaddr d t) = d := by
  apply Fin.ext
  have ht := t.isLt
  rw [pdx_val, pgaddr_toNat]
  omega

@[simp] theorem ptx_pgaddr (d t : Idx) : ptx (pgaddr d t) = t := by
  apply Fin.ext
  have ht := t.isLt
  rw [ptx_val, pgaddr_toNat]
  omega

/-- The page directory `f` that `env_setup_vm` builds from a free page: a copy of `kern`
that maps itself at `UVPT`. -/
def Phys.newDir (p : Phys) (kern f : Nat) : Phys :=
  let p₁ := p.alloc f true
  let p₂ := p₁.setPage f (p₁.mem kern)
  (p₂.setRef f (p₂.ref f + 1)).setWord f (pdx uvpt) (page2pa f ||| pteP ||| pteU)

/-- Apart from the self-map, the entries of the new directory are those of `kern`. -/
theorem Phys.newDir_word {p : Phys} {kern f : Nat} (hne : kern ≠ f) {i : Idx} (hi : i ≠ pdx uvpt) :
    (p.newDir kern f).word f i = p.word kern i := by
  rw [newDir, word_setWord_of_ne _ _ hi]
  change readWord (Function.update (p.alloc f true).mem f ((p.alloc f true).mem kern) f) i = _
  rw [Function.update_self]
  refine congrArg (readWord · i) ?_
  change (if true = true then (p.take f).setPage f fun _ => 0 else p.take f).mem kern = p.mem kern
  rw [if_pos rfl]
  exact (p.take f).mem_setPage_of_ne _ hne

theorem envSetupVm_noMem {k : Kernel} {e : EnvIdx} (head : k.phys.pageFreeList = none) :
    envSetupVm e k = .ret (-eNoMem) k := by
  rw [envSetupVm, bind_ret _ (pmap_ret (pageAlloc_none head true))]
  rfl

theorem envSetupVm_run {k : Kernel} {e : EnvIdx} {f : Nat} (head : k.phys.pageFreeList = some f)
    (hlt : f < k.phys.npages) (hn : k.phys.npages ≤ 65536) :
    envSetupVm e k = .ret 0 { k.setEnv e { k.envs e with pgdir := some f } with
      phys := k.phys.newDir k.kernPgdir f } := by
  have hkva : page2kva f (k.phys.alloc f true) = .ret f (k.phys.alloc f true) := page2kva_run hlt hn
  rw [envSetupVm, bind_ret _ (pmap_ret (pageAlloc_some head hlt hn true))]
  exact bind_ret _ (pmap_ret (k := { k with phys := k.phys.alloc f true }) hkva)

/-- From `p` to `q` references were given up and none was made: only pages that were
referred to can have become free. -/
structure Phys.Sheds {ι : Type} (dirs dirs' : ι → Option Nat) (p q : Phys) : Prop where
  target : ∀ s f, q.target dirs' s = some f → p.target dirs s = some f
  listed : ∀ f, q.Listed f → p.Listed f ∨ ∃ s, p.target dirs s = some f
  userPages : q.userPages = p.userPages

theorem Phys.Sheds.refl {ι : Type} (dirs : ι → Option Nat) (p : Phys) : Sheds dirs dirs p p :=
  ⟨fun _ _ hf => hf, fun _ hf => .inl hf, rfl⟩

theorem Phys.Sheds.trans {ι : Type} {dirs dirs' dirs'' : ι → Option Nat} {p q r : Phys}
    (h : Sheds dirs dirs' p q) (h' : Sheds dirs' dirs'' q r) : Sheds dirs dirs'' p r := by
  refine ⟨fun s f hf => h.target s f (h'.target s f hf), fun f hf => ?_,
    h'.userPages.trans h.userPages⟩
  rcases h'.listed f hf with hq | ⟨s, hs⟩
  · exact h.listed f hq
  · exact .inr ⟨s, h.target s f hs⟩

namespace Phys.Inv

variable {ι : Type} {L : Layout} {dirs : ι → Option Nat} {p : Phys} {e : ι} {i : Idx} {d t : Nat}

/-- The end of `env_free`: the page directory itself. -/
theorem freeDir (h : Inv L dirs (some d) p) :
    wp (do
        let pp ← pa2page (page2pa d)
        pageDecref pp)
      (fun _ q => Inv L dirs none q ∧ q.mem = p.mem ∧ q.userPages = p.userPages ∧
        ∀ f, q.Listed f → f = d ∨ p.Listed f)
      (fun _ _ => False) (fun _ => False) p := by
  have howned := h.counts.flight_owned d rfl
  have hlt := h.lt_npages howned
  have hnum : pgnum (page2pa d) = d := pgnum_pageAddr (by have := h.npages_le; omega)
  have hpa : pa2page (page2pa d) p = .ret d p := by
    rw [pa2page_run (by rwa [hnum]), hnum]
  have hlink := h.counts.link_of_not_listed howned
    (h.counts.not_listed_of_ref h.counts.flight_ref_ne_zero)
  rw [wp_bind, wp_ret hpa, wp_ret (pageDecref_run hlink)]
  exact ⟨h.drop, drop_mem p d, drop_userPages p d, fun f hf => h.counts.drop_listed hf⟩

variable [DecidableEq ι] [Finite ι]

omit [Finite ι] in
/-- What a slot refers to after another one was emptied. -/
theorem of_update_none {t : Slot ι → Option Nat} {s s' : Slot ι} {f : Nat}
    (h : Function.update t s' none s = some f) : t s = some f := by
  by_cases hs : s = s'
  · rw [hs, Function.update_self] at h
    simp at h
  · rwa [Function.update_of_ne hs] at h

/-- One iteration of the inner loop of `env_free`. -/
theorem freePte (h : Inv L dirs none p) (hd : dirs e = some d)
    (ht : p.target dirs (.pde e i) = some t) (j : Idx) :
    wp (when (p.word t j &&& pteP ≠ 0) (pageRemove d (pgaddr i j)))
      (fun _ q => Inv L dirs none q ∧
        q.target dirs = Function.update (p.target dirs) (.pte e i j) none ∧ Sheds dirs dirs p q)
      (fun _ _ => False) (fun _ => False) p := by
  have hpte : p.pteAt dirs e i j = p.word t j := pteAt_of_table ht
  rw [wp_when]
  refine ⟨fun hp => ?_, fun hp => ⟨h, ?_, .refl dirs p⟩⟩
  · have hf : p.target dirs (.pte e (pdx (pgaddr i j)) (ptx (pgaddr i j))) =
        some (pgnum (p.word t j)) := by
      rw [pdx_pgaddr, ptx_pgaddr, target, hpte, entryFrame, if_pos hp]
    obtain ⟨t', ht', hrem, hr⟩ := h.remove hd hf
    rw [pdx_pgaddr, ht] at ht'
    obtain rfl := Option.some.inj ht'
    rw [ptx_pgaddr] at hrem hr
    have htarget : ((p.drop (pgnum (p.word t j))).setWord t j 0).target dirs =
        Function.update (p.target dirs) (.pte e i j) none := by
      rw [target_congr (p := p.setWord t j 0) fun g _ => by rw [drop_setWord, drop_mem],
        target_setPte h.tables.unshared ht]
      rfl
    refine (wp_ret hrem).mpr ⟨hr, htarget, fun s f hs => ?_, fun f hl => ?_,
      drop_userPages p _⟩
    · rw [htarget] at hs
      exact of_update_none hs
    · by_cases hne : f = pgnum (p.word t j)
      · exact .inr ⟨_, hne ▸ hf⟩
      · rw [pdx_pgaddr, ptx_pgaddr] at hf
        exact .inl ((h.remove_other ht hf hne).2 hl)
  · have hnone : p.target dirs (.pte e i j) = none := by
      rw [target_pte_eq_none, hpte]
      simpa using hp
    rw [← hnone, Function.update_eq_self]

/-- The inner loop of `env_free`. The directory stays as it is. -/
theorem freePtes (h : Inv L dirs none p) (hd : dirs e = some d)
    (ht : p.target dirs (.pde e i) = some t) :
    wp (forRange 1024 fun pteno => do
        let p ← get
        when (p.word t (Fin.ofNat 1024 pteno) &&& pteP ≠ 0)
          (pageRemove d (pgaddr i (Fin.ofNat 1024 pteno))))
      (fun _ q => Inv L dirs none q ∧
        (∀ i', q.target dirs (.pde e i') = p.target dirs (.pde e i')) ∧
        (∀ j, q.target dirs (.pte e i j) = none) ∧ Sheds dirs dirs p q)
      (fun _ _ => False) (fun _ => False) p := by
  -- after `n` iterations the first `n` entries are gone
  refine wp_imp (wp_forRange (fun n q => Inv L dirs none q ∧
    (∀ i', q.target dirs (.pde e i') = p.target dirs (.pde e i')) ∧
    (∀ j : Idx, j.val < n → q.target dirs (.pte e i j) = none) ∧ Sheds dirs dirs p q) ?_ ?_) ?_
  · rintro n q hn ⟨hinv, hpde, hgone, hold⟩
    rw [wp_bind, wp_get]
    apply wp_imp (hinv.freePte hd (by rw [hpde, ht]) (Fin.ofNat 1024 n))
    rintro _ r ⟨hr, htr, hshed⟩
    refine ⟨hr, fun i' => ?_, fun j hj => ?_, hold.trans hshed⟩
    · rw [htr, Function.update_of_ne (by simp), hpde]
    · rw [htr]
      by_cases hjn : j = Fin.ofNat 1024 n
      · rw [hjn, Function.update_self]
      · rw [Function.update_of_ne (by simpa using hjn)]
        apply hgone
        have hne : j.val ≠ n := by
          intro hv
          apply hjn
          apply Fin.ext
          simp only [Fin.ofNat, hv, Nat.mod_eq_of_lt hn]
        omega
  · exact ⟨h, fun _ => rfl, fun j hj => absurd hj (Nat.not_lt_zero _), .refl dirs p⟩
  · rintro _ q ⟨hq, hpde, hgone, hold⟩
    exact ⟨hq, hpde, fun j => hgone j j.isLt, hold⟩

/-- One iteration of the outer loop of `env_free`: the table is emptied and freed. -/
theorem freePde (h : Inv L dirs none p) (hd : dirs e = some d) (hi : i.val < userPdes) :
    wp (envFreePde d i)
      (fun _ q => Inv L dirs none q ∧ q.target dirs (.pde e i) = none ∧ Sheds dirs dirs p q)
      (fun _ _ => False) (fun _ => False) p := by
  rw [envFreePde, wp_bind, wp_get, wp_ite]
  have hentry : p.target dirs (.pde e i) = entryFrame (p.word d i) := by
    rw [target, pdeAt_of_dir hd hi]
  refine ⟨fun hp => ?_, fun hp => ?_⟩
  · rw [wp_pure]
    refine ⟨h, ?_, .refl dirs p⟩
    rw [hentry, entryFrame, if_neg (by simpa using hp)]
  · have ht : p.target dirs (.pde e i) = some (pgnum (p.word d i)) := by
      rw [hentry, entryFrame, if_pos hp]
    generalize hnum : pgnum (p.word d i) = t at ht
    have htlt : t < p.npages := h.lt_npages (h.tables.owned _ t ht)
    have hk : kaddr (pteAddr (p.word d i)) p = .ret t p := by
      have hnum' : pgnum (pteAddr (p.word d i)) = t := by rw [pgnum_pteAddr, hnum]
      rw [kaddr_run (by rwa [hnum']), hnum']
    rw [wp_bind, wp_ret hk, wp_bind]
    apply wp_imp (h.freePtes hd ht)
    rintro _ q ⟨hq, hpde, hempty, hold⟩
    have htq : q.target dirs (.pde e i) = some t := by rw [hpde, ht]
    have hun := hq.unlinkTable hd hi htq hempty
    have htu := target_unlinkTable hq.tables.unshared hd hi hempty
    have hpa : pa2page (pteAddr (p.word d i)) (q.setWord d i 0) = .ret t (q.setWord d i 0) := by
      have hnum' : pgnum (pteAddr (p.word d i)) = t := by rw [pgnum_pteAddr, hnum]
      have hlt : t < (q.setWord d i 0).npages := by
        rw [hun.npages, ← h.npages]
        exact htlt
      rw [pa2page_run (by rwa [hnum']), hnum']
    have hlink := hun.counts.link_of_not_listed (hun.counts.flight_owned t rfl)
      (hun.counts.not_listed_of_ref hun.counts.flight_ref_ne_zero)
    rw [wp_bind, wp_modify, wp_bind, wp_ret hpa, wp_ret (pageDecref_run hlink)]
    have htd : ((q.setWord d i 0).drop t).target dirs = (q.setWord d i 0).target dirs :=
      target_congr fun g _ => by rw [drop_mem]
    refine ⟨hun.drop, ?_, hold.trans ⟨fun s f hf => ?_, fun f hl => ?_,
      drop_userPages _ t⟩⟩
    · rw [htd, htu, Function.update_self]
    · rw [htd, htu] at hf
      exact of_update_none hf
    · rcases hun.counts.drop_listed hl with rfl | hl
      · exact .inr ⟨_, htq⟩
      · exact .inl hl

/-- The outer loop of `env_free`. -/
theorem freePdes (h : Inv L dirs none p) (hd : dirs e = some d) :
    wp (forRange 955 fun pdeno => envFreePde d (Fin.ofNat 1024 pdeno))
      (fun _ q => Inv L dirs none q ∧ (∀ i, q.target dirs (.pde e i) = none) ∧
        Sheds dirs dirs p q)
      (fun _ _ => False) (fun _ => False) p := by
  refine wp_imp (wp_forRange (fun n q => Inv L dirs none q ∧
    (∀ i : Idx, i.val < n → q.target dirs (.pde e i) = none) ∧ Sheds dirs dirs p q) ?_ ?_) ?_
  · rintro n q hn ⟨hinv, hgone, hold⟩
    have hval : (Fin.ofNat 1024 n).val = n := by
      simp only [Fin.ofNat, Nat.mod_eq_of_lt (by omega : n < 1024)]
    apply wp_imp (hinv.freePde hd (by rw [hval]; exact hn))
    rintro _ r ⟨hr, hnone, hkeep⟩
    refine ⟨hr, fun i hi => ?_, hold.trans hkeep⟩
    by_cases hin : i.val = n
    · have heq : i = Fin.ofNat 1024 n := Fin.ext (hin.trans hval.symm)
      rw [heq]
      exact hnone
    · rw [Option.eq_none_iff_forall_ne_some]
      intro f hf
      have hf' := hkeep.target _ f hf
      rw [hgone i (by omega)] at hf'
      simp at hf'
  · exact ⟨h, fun i hi => absurd hi (Nat.not_lt_zero _), .refl dirs p⟩
  · rintro _ q ⟨hq, hgone, hold⟩
    refine ⟨hq, fun i => ?_, hold⟩
    by_cases hi : i.val < userPdes
    · exact hgone i hi
    · rw [target, pdeAt_eq_zero hi]
      exact entryFrame_zero

/-- The new page directory has nothing mapped in the user half. -/
theorem newDir (h : Inv L dirs none p) (head : p.pageFreeList = some t) (hnone : dirs e = none) :
    Inv L (Function.update dirs e (some t)) none (p.newDir L.kern t) ∧
      (∀ e' i' j', (p.newDir L.kern t).pteAt (Function.update dirs e (some t)) e' i' j' =
        p.pteAt dirs e' i' j') ∧
      ∀ g, ¬ p.Listed g → (p.newDir L.kern t).mem g = p.mem g := by
  let p₁ := p.alloc t true
  let p₂ := p₁.setPage t (p₁.mem L.kern)
  let q := (p₂.setRef t (p₂.ref t + 1)).setWord t (pdx uvpt) (page2pa t ||| pteP ||| pteU)
  change Inv L (Function.update dirs e (some t)) none q ∧
    (∀ e' i' j', q.pteAt (Function.update dirs e (some t)) e' i' j' = p.pteAt dirs e' i' j') ∧
    ∀ g, ¬ p.Listed g → q.mem g = p.mem g
  obtain ⟨ha, hspare, hkeeps, htarget, -⟩ := h.alloc head true
  have hplain := hspare.not_structural
  have h₂ : Inv L dirs none p₂ := ha.setPage hspare.owned hplain _
  have hmem₂ : ∀ g, g ≠ t → p₂.mem g = p₁.mem g := fun g hg => p₁.mem_setPage_of_ne _ hg
  have htarget₂ : p₂.target dirs = p₁.target dirs := target_congr fun g hg =>
    hmem₂ g (by rintro rfl; exact hplain hg)
  have hfresh₂ : ∀ s, p₂.target dirs s ≠ some t := by
    rw [htarget₂]
    exact hspare.fresh
  have href : p₂.ref t = 0 := h₂.counts.ref_eq_zero hspare.owned hfresh₂
  have h₃ := h₂.incref hspare.owned hspare.unlisted (by rw [href]; decide)
  have hplain₃ : ¬ (p₂.setRef t (p₂.ref t + 1)).Structural dirs t := by
    rintro (⟨e', hd⟩ | ⟨e', i', ht⟩)
    · exact hfresh₂ (.dir e') hd
    · exact hfresh₂ (.pde e' i') ht
  have h₄ : Inv L dirs (some t) q := h₃.setPage hspare.owned hplain₃ _
  have hmem : ∀ g, g ≠ t → q.mem g = p₁.mem g := by
    intro g hg
    rw [mem_setWord_of_ne _ _ hg]
    exact hmem₂ g hg
  have htarget₄ : q.target dirs = p₁.target dirs := target_congr fun g hg =>
    hmem g (by rintro rfl; exact hplain hg)
  -- the entries of the new directory, other than the self-map
  have hword : ∀ i : Idx, i ≠ pdx uvpt → q.word t i = L.boot.word L.kern i := by
    intro i hi
    have hne : L.kern ≠ t := fun heq => L.kern_reserved (heq ▸ hspare.owned)
    exact (newDir_word hne hi).trans (word_congr _ (h.tables.frozen L.kern L.kern_reserved))
  have huser : ∀ i : Idx, i.val < userPdes → i ≠ pdx uvpt := by
    rintro i hi rfl
    exact absurd hi (by decide)
  have hempty : ∀ i : Idx, i.val < userPdes → entryFrame (q.word t i) = none := by
    intro i hi
    rw [hword i (huser i hi), entryFrame, if_neg (by simpa using L.kern_empty i hi)]
  refine ⟨h₄.linkDir hnone ?_ hempty (fun i _ hi => hword i hi) (word_setWord_self _ _), ?_, ?_⟩
  · rw [htarget₄]
    exact hspare.fresh
  · intro e' i' j'
    rw [← hkeeps.pteAt]
    by_cases he : e' = e
    · subst he
      rw [pteAt_of_none, pteAt_of_none]
      · simp [target, pdeAt, hnone]
      · rw [target_linkDir hnone hempty, Function.update_of_ne (by simp)]
        simp [target, pdeAt, hnone]
    · have hq : q.pteAt dirs e' i' j' = p₁.pteAt dirs e' i' j' := pteAt_congr fun g hg =>
        hmem g (by rintro rfl; exact hplain hg)
      rw [← hq]
      simp only [pteAt, pdeAt, Function.update_of_ne he]
  · intro g hg
    have hgt : g ≠ t := by
      rintro rfl
      rw [Listed, head] at hg
      exact hg (.here g)
    rw [hmem g hgt]
    change (if true = true then (p.take t).setPage t fun _ => 0 else p.take t).mem g = p.mem g
    rw [if_pos rfl]
    exact (p.take t).mem_setPage_of_ne _ hgt

end Phys.Inv

/-- The page directories of all environments. -/
def Kernel.dirs (k : Kernel) : EnvIdx → Option Nat := fun e => (k.envs e).pgdir

/-- The invariant of the memory manager, and what it means for the environments. -/
structure MemInv (L : Layout) (k : Kernel) : Prop where
  phys : k.phys.Inv L k.dirs none
  kern : k.kernPgdir = L.kern
  live : ∀ e, k.status e = .free ↔ k.dirs e = none

theorem Phys.Inv.of_dirs {L : Layout} {dirs dirs' : EnvIdx → Option Nat} {o : Option Nat}
    {p : Phys} (h : p.Inv L dirs o) (heq : ∀ e, dirs' e = dirs e) : p.Inv L dirs' o := by
  rwa [show dirs' = dirs from funext heq]

namespace MemInv

variable {L : Layout} {k k' : Kernel} {c : Nat} {e : EnvIdx} {d : Nat}

/-- The total-correctness form of a call on the memory manager. -/
theorem wp_pmap_total {α : Type} {m : Pmap α} {Q : α → Phys → Prop} {R : α → Kernel → Prop}
    {X : Unit → Kernel → Prop} (h : wp m Q (fun _ _ => False) (fun _ => False) k.phys)
    (hR : ∀ a p, Q a p → R a { k with phys := p }) :
    wp (pmap m) R X (fun _ => False) k := by
  rw [pmap, wp_zoom]
  exact wp_mono h hR (fun r => r.elim) (fun _ hf => hf)

/-- A change to the environments that keeps directories and liveness. -/
theorem congr (h : MemInv L k) (hphys : k'.phys = k.phys) (hkern : k'.kernPgdir = k.kernPgdir)
    (hdirs : k'.dirs = k.dirs) (hlive : ∀ e, k'.status e = .free ↔ k.status e = .free) :
    MemInv L k' := by
  refine ⟨?_, hkern.trans h.kern, fun e => ?_⟩
  · rw [hphys, hdirs]
    exact h.phys
  · rw [hlive, hdirs]
    exact h.live e

/-- `env_free` of a live environment. Nothing refers to a page that did not before, and
nothing of the environment is left. -/
theorem envFree_shrinks (h : MemInv L k) (hlive : k.status e ≠ .free) :
    wp (envFree c e) (fun _ k' => MemInv L k' ∧ k'.dirs e = none ∧
      Phys.Sheds k.dirs k'.dirs k.phys k'.phys)
      (fun _ _ => False) (fun _ => False) k := by
  obtain ⟨d, hd⟩ : ∃ d, k.dirs e = some d :=
    Option.ne_none_iff_exists'.mp fun hnone => hlive ((h.live e).mpr hnone)
  rw [Jos.envFree, wp_bind, wp_get, wp_bind]
  have hcr3 : wp (when (k.curenv c = some e)
      (modify fun k => k.setCpu c { k.cpus c with cr3 := k.kernPgdir }) : KM Unit)
      (fun _ k₁ => MemInv L k₁ ∧ k₁.phys = k.phys ∧ k₁.dirs = k.dirs) (fun _ _ => False)
      (fun _ => False) k := by
    rw [wp_when, wp_modify]
    exact ⟨fun _ => ⟨h.congr rfl rfl rfl fun _ => Iff.rfl, rfl, rfl⟩, fun _ => ⟨h, rfl, rfl⟩⟩
  apply wp_imp hcr3
  rintro _ k₁ ⟨h₁, hphys₁, hdirs₁⟩
  have hd₁ : k₁.dirs e = some d := by rw [hdirs₁, hd]
  have hpg₁ : (k₁.envs e).pgdir = some d := hd₁
  rw [pgdirOf, wp_bind, wp_bind, wp_get, hpg₁, wp_pure, wp_bind]
  refine wp_pmap_total (h₁.phys.freePdes hd₁) ?_
  rintro _ p ⟨hp, hempty, hold⟩
  rw [paddrPgdir, wp_bind, wp_bind, wp_get]
  simp only [hpg₁, wp_pure, wp_bind, wp_modify]
  have hun : p.Inv L (Function.update k₁.dirs e none) (some d) := hp.unlinkDir hd₁ hempty
  refine wp_pmap_total (Q := fun _ q => q.Inv L (Function.update k₁.dirs e none) none ∧
    q.mem = p.mem ∧ q.userPages = p.userPages ∧ ∀ f, q.Listed f → f = d ∨ p.Listed f) ?_ ?_
  · exact hun.freeDir
  · rintro _ q ⟨hq, hmem, huser, hlisted⟩
    -- the slot is released once its memory is
    have hdone : ∀ k₂ : Kernel, k₂.phys = q → k₂.kernPgdir = k₁.kernPgdir →
        (∀ e', k₂.dirs e' = Function.update k₁.dirs e none e') → k₂.status e = .free →
        (∀ e', e' ≠ e → k₂.status e' = k₁.status e') → MemInv L k₂ ∧ k₂.dirs e = none ∧
          Phys.Sheds k.dirs k₂.dirs k.phys k₂.phys := by
      intro k₂ hphys hkern hdirs hfree hother
      have htarget : k₂.phys.target k₂.dirs = Function.update (p.target k₁.dirs) (.dir e) none := by
        rw [funext hdirs, ← Phys.target_unlinkDir hempty, hphys]
        exact Phys.target_congr fun g _ => by rw [hmem]
      have hnone : k₂.dirs e = none := by rw [hdirs, Function.update_self]
      have hshed : Phys.Sheds k₁.dirs k₂.dirs p k₂.phys := by
        refine ⟨fun s f hf => ?_, fun f hf => ?_, by rw [hphys, huser]⟩
        · rw [htarget] at hf
          exact Phys.Inv.of_update_none hf
        · rw [hphys] at hf
          rcases hlisted f hf with rfl | hf
          · exact .inr ⟨.dir e, hd₁⟩
          · exact .inl hf
      refine ⟨⟨?_, hkern.trans h₁.kern, fun e' => ?_⟩, hnone, ?_⟩
      · rw [hphys]
        exact hq.of_dirs hdirs
      · by_cases he : e' = e
        · rw [he, hnone]
          exact ⟨fun _ => rfl, fun _ => hfree⟩
        · rw [hdirs, Function.update_of_ne he, hother e' he]
          exact h₁.live e'
      · rw [← hphys₁, ← hdirs₁]
        exact hold.trans hshed
    refine hdone _ rfl rfl (fun e' => ?_) (by simp [Kernel.status]) fun e' he => ?_
    · by_cases he : e' = e
      · subst he
        simp [Kernel.dirs]
      · simp [Kernel.dirs, Kernel.setEnv, Function.update_of_ne he]
    · simp [Kernel.status, Kernel.setEnv, Function.update_of_ne he]

theorem envFree (h : MemInv L k) (hlive : k.status e ≠ .free) :
    wp (Jos.envFree c e) (fun _ k' => MemInv L k') (fun _ _ => False) (fun _ => False) k :=
  wp_imp (h.envFree_shrinks hlive) fun _ _ hk => hk.1

end MemInv

end Jos
