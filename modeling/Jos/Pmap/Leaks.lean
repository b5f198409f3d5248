import Jos.Pmap.Footprint
import Jos.Pmap.Insert

/-!
# No page gets lost

A page is lost when its count is 0 and it is not on the free list: nobody will ever
free it. `page_alloc` hands such a page to its caller. No other function of
`pmap.c` makes one, as long as counts do not overflow.
-/

namespace Jos

open Prog

/-- Neither in use nor free. -/
def Phys.Lost (p : Phys) (f : Nat) : Prop := p.ref f = 0 ∧ ¬ p.Listed f

variable {p q : Phys} {d f pp : Nat} {va perm : Word}

/-- The allocator's part of the state decides. -/
theorem Phys.Lost.congr {g : Nat} (h : q.Lost g) (hpages : q.pages = p.pages)
    (hfree : q.pageFreeList = p.pageFreeList) : p.Lost g := by
  have hlink : q.link = p.link := funext fun f => by rw [link, hpages, link]
  rwa [Lost, Listed, ref, hpages, hlink, hfree] at h

theorem pageDecref_lost (p : Phys) (f : Nat) :
    wp (pageDecref f) (fun _ q => (∀ g, q.Lost g → p.Lost g) ∧ ∀ g, g ≠ f → q.ref g = p.ref g)
      (fun _ _ => True) (fun _ => True) p := by
  rw [pageDecref, wp_bind, wp_modify, wp_bind, wp_get, wp_when, pageFree, wp_bind, wp_get, wp_ite,
    wp_panic, wp_modify]
  refine ⟨fun hzero => ⟨fun _ => trivial, fun hok => ?_⟩, fun hmore => ?_⟩
  · rw [not_or, not_not, not_not, Phys.setRef_link] at hok
    have href : ∀ g, g ≠ f → (({ (p.setRef f (p.ref f - 1)).setLink f
        (p.setRef f (p.ref f - 1)).pageFreeList with pageFreeList := some f } : Phys).ref g) =
        p.ref g := by
      intro g hg
      change ((p.setRef f (p.ref f - 1)).setLink f _).ref g = _
      rw [Phys.setLink_ref, Phys.setRef_ref_of_ne _ _ hg]
    have hlisted : ∀ g, g = f ∨ p.Listed g → Linked ((p.setRef f (p.ref f - 1)).setLink f
        (p.setRef f (p.ref f - 1)).pageFreeList).link (some f) g := by
      intro g hg
      rw [Phys.setLink_link, Phys.setRef_link]
      rcases hg with rfl | hg
      · exact .here g
      · refine .there ?_
        rw [Function.update_self]
        exact Linked.update hg hok.2 _
    refine ⟨fun g hg => ?_, href⟩
    have hgf : g ≠ f := fun heq => hg.2 (hlisted g (.inl heq))
    exact ⟨(href g hgf).symm.trans hg.1, fun hl => hg.2 (hlisted g (.inr hl))⟩
  · refine ⟨fun g hg => ?_, fun g hg => Phys.setRef_ref_of_ne _ _ hg⟩
    have hgf : g ≠ f := by
      rintro rfl
      exact hmore hg.1
    refine ⟨(Phys.setRef_ref_of_ne _ _ hgf).symm.trans hg.1, fun hl => hg.2 ?_⟩
    rw [Phys.Listed, Phys.setRef_link]
    exact hl

theorem Phys.lost_incref {g : Nat} (hmax : p.ref f ≠ 65535) :
    (p.setRef f (p.ref f + 1)).Lost g ↔ p.Lost g ∧ g ≠ f := by
  have hlisted : (p.setRef f (p.ref f + 1)).Listed g ↔ p.Listed g := by
    rw [Listed, setRef_link]
    exact Iff.rfl
  by_cases hgf : g = f
  · subst hgf
    refine ⟨fun h => absurd h.1 ?_, fun h => absurd rfl h.2⟩
    rw [setRef_ref_self]
    bv_omega
  · rw [Lost, Lost, hlisted, setRef_ref_of_ne _ _ hgf]
    simp [hgf]

theorem pageRemove_lost (p : Phys) (d : Nat) (va : Word) :
    wp (pageRemove d va) (fun _ q => (∀ g, q.Lost g → p.Lost g) ∧
      ∀ g, g ≠ pgnum (p.word (pgnum (p.word d (pdx va))) (ptx va)) → q.ref g = p.ref g)
      (fun _ _ => True) (fun _ => True) p := by
  rw [pageRemove, wp_bind]
  apply wp_imp (pageLookup_reads p d va)
  rintro found p' ⟨hp', hfound⟩
  rw [hp']
  cases found with
  | none =>
      rw [wp_pure]
      exact ⟨fun _ h => h, fun _ _ => rfl⟩
  | some found =>
      obtain ⟨pp, pte⟩ := found
      obtain ⟨-, -, hpp⟩ := hfound pp pte rfl
      dsimp only
      rw [wp_bind]
      apply wp_imp (pageDecref_lost p pp)
      rintro _ q ⟨hlost, href⟩
      rw [PtePtr.store, wp_modify]
      refine ⟨fun g hg => hlost g (hg.congr rfl rfl), fun g hg => href g ?_⟩
      rwa [hpp]

/-- What a walk needs of the free list. -/
structure Phys.FreeSound (p : Phys) : Prop where
  list : ∃ l, IsList p.link p.pageFreeList l
  unused : ∀ f, p.Listed f → p.ref f = 0 ∧ f < 1048576

/-- Whoever takes the first page off the list has a lost page in hand. -/
theorem Phys.FreeSound.lost_take {g : Nat} (h : p.FreeSound) (head : p.pageFreeList = some f)
    (hpages : q.pages = (p.take f).pages) (hfree : q.pageFreeList = (p.take f).pageFreeList) :
    q.Lost g ↔ p.Lost g ∨ g = f := by
  obtain ⟨l, hl⟩ := h.list
  obtain ⟨r, rfl⟩ : ∃ r, l = f :: r := by
    rw [head] at hl
    cases hl with
    | cons rest => exact ⟨_, rfl⟩
  have hlink : q.link = (p.take f).link := funext fun g => by rw [link, hpages, link]
  have hlisted : q.Listed g ↔ g ∈ r := by
    rw [Listed, hlink, hfree]
    exact take_listed_iff hl
  have href : q.ref g = p.ref g := by
    have htake : (p.take f).ref = p.ref := setLink_ref _ _
    rw [← htake]
    simp only [ref, hpages]
  have hold : p.Listed g ↔ g ∈ f :: r := hl.linked_iff
  rw [Lost, Lost, href, hlisted, hold, List.mem_cons]
  by_cases hgf : g = f
  · subst hgf
    have hzero := (h.unused g (hold.mpr (by simp))).1
    simp [hzero, (List.nodup_cons.mp hl.nodup).1]
  · simp [hgf]

theorem pageAlloc_lost (h : p.FreeSound) (zero : Bool) :
    wp (pageAlloc zero) (fun found q => q.ref = p.ref ∧ (found = none → q = p) ∧
      (∀ f, found = some f → p.Listed f) ∧ ∀ g, q.Lost g → p.Lost g ∨ found = some g)
      (fun _ _ => True) (fun _ => True) p := by
  rw [pageAlloc, wp_bind, wp_get]
  cases head : p.pageFreeList with
  | none =>
      rw [wp_pure]
      exact ⟨rfl, fun _ => rfl, fun _ h => by simp at h, fun _ h => .inl h⟩
  | some f =>
      have hf : p.Listed f := by
        rw [Phys.Listed, head]
        exact .here f
      have hdone : ∀ q : Phys, q.pages = (p.take f).pages →
          q.pageFreeList = (p.take f).pageFreeList → q.ref = p.ref ∧ (some f = none → q = p) ∧
            (∀ f', some f = some f' → p.Listed f') ∧
            ∀ g, q.Lost g → p.Lost g ∨ some f = some g := by
        intro q hpages hfree
        have href : (p.take f).ref = p.ref := Phys.setLink_ref _ _
        refine ⟨?_, fun h => by simp at h, fun f' hf' => ?_, fun g hg => ?_⟩
        · rw [← href]
          funext g
          simp only [Phys.ref, hpages]
        · rw [← Option.some.inj hf']
          exact hf
        · exact ((h.lost_take head hpages hfree).mp hg).imp_right fun heq => by rw [heq]
      simp only [wp_bind, wp_modify, wp_when, wp_pure, clearPage, page2kva, kaddr, frameOf, wp_get,
        wp_ite, wp_panic]
      exact ⟨fun _ => ⟨fun _ => trivial, fun _ => hdone _ rfl rfl⟩, fun _ => hdone _ rfl rfl⟩

/-- A page that `page_alloc` returned and whose count then becomes 1 is not lost. -/
theorem Phys.Lost.adopt {g : Nat} (h : p.FreeSound) (hf : p.Listed f) (href : q.ref = p.ref)
    (hlost : ∀ g, q.Lost g → p.Lost g ∨ some f = some g)
    (hg : (q.setRef f (q.ref f + 1)).Lost g) : p.Lost g := by
  have hzero : q.ref f = 0 := by
    rw [href]
    exact (h.unused f hf).1
  obtain ⟨hq, hne⟩ := (lost_incref (by rw [hzero]; decide)).mp hg
  exact (hlost g hq).resolve_right fun heq => hne (Option.some.inj heq).symm

theorem pgdirWalk_lost (h : p.FreeSound) (d : Nat) (va : Word) :
    wp (pgdirWalk d va true) (fun found q => (∀ g, q.Lost g → p.Lost g) ∧
      (∀ g, ¬ p.Listed g → q.ref g = p.ref g) ∧ (p.word d (pdx va) &&& pteP ≠ 0 → q = p) ∧
      ∀ pte, found = some pte → pte = ⟨pgnum (q.word d (pdx va)), ptx va⟩)
      (fun _ _ => True) (fun _ => True) p := by
  by_cases hp : p.word d (pdx va) &&& pteP = 0
  · rw [pgdirWalk, wp_bind, wp_get, if_neg (by simpa using hp), if_pos rfl, wp_bind]
    apply wp_imp (pageAlloc_lost h true)
    rintro found q ⟨href, hnone, hsome, hlost⟩
    cases found with
    | none =>
        rw [wp_pure, hnone rfl]
        exact ⟨fun _ hg => hg, fun _ _ => rfl, fun _ => rfl, fun _ h => by simp at h⟩
    | some f =>
        have hf := hsome f rfl
        have hlt := (h.unused f hf).2
        simp only [wp_bind, page2kva, kaddr, frameOf, wp_get, wp_ite, wp_panic, wp_pure, pageIncref,
          wp_modify, page2pa, pgnum_pageAddr hlt]
        refine ⟨fun _ => trivial, fun _ => ⟨fun g hg => ?_, fun g hg => ?_, fun hpresent =>
          absurd hp hpresent, fun pte hpte => ?_⟩⟩
        · exact .adopt h hf href hlost (hg.congr (p := q.setRef f (q.ref f + 1)) rfl rfl)
        · have hgf : g ≠ f := by
            rintro rfl
            exact hg hf
          rw [← href]
          exact Phys.setRef_ref_of_ne _ _ hgf
        · rw [← Option.some.inj hpte, Phys.word_setWord_self, tablePde_eq,
            pgnum_mkPte hlt (by decide)]
  · by_cases hn : pgnum (p.word d (pdx va)) < p.npages
    · rw [wp_ret (pgdirWalk_found hp hn true)]
      exact ⟨fun _ hg => hg, fun _ _ => rfl, fun _ => rfl, fun pte hpte =>
        (Option.some.inj hpte).symm⟩
    · have hpanic : pgdirWalk d va true p = .panic .kaddr := by
        rw [pgdirWalk, get_bind, if_pos hp]
        exact bind_panic _ (kaddr_panic (by rw [pgnum_pteAddr]; omega))
      rw [wp_panic_eq hpanic]
      trivial

/-- `page_insert` gives the page a reference, and takes one from the page it replaces. -/
theorem pageInsert_lost (h : p.FreeSound) (hpp : ¬ p.Listed pp)
    (hmax : p.Maps d va pp ∨ p.ref pp ≠ 65535) :
    wp (pageInsert d pp va perm) (fun _ q => ∀ g, q.Lost g → p.Lost g) (fun _ _ => True)
      (fun _ => True) p := by
  rw [pageInsert, wp_bind]
  apply wp_imp (pgdirWalk_lost h d va)
  rintro found q ⟨hlost, href, hkeeps, hpte⟩
  cases found with
  | none =>
      rw [wp_pure]
      exact hlost
  | some pte =>
      obtain rfl := hpte pte rfl
      simp only [PtePtr.load, PtePtr.store, wp_bind, wp_get, wp_pure, wp_ite, wp_modify]
      refine ⟨fun _ g hg => hlost g (hg.congr rfl rfl), fun hother => ?_⟩
      have hmax' : q.ref pp ≠ 65535 := by
        rw [href pp hpp]
        refine hmax.resolve_left ?_
        rintro ⟨pde, w, hwalk, rfl⟩
        obtain ⟨rfl, hp, rfl, hpresent⟩ := Phys.translate_eq_some hwalk
        rw [hkeeps hp] at hother
        exact hother ⟨hpresent, pteAddr_eq _⟩
      have hremove : wp (when (q.word (pgnum (q.word d (pdx va))) (ptx va) &&& pteP ≠ 0)
          (pageRemove d va)) (fun _ r => (∀ g, r.Lost g → q.Lost g) ∧ r.ref pp = q.ref pp)
          (fun _ _ => True) (fun _ => True) q := by
        rw [wp_when]
        refine ⟨fun hp => ?_, fun _ => ⟨fun _ hg => hg, rfl⟩⟩
        refine wp_imp (pageRemove_lost q d va) fun _ r hr => ⟨hr.1, hr.2 pp ?_⟩
        rintro rfl
        exact hother ⟨hp, pteAddr_eq _⟩
      apply wp_imp hremove
      rintro _ r ⟨hr, hrref⟩
      rw [pageIncref, wp_modify]
      intro g hg
      have hr' := (Phys.lost_incref (p := r) (f := pp) (by rwa [hrref])).mp (hg.congr rfl rfl)
      exact hlost g (hr g hr'.1)

/-- The loops of `env_free` only take references away. -/
theorem envFreePde_lost (p : Phys) (d : Nat) (i : Idx) :
    wp (envFreePde d i) (fun _ q => ∀ g, q.Lost g → p.Lost g) (fun _ _ => True) (fun _ => True)
      p := by
  rw [envFreePde, wp_bind, wp_get]
  dsimp only
  rw [wp_ite, wp_pure, wp_bind]
  refine ⟨fun _ g hg => hg, fun _ => ?_⟩
  have hkaddr : wp (kaddr (pteAddr (p.word d i))) (fun _ q => q = p) (fun _ _ => True)
      (fun _ => True) p := by
    rw [kaddr, frameOf, wp_bind, wp_get, wp_ite, wp_panic, wp_pure]
    exact ⟨fun _ => trivial, fun _ => rfl⟩
  apply wp_imp hkaddr
  intro pt p' hp'
  rw [hp', wp_bind]
  have hloop : wp (forRange 1024 fun pteno => do
      let p ← get
      when (p.word pt (Fin.ofNat 1024 pteno) &&& pteP ≠ 0)
        (pageRemove d (pgaddr i (Fin.ofNat 1024 pteno))))
      (fun _ q => ∀ g, q.Lost g → p.Lost g) (fun _ _ => True) (fun _ => True) p := by
    refine wp_imp (wp_forRange (fun _ q => ∀ g, q.Lost g → p.Lost g) ?_ fun _ hg => hg)
      fun _ _ hq => hq
    intro n q _ hq
    rw [wp_bind, wp_get, wp_when]
    refine ⟨fun _ => ?_, fun _ => hq⟩
    exact wp_imp (pageRemove_lost q d _) fun _ _ hr g hg => hq g (hr.1 g hg)
  apply wp_imp hloop
  intro _ q hq
  rw [wp_bind, wp_modify, wp_bind, pa2page, frameOf, wp_bind, wp_get, wp_ite, wp_panic, wp_pure]
  refine ⟨fun _ => trivial, fun _ => ?_⟩
  refine wp_imp (pageDecref_lost _ _) fun _ r hr g hg => hq g ?_
  exact (hr.1 g hg).congr rfl rfl

theorem envFreePdes_lost (p : Phys) (d : Nat) :
    wp (forRange 955 fun pdeno => envFreePde d (Fin.ofNat 1024 pdeno))
      (fun _ q => ∀ g, q.Lost g → p.Lost g) (fun _ _ => True) (fun _ => True) p := by
  refine wp_imp (wp_forRange (fun _ q => ∀ g, q.Lost g → p.Lost g) ?_ fun _ hg => hg)
    fun _ _ hq => hq
  intro n q _ hq
  exact wp_imp (envFreePde_lost q d _) fun _ _ hr g hg => hq g (hr g hg)

namespace Phys.Inv

variable {ι : Type} {L : Layout} {dirs : ι → Option Nat} {e : ι}

/-- The counts are exact, so free pages are unused. -/
theorem freeSound (h : p.Inv L dirs none) : p.FreeSound := by
  obtain ⟨l, hl, -⟩ := h.counts.free
  refine ⟨⟨l, hl⟩, fun f hf => ?_⟩
  obtain ⟨howned, href⟩ := h.counts.ref_of_listed hf
  have hlt := h.lt_npages howned
  have hn := h.npages_le
  exact ⟨href, by omega⟩

/-- The page that becomes a page directory is not lost. -/
theorem newDir_lost (h : p.Inv L dirs none) (head : p.pageFreeList = some f) (kern g : Nat) :
    (p.newDir kern f).Lost g ↔ p.Lost g := by
  have hlisted : p.Listed f := by
    rw [Listed, head]
    exact .here f
  have halloc : (p.alloc f true).Lost g ↔ p.Lost g ∨ g = f :=
    h.freeSound.lost_take head rfl rfl
  have hzero : (p.alloc f true).ref f = 0 := by
    have href : (p.take f).ref = p.ref := setLink_ref _ _
    change (p.take f).ref f = 0
    rw [href]
    exact (h.freeSound.unused f hlisted).1
  have hnew : (p.newDir kern f).Lost g ↔
      ((p.alloc f true).setRef f ((p.alloc f true).ref f + 1)).Lost g := Iff.rfl
  rw [hnew, lost_incref (by rw [hzero]; decide), halloc]
  constructor
  · rintro ⟨hg | hg, hne⟩
    · exact hg
    · exact absurd hg hne
  · intro hg
    refine ⟨.inl hg, ?_⟩
    rintro rfl
    exact hg.2 hlisted

variable [DecidableEq ι] [Finite ι]

/-- A page that is neither free nor used stays so when another page is inserted. -/
theorem insert_others (h : p.Inv L dirs none) (hd : dirs e = some d) (hva : va < utop)
    {g : Nat} (hg : p.Lost g) (hne : g ≠ pp) {r : Word}
    (run : pageInsert d pp va perm p = .ret r q) :
    q.Lost g ∧ (g ∈ p.userPages → g ∈ q.userPages) := by
  rcases h.walk hd hva with ⟨q₁, t, hwalk, hq₁, ht, hkeeps, -⟩ | ⟨hwalk, -⟩
  · have hg₁ : q₁.Lost g := ⟨(hkeeps.ref g hg.2).trans hg.1, hkeeps.unlisted g hg.2⟩
    -- the count of another page changes, and perhaps `r` differs from `q₁` in the same way
    have huser : g ∈ p.userPages → g ∈ q₁.userPages := hkeeps.userPages g
    have hincref : ∀ r : Phys, r.Lost g → ((r.setWord t (ptx va) (mkPte pp perm)).setRef pp
        (r.ref pp + 1)).Lost g := by
      intro r hr
      refine ⟨?_, ?_⟩
      · rw [setRef_ref_of_ne _ _ hne]
        exact hr.1
      · rw [Listed, setRef_link]
        exact hr.2
    by_cases hp : q₁.word t (ptx va) &&& pteP = 0
    · obtain ⟨-, rfl⟩ := Outcome.ret.inj ((pageInsert_empty hwalk hp).symm.trans run)
      exact ⟨hincref q₁ hg₁, huser⟩
    · by_cases hsame : pteAddr (q₁.word t (ptx va)) = page2pa pp
      · obtain ⟨-, rfl⟩ := Outcome.ret.inj ((pageInsert_same hwalk hp hsame).symm.trans run)
        exact ⟨hg₁, huser⟩
      · have hsome : q₁.target dirs (.pte e (pdx va) (ptx va)) =
            some (pgnum (q₁.word t (ptx va))) := by
          rw [target, pteAt_of_table ht, entryFrame, if_pos hp]
        obtain ⟨t', ht', hrem, -⟩ := hq₁.remove hd hsome
        obtain rfl : t = t' := Option.some.inj (ht.symm.trans ht')
        obtain ⟨-, rfl⟩ :=
          Outcome.ret.inj ((pageInsert_replace hwalk hp hsame hrem).symm.trans run)
        have hgf : g ≠ pgnum (q₁.word t (ptx va)) := by
          rintro rfl
          exact hq₁.counts.ref_ne_zero (hq₁.tables.owned _ _ hsome) hsome hg₁.1
        obtain ⟨href, hlisted⟩ := hq₁.remove_other ht hsome hgf
        refine ⟨hincref _ ⟨href.trans hg₁.1, fun hl => hg₁.2 (hlisted hl)⟩, fun hmem => ?_⟩
        change g ∈ (q₁.drop _).userPages
        rw [drop_userPages]
        exact huser hmem
  · obtain ⟨-, rfl⟩ := Outcome.ret.inj ((pageInsert_noMem hwalk).symm.trans run)
    exact ⟨hg, id⟩

end Phys.Inv

end Jos
