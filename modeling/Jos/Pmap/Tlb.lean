import Jos.Base.Cache
import Jos.Kernel.AddressSpace
import Jos.Pmap.Remove

/-!
# The TLB

The processor caches page table entries of the loaded directory, by virtual page. It
takes them up whenever it likes: `hw` says what it loads at each moment at which other
memory accesses of the same call come before and after. `page_insert` and `page_remove`
are here as in the source, with `tlb_invalidate`. Forgetting the TLB gives the functions
of `Jos.Pmap.Basic` back.
-/

namespace Jos

open Prog

/-- A virtual page. -/
abbrev VPage := Idx × Idx

def vpage (va : Word) : VPage := (pdx va, ptx va)

/-- The page table entry that the x86 walk of `d` finds for a page. -/
def Phys.entries (p : Phys) (d : Nat) (x : VPage) : Option Word :=
  (p.translate d (pgaddr x.1 x.2)).map Prod.snd

/-- Physical memory and the TLB of a processor. -/
structure Core where
  phys : Phys
  tlb : VPage → Option Word

abbrev TlbM (α : Type) := Prog Core Empty Panic α

/-- Code that accesses memory. -/
def onPhys {α : Type} (m : Pmap α) : TlbM α := zoom Core.phys (fun p s => { s with phys := p }) m

/-- The processor loads the entries of the pages in `l`. -/
def loads (d : Nat) (l : List VPage) : TlbM Unit :=
  modify fun s => { s with tlb := l.foldl (fun c x => Cache.load c (s.phys.entries d) x) s.tlb }

def invlpg (va : Word) : TlbM Unit :=
  modify fun s => { s with tlb := Function.update s.tlb (vpage va) none }

section Code

variable (hw : Nat → List VPage) (cur : Option Nat) (d : Nat)

/-- `cur` is `curenv->env_pgdir`, or `none` without a current environment. -/
def tlbInvalidate (va : Word) : TlbM Unit := when (cur = none ∨ cur = some d) (invlpg va)

/-- `page_remove`. -/
def pageRemoveTlb (va : Word) : TlbM Unit := do
  match ← onPhys (pageLookup d va) with
  | none => pure ()
  | some (page, pte) => do
      onPhys (pageDecref page)
      loads d (hw 0)
      onPhys (pte.store 0)
      loads d (hw 1)
      tlbInvalidate cur d va
      loads d (hw 2)

/-- `page_insert`. -/
def pageInsertTlb (pp : Nat) (va perm : Word) : TlbM Word := do
  match ← onPhys (pgdirWalk d va true) with
  | none => pure (-eNoMem)
  | some pte => do
      let w ← onPhys pte.load
      loads d (hw 3)
      if w &&& pteP ≠ 0 ∧ pteAddr w = page2pa pp then do
        onPhys (pte.store (page2pa pp ||| perm ||| pteP))
        loads d (hw 4)
        pure 0
      else do
        when (w &&& pteP ≠ 0) (pageRemoveTlb hw cur d va)
        onPhys (pte.store (page2pa pp ||| perm ||| pteP))
        loads d (hw 4)
        onPhys (pageIncref pp)
        pure 0

end Code

/-! ## Forgetting the TLB -/

/-- `m` does to memory what `n` does, and returns what `n` returns. -/
def Erases {α : Type} (m : TlbM α) (n : Pmap α) : Prop :=
  ∀ s, match n s.phys with
    | .ret a q => ∃ tlb, m s = .ret a ⟨q, tlb⟩
    | .exit r _ => r.elim
    | .panic e => m s = .panic e

namespace Erases

variable {α β : Type}

theorem pure (a : α) : Erases (Pure.pure a : TlbM α) (Pure.pure a) := fun s => ⟨s.tlb, rfl⟩

theorem onPhys (m : Pmap α) : Erases (onPhys m) m := by
  intro s
  cases hm : m s.phys with
  | ret a q => exact ⟨s.tlb, zoom_ret hm⟩
  | exit r q => exact r.elim
  | panic e => exact zoom_panic hm

theorem bind {m : TlbM α} {n : Pmap α} {f : α → TlbM β} {g : α → Pmap β} (h : Erases m n)
    (rest : ∀ a, Erases (f a) (g a)) : Erases (m >>= f) (n >>= g) := by
  intro s
  have hs := h s
  cases hn : n s.phys with
  | ret a q =>
      rw [hn] at hs
      obtain ⟨tlb, hm⟩ := hs
      have hrest := rest a ⟨q, tlb⟩
      rw [bind_ret _ hn, bind_ret _ hm]
      exact hrest
  | exit r q => exact r.elim
  | panic e =>
      rw [hn] at hs
      rw [bind_panic _ hn]
      exact bind_panic _ hs

/-- What only touches the TLB is not seen. -/
theorem hidden {m : TlbM Unit} {f : Unit → TlbM β} {n : Pmap β}
    (h : ∀ s, ∃ tlb, m s = .ret () ⟨s.phys, tlb⟩) (rest : Erases (f ()) n) :
    Erases (m >>= f) n := by
  intro s
  obtain ⟨tlb, hm⟩ := h s
  have hrest := rest ⟨s.phys, tlb⟩
  rw [bind_ret _ hm]
  exact hrest

theorem ite {c : Prop} [Decidable c] {m m' : TlbM α} {n n' : Pmap α} (h : Erases m n)
    (h' : Erases m' n') : Erases (if c then m else m') (if c then n else n') := by
  by_cases hc : c
  · rw [if_pos hc, if_pos hc]
    exact h
  · rw [if_neg hc, if_neg hc]
    exact h'

end Erases

theorem loads_run (d : Nat) (l : List VPage) (s : Core) :
    ∃ tlb, loads d l s = .ret () ⟨s.phys, tlb⟩ := ⟨_, rfl⟩

theorem tlbInvalidate_run (cur : Option Nat) (d : Nat) (va : Word) (s : Core) :
    ∃ tlb, tlbInvalidate cur d va s = .ret () ⟨s.phys, tlb⟩ := by
  rw [tlbInvalidate]
  by_cases hcur : cur = none ∨ cur = some d
  · rw [when_pos _ hcur]
    exact ⟨_, rfl⟩
  · rw [when_neg _ hcur]
    exact ⟨s.tlb, rfl⟩

section Erase

variable {hw : Nat → List VPage} {cur : Option Nat} {d : Nat}

theorem pageRemoveTlb_erases (va : Word) :
    Erases (pageRemoveTlb hw cur d va) (pageRemove d va) := by
  refine .bind (.onPhys _) fun found => ?_
  cases found with
  | none => exact .pure ()
  | some found =>
      obtain ⟨page, pte⟩ := found
      refine .bind (.onPhys _) fun _ => .hidden (loads_run d _) ?_
      -- the last two steps of the source are not part of `pageRemove`
      intro s
      generalize hq : s.phys.setWord pte.table pte.idx 0 = q
      have hstore : Jos.onPhys (pte.store 0) s = .ret () ⟨q, s.tlb⟩ := by
        rw [← hq]
        rfl
      have hsource : pte.store 0 s.phys = .ret () q := by
        rw [← hq]
        rfl
      obtain ⟨tlb₁, h₁⟩ := loads_run d (hw 1) ⟨q, s.tlb⟩
      obtain ⟨tlb₂, h₂⟩ := tlbInvalidate_run cur d va ⟨q, tlb₁⟩
      obtain ⟨tlb₃, h₃⟩ := loads_run d (hw 2) ⟨q, tlb₂⟩
      rw [hsource]
      refine ⟨tlb₃, ?_⟩
      rw [bind_ret _ hstore, bind_ret _ h₁, bind_ret _ h₂, h₃]

theorem pageInsertTlb_erases (pp : Nat) (va perm : Word) :
    Erases (pageInsertTlb hw cur d pp va perm) (pageInsert d pp va perm) := by
  refine .bind (.onPhys _) fun found => ?_
  cases found with
  | none => exact .pure _
  | some pte =>
      refine .bind (.onPhys _) fun w => .hidden (loads_run d _) (.ite ?_ ?_)
      · exact .bind (.onPhys _) fun _ => .hidden (loads_run d _) (.pure _)
      refine .bind ?_ fun _ => .bind (.onPhys _) fun _ =>
        .hidden (loads_run d _) (.bind (.onPhys _) fun _ => .pure _)
      rw [when, when]
      exact .ite (pageRemoveTlb_erases va) (.pure ())

end Erase

/-! ## Coherence -/

/-- The pages below `UTOP`. -/
def userPart : Set VPage := {x | x.1.val < userPdes}

theorem vpage_mem {va : Word} (hva : va < utop) : vpage va ∈ userPart := (pdx_lt_iff va).mpr hva

/-- What is cached for a page below `UTOP` is its page table entry. -/
def Core.Coherent (s : Core) (d : Nat) : Prop := Cache.Coherent userPart s.tlb (s.phys.entries d)

namespace Phys

variable {L : Layout} {dirs : EnvIdx → Option Nat} {p q : Phys} {e : EnvIdx} {d f : Nat}
  {va perm w : Word} {x : VPage}

theorem entries_eq (hd : dirs e = some d) (hx : x ∈ userPart) : p.entries d x =
    if p.pteAt dirs e x.1 x.2 &&& pteP = 0 then none else some (p.pteAt dirs e x.1 x.2) := by
  have hpde : p.pdeAt dirs e x.1 = p.word d x.1 := pdeAt_of_dir hd hx
  rw [Phys.entries, Phys.translate, pdx_pgaddr, ptx_pgaddr]
  dsimp only
  by_cases hp : p.word d x.1 &&& pteP = 0
  · have hnone : p.target dirs (.pde e x.1) = none := by
      rw [target, hpde, entryFrame, if_neg (by simpa using hp)]
    rw [if_pos hp, pteAt_of_none hnone, if_pos (by decide)]
    rfl
  · have ht : p.target dirs (.pde e x.1) = some (pgnum (p.word d x.1)) := by
      rw [target, hpde, entryFrame, if_pos hp]
    rw [if_neg hp, pteAt_of_table ht]
    split
    · rfl
    · rfl

theorem entries_congr (hd : dirs e = some d) (hx : x ∈ userPart)
    (same : q.pteAt dirs e x.1 x.2 = p.pteAt dirs e x.1 x.2) : q.entries d x = p.entries d x := by
  rw [entries_eq hd hx, entries_eq hd hx, same]

theorem entries_of_mem (hmem : q.mem = p.mem) (x : VPage) : q.entries d x = p.entries d x := by
  rw [Phys.entries, translate_congr hmem, Phys.entries]

/-- One entry has been written. -/
theorem Edits.entries (h : Edits dirs p q e (pdx va) (ptx va) w) (hd : dirs e = some d)
    (hx : x ∈ userPart) (hne : x ≠ vpage va) : q.entries d x = p.entries d x := by
  refine entries_congr hd hx (h.pteAt_of_ne e x.1 x.2 fun hself => hne ?_)
  exact Prod.ext hself.2.1 hself.2.2

theorem Edits.entries_self (h : Edits dirs p q e (pdx va) (ptx va) w) (hd : dirs e = some d)
    (hva : va < utop) : q.entries d (vpage va) = if w &&& pteP = 0 then none else some w := by
  rw [entries_eq hd (vpage_mem hva), vpage, h.pteAt_self]

end Phys

section Coherence

variable {L : Layout} {dirs : EnvIdx → Option Nat} {e : EnvIdx} {d f t pp : Nat} {va perm : Word}
  {hw : Nat → List VPage} {cur : Option Nat} {s : Core}

theorem onPhys_ret {α : Type} {m : Pmap α} {a : α} {q : Phys} (h : m s.phys = .ret a q) :
    onPhys m s = .ret a { s with phys := q } := zoom_ret h

/-- A page is removed. -/
theorem pageRemoveTlb_coherent (h : s.phys.Inv L dirs none) (hd : dirs e = some d)
    (ht : s.phys.target dirs (.pde e (pdx va)) = some t)
    (hf : s.phys.target dirs (.pte e (pdx va) (ptx va)) = some f)
    (hcur : cur = none ∨ cur = some d) (hc : s.Coherent d) :
    wp (pageRemoveTlb hw cur d va)
      (fun _ s' => s'.phys = (s.phys.drop f).setWord t (ptx va) 0 ∧ s'.Coherent d)
      (fun _ _ => False) (fun _ => False) s := by
  obtain ⟨t', ht', hl⟩ := h.lookup hd hf
  obtain rfl : t = t' := Option.some.inj (ht.symm.trans ht')
  have howned := h.tables.owned _ f hf
  have href := h.counts.ref_ne_zero howned hf
  have hlink := h.counts.link_of_not_listed howned (h.counts.not_listed_of_ref href)
  have hedits : Phys.Edits dirs s.phys ((s.phys.drop f).setWord t (ptx va) 0) e (pdx va) (ptx va)
      0 := h.remove_edits ht
  rw [pageRemoveTlb, wp_bind, wp_ret (onPhys_ret hl)]
  dsimp only
  rw [wp_bind, wp_ret (onPhys_ret (pageDecref_run hlink)), wp_bind, loads, wp_modify, wp_bind,
    onPhys, wp_zoom, PtePtr.store, wp_modify, wp_bind, loads, wp_modify, wp_bind, tlbInvalidate,
    when_pos _ hcur, invlpg, wp_modify, loads, wp_modify]
  refine ⟨rfl, ?_⟩
  have hdrop : Cache.Coherent userPart s.tlb ((s.phys.drop f).entries d) :=
    hc.congr fun x _ => Phys.entries_of_mem (Phys.Inv.drop_mem _ _) x
  have hstore : Cache.CoherentBut (vpage va) userPart _
      (((s.phys.drop f).setWord t (ptx va) 0).entries d) :=
    (hdrop.loads (hw 0)).change fun x hx hne => by
      rw [hedits.entries hd hx hne, Phys.entries_of_mem (Phys.Inv.drop_mem _ _)]
  exact (hstore.loads (hw 1)).invalidate.loads (hw 2)

/-- A call of `page_insert` gives the page at `va` other permissions while the TLB holds the old
entry. -/
def Reperms (dirs : EnvIdx → Option Nat) (hw : Nat → List VPage) (e : EnvIdx) (pp : Nat)
    (va perm : Word) (s : Core) : Prop :=
  s.phys.target dirs (.pte e (pdx va) (ptx va)) = some pp ∧
    s.phys.pteAt dirs e (pdx va) (ptx va) ≠ mkPte pp perm ∧
    (s.tlb (vpage va) ≠ none ∨ vpage va ∈ hw 3)

/-- A page is inserted. -/
theorem pageInsertTlb_coherent (h : s.phys.Inv L dirs none) (hd : dirs e = some d)
    (hva : va < utop) (hpp : L.owned pp) (hcur : cur = none ∨ cur = some d)
    (guard : ¬ Reperms dirs hw e pp va perm s) (hc : s.Coherent d) :
    wp (pageInsertTlb hw cur d pp va perm) (fun _ s' => s'.Coherent d) (fun _ _ => False)
      (fun _ => False) s := by
  have hx := vpage_mem hva
  rw [pageInsertTlb, wp_bind]
  rcases h.walk hd hva with ⟨q, t, hwalk, hq, ht, hkeeps, -⟩ | ⟨hwalk, -⟩
  · rw [wp_ret (onPhys_ret hwalk)]
    have hpte : q.pteAt dirs e (pdx va) (ptx va) = q.word t (ptx va) := Phys.pteAt_of_table ht
    have hload : onPhys (PtePtr.load ⟨t, ptx va⟩) { s with phys := q } =
        .ret (q.word t (ptx va)) { s with phys := q } := rfl
    have hedits : ∀ {r : Phys} {w : Word}, r.mem = (q.setWord t (ptx va) w).mem →
        Phys.Edits dirs q r e (pdx va) (ptx va) w :=
      fun hmem => Phys.Inv.edits (.refl dirs q) hq.tables.unshared ht hmem
    have hwalked : Cache.Coherent userPart s.tlb (q.entries d) :=
      hc.congr fun x hx => Phys.entries_congr hd hx (hkeeps.pteAt e x.1 x.2)
    dsimp only
    rw [wp_bind, wp_ret hload, wp_bind, loads, wp_modify]
    dsimp only
    generalize htlb : (hw 3).foldl (fun c x => Cache.load c (q.entries d) x) s.tlb = tlb
    have hc₁ : Cache.Coherent userPart tlb (q.entries d) := htlb ▸ hwalked.loads (hw 3)
    rw [wp_ite]
    refine ⟨fun ⟨hp, hsame⟩ => ?_, fun hother => ?_⟩
    · -- the same page: its entry is overwritten, and nothing is invalidated
      have hlt : pp < 1048576 := by
        have := hq.lt_npages hpp
        have := hq.npages_le
        omega
      have hnum : pgnum (q.word t (ptx va)) = pp := by
        rw [← pgnum_pteAddr, hsame]
        exact pgnum_pageAddr hlt
      have hmapped : s.phys.target dirs (.pte e (pdx va) (ptx va)) = some pp := by
        rw [Phys.target, ← hkeeps.pteAt, hpte, entryFrame, if_pos hp, hnum]
      have hfresh : ∀ v, tlb (vpage va) = some v → v = mkPte pp perm := by
        intro v hv
        have hentry := hc₁ (vpage va) hx v hv
        rw [Phys.entries_eq hd hx] at hentry
        change (if q.pteAt dirs e (pdx va) (ptx va) &&& pteP = 0 then none
          else some (q.pteAt dirs e (pdx va) (ptx va))) = some v at hentry
        rw [if_neg (by rw [hpte]; exact hp)] at hentry
        by_contra hne
        refine guard ⟨hmapped, ?_, ?_⟩
        · rw [← hkeeps.pteAt]
          rintro hold
          exact hne ((Option.some.inj hentry).symm.trans hold)
        · by_contra hnone
          rw [not_or, not_not] at hnone
          rw [← htlb, Cache.loads_of_not_mem hnone.2, hnone.1] at hv
          simp at hv
      have hafter := hedits (r := q.setWord t (ptx va) (mkPte pp perm)) rfl
      rw [wp_bind, onPhys, wp_zoom, PtePtr.store, wp_modify, wp_bind, loads, wp_modify, wp_pure]
      refine Cache.Coherent.loads ?_ (hw 4)
      refine Cache.Coherent.of_but (hc₁.change fun x hx hne => hafter.entries hd hx hne) ?_
      intro v hv
      rw [hfresh v hv]
      exact (hafter.entries_self hd hva).trans (if_neg (mkPte_present pp perm))
    · -- otherwise the entry is empty when the page is put in
      have hempty : wp (when (q.word t (ptx va) &&& pteP ≠ 0) (pageRemoveTlb hw cur d va) :
          TlbM Unit) (fun _ s' => (∀ w, (s'.phys.setWord t (ptx va) w).mem =
            (q.setWord t (ptx va) w).mem) ∧ s'.Coherent d ∧ s'.phys.entries d (vpage va) = none ∧
            ∀ x ∈ userPart, x ≠ vpage va → s'.phys.entries d x = q.entries d x)
          (fun _ _ => False) (fun _ => False) ⟨q, tlb⟩ := by
        rw [wp_when]
        refine ⟨fun hp => ?_, fun hp => ⟨fun _ => rfl, hc₁, ?_, fun _ _ _ => rfl⟩⟩
        · have hf : q.target dirs (.pte e (pdx va) (ptx va)) =
              some (pgnum (q.word t (ptx va))) := by
            rw [Phys.target, hpte, entryFrame, if_pos hp]
          apply wp_imp (pageRemoveTlb_coherent (s := ⟨q, tlb⟩) hq hd ht hf hcur hc₁)
          rintro _ s' ⟨hphys, hs'⟩
          have hremoved : Phys.Edits dirs q s'.phys e (pdx va) (ptx va) 0 :=
            hphys ▸ hq.remove_edits ht
          refine ⟨fun w => ?_, hs', (hremoved.entries_self hd hva).trans (if_pos (by decide)),
            fun x hx hne => hremoved.entries hd hx hne⟩
          rw [hphys]
          simp only [Phys.setWord, Phys.setPage, Phys.Inv.drop_mem, Function.update_self,
            Function.update_idem, writeWord_writeWord]
        · rw [Phys.entries_eq hd hx]
          exact if_pos (by simpa [vpage, hpte] using hp)
      rw [wp_bind]
      apply wp_imp hempty
      rintro _ s' ⟨hmem, hs', hnone, hrest⟩
      rw [wp_bind, onPhys, wp_zoom, PtePtr.store, wp_modify, wp_bind, loads, wp_modify, wp_bind,
        onPhys, wp_zoom, pageIncref, wp_modify, wp_pure]
      have hafter := hedits (hmem (mkPte pp perm))
      have hstored : Cache.Coherent userPart s'.tlb
          ((s'.phys.setWord t (ptx va) (mkPte pp perm)).entries d) :=
        hs'.extend hx hnone fun x hx hne => (hafter.entries hd hx hne).trans (hrest x hx hne).symm
      exact (hstored.loads (hw 4)).congr fun x _ => Phys.entries_of_mem rfl x
  · rw [wp_ret (onPhys_ret hwalk), wp_pure]
    exact hc

end Coherence

end Jos
