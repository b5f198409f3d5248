import Jos.Pmap.Tlb
import Jos.Safety.References

/-!
# The TLB along runs

After any run of the memory manager, a directory is loaded, which empties the TLB. While it
is loaded, pages are inserted into it and removed from it, and the processor takes up
entries at any time. What the TLB holds for an address below `UTOP` is then always its page
table entry, unless `page_insert` gives a page that is there already other permissions
while its old entry is cached: on that path the source does not call `tlb_invalidate`.
-/

namespace Jos

open Prog

/-- What happens while a directory is loaded. -/
inductive TlbOp where
  | load (x : VPage)
  | pageAlloc (zero : Bool)
  | insert (hw : Nat → List VPage) (pp : Nat) (va perm : Word)
  | remove (hw : Nat → List VPage) (va : Word)

namespace TlbOp

def exec (cur : Option Nat) (d : Nat) (hand : List Nat) : TlbOp → TlbM (List Nat)
  | .load x => do
      loads d [x]
      pure hand
  | .pageAlloc zero => do
      let found ← onPhys (userPageAlloc zero)
      pure (found.toList ++ hand)
  | .insert hw pp va perm => do
      let r ← pageInsertTlb hw cur d pp va perm
      pure (if r = 0 then hand.filter (· ≠ pp) else hand)
  | .remove hw va => do
      pageRemoveTlb hw cur d va
      pure hand

/-- The operation of the memory manager, if it is one. -/
def call (e : EnvIdx) : TlbOp → Option PageOp
  | .load _ => none
  | .pageAlloc zero => some (.pageAlloc zero)
  | .insert _ pp va perm => some (.insert e pp va perm)
  | .remove _ va => some (.remove e va)

/-- `page_insert` gives a page other permissions while its old entry is in the TLB. -/
def Reperms (e : EnvIdx) (dirs : EnvIdx → Option Nat) (s : Core) : TlbOp → Prop
  | .insert hw pp va perm => Jos.Reperms dirs hw e pp va perm s
  | _ => False

end TlbOp

/-- The state when memory is as on the processor. -/
def Core.kernel (s : Core) (k : Kernel) : Kernel := { k with phys := s.phys }

/-- A run of legal operations that satisfy `G`, from the moment at which the directory `d` of
the environment `e` is loaded in the state `k`. -/
inductive TlbRun (G : Core → TlbOp → Prop) (cur : Option Nat) (e : EnvIdx) (d : Nat) (k : Kernel)
    (hand : List Nat) : Core → List Nat → Prop
  | loaded : TlbRun G cur e d k hand ⟨k.phys, fun _ => none⟩ hand
  | step {s s' : Core} {hand₁ hand₂ : List Nat} (op : TlbOp)
      (before : TlbRun G cur e d k hand s hand₁)
      (legal : ∀ c ∈ op.call e, c.Legal (s.kernel k) hand₁ ∧ c.Sane (s.kernel k))
      (guard : G s op) (run : op.exec cur d hand₁ s = .ret hand₂ s') :
      TlbRun G cur e d k hand s' hand₂

section Erase

variable {cur : Option Nat} {e : EnvIdx} {d : Nat} {k : Kernel} {hand : List Nat} {s : Core}

/-- What an erased call does to the kernel. -/
theorem Erases.on_kernel {α : Type} {m : TlbM α} {n : Pmap α} (h : Erases m n) {a : α} {s' : Core}
    (run : m s = .ret a s') : pmap n (s.kernel k) = .ret a (s'.kernel k) := by
  have hs := h s
  cases hn : n s.phys with
  | ret b q =>
      rw [hn] at hs
      obtain ⟨tlb, hm⟩ := hs
      obtain ⟨rfl, rfl⟩ := Outcome.ret.inj (hm.symm.trans run)
      exact pmap_ret hn
  | exit r q => exact r.elim
  | panic err =>
      rw [hn] at hs
      rw [run] at hs
      simp at hs

/-- Forgetting the TLB, each operation is the one of the memory manager. -/
theorem TlbOp.call_run {op : TlbOp} {c : PageOp} (hc : c ∈ op.call e) {hand' : List Nat} {s' : Core}
    (hd : (k.envs e).pgdir = some d) (run : op.exec cur d hand s = .ret hand' s') :
    c.exec hand (s.kernel k) = .ret hand' (s'.kernel k) := by
  have hdir : pgdirOf e (s.kernel k) = .ret d (s.kernel k) := by
    have hd' : ((s.kernel k).envs e).pgdir = some d := hd
    rw [pgdirOf, get_bind, hd']
    rfl
  cases op with
  | load x => simp [TlbOp.call] at hc
  | pageAlloc zero =>
      obtain rfl : c = .pageAlloc zero := by simpa [TlbOp.call, eq_comm] using hc
      obtain ⟨found, t, hrun, hrest⟩ := bind_eq_ret run
      obtain ⟨rfl, rfl⟩ := Outcome.ret.inj hrest
      exact bind_ret _ ((Erases.onPhys _).on_kernel hrun)
  | insert hw pp va perm =>
      obtain rfl : c = .insert e pp va perm := by simpa [TlbOp.call, eq_comm] using hc
      obtain ⟨r, t, hrun, hrest⟩ := bind_eq_ret run
      obtain ⟨rfl, rfl⟩ := Outcome.ret.inj hrest
      have hinto : insertInto e pp va perm (s.kernel k) = .ret r (t.kernel k) :=
        (bind_ret _ hdir).trans ((pageInsertTlb_erases pp va perm).on_kernel hrun)
      exact bind_ret _ hinto
  | remove hw va =>
      obtain rfl : c = .remove e va := by simpa [TlbOp.call, eq_comm] using hc
      obtain ⟨_, t, hrun, hrest⟩ := bind_eq_ret run
      obtain ⟨rfl, rfl⟩ := Outcome.ret.inj hrest
      exact (bind_ret _ hdir).trans (bind_ret _ ((pageRemoveTlb_erases va).on_kernel hrun))

end Erase

section Run

variable {L : Layout} {cur : Option Nat} {e : EnvIdx} {d : Nat} {k : Kernel} {hand hand' : List Nat}
  {s s' : Core}

/-- One operation. -/
theorem TlbOp.coherent {op : TlbOp} (h : HoldInv L hand (s.kernel k))
    (hd : (k.envs e).pgdir = some d) (hcur : cur = none ∨ cur = some d)
    (legal : ∀ c ∈ op.call e, c.Legal (s.kernel k) hand ∧ c.Sane (s.kernel k))
    (guard : ¬ op.Reperms e k.dirs s) (hc : s.Coherent d)
    (run : op.exec cur d hand s = .ret hand' s') : s'.Coherent d := by
  have hdir : (s.kernel k).dirs e = some d := hd
  have hinv : s.phys.Inv L (s.kernel k).dirs none := h.mem.phys
  cases op with
  | load x =>
      obtain ⟨-, rfl⟩ := Outcome.ret.inj run
      exact hc.load x
  | pageAlloc zero =>
      -- a page of the free list is no page table
      obtain ⟨found, t, hrun, hrest⟩ := bind_eq_ret run
      obtain ⟨-, rfl⟩ := Outcome.ret.inj hrest
      rcases MemInv.userPageAlloc_spec hinv zero with
        ⟨hsource, -⟩ | ⟨f, q, hsource, -, -, -, -, -, hkeeps, -⟩
      · obtain ⟨-, rfl⟩ := Outcome.ret.inj ((onPhys_ret hsource).symm.trans hrun)
        exact hc
      · obtain ⟨-, rfl⟩ := Outcome.ret.inj ((onPhys_ret hsource).symm.trans hrun)
        exact hc.congr fun x hx => Phys.entries_congr hdir hx (hkeeps.pteAt e x.1 x.2)
  | insert hw pp va perm =>
      obtain ⟨⟨-, hva, hperm, hpp⟩, -⟩ := legal _ rfl
      obtain ⟨r, t, hrun, hrest⟩ := bind_eq_ret run
      obtain ⟨-, rfl⟩ := Outcome.ret.inj hrest
      have howned : L.owned pp := by
        rcases hpp with hpp | ⟨e', va', hpp⟩
        · exact ((h.held pp).mp hpp).1
        · exact hinv.tables.owned _ pp hpp
      exact (wp_ret hrun).mp (pageInsertTlb_coherent hinv hdir hva howned hcur guard hc)
  | remove hw va =>
      obtain ⟨⟨-, hva⟩, hsane⟩ := legal _ rfl
      obtain ⟨_, t, hrun, hrest⟩ := bind_eq_ret run
      obtain ⟨-, rfl⟩ := Outcome.ret.inj hrest
      have hremove : wp (pageRemoveTlb hw cur d va) (fun _ s' => s'.Coherent d) (fun _ _ => False)
          (fun _ => False) s := by
        cases hpage : s.phys.target (s.kernel k).dirs (.pte e (pdx va) (ptx va)) with
        | none =>
            have hnone : s.phys.target (s.kernel k).dirs (.pde e (pdx va)) = none := by
              rw [Option.eq_none_iff_forall_ne_some]
              exact fun t ht => hsane ⟨⟨t, ht⟩, hpage⟩
            have hlookup := pageLookup_none (Phys.Inv.no_table_walk hdir hva hnone)
            rw [pageRemoveTlb, wp_bind, wp_ret (onPhys_ret hlookup), wp_pure]
            exact hc
        | some f =>
            obtain ⟨t, ht, -⟩ := hinv.remove hdir hpage
            exact wp_imp (pageRemoveTlb_coherent hinv hdir ht hpage hcur hc) fun _ _ hs => hs.2
      exact (wp_ret hrun).mp hremove

/-- A whole run. -/
theorem TlbRun.coherent {G : Core → TlbOp → Prop} (h : HoldInv L hand k)
    (hd : (k.envs e).pgdir = some d) (hcur : cur = none ∨ cur = some d)
    (run : TlbRun G cur e d k hand s hand') (guard : ∀ s op, G s op → ¬ op.Reperms e k.dirs s) :
    HoldInv L hand' (s.kernel k) ∧ s.Coherent d := by
  induction run with
  | loaded => exact ⟨h, fun x _ w hw => by simp at hw⟩
  | step op _ legal good run ih =>
      obtain ⟨hold, hc⟩ := ih
      refine ⟨?_, TlbOp.coherent hold hd hcur legal (guard _ op good) hc run⟩
      cases hcall : op.call e with
      | none =>
          cases op with
          | load x =>
              obtain ⟨rfl, rfl⟩ := Outcome.ret.inj run
              exact hold
          | _ => simp [TlbOp.call] at hcall
      | some c =>
          obtain ⟨hlegal, hsane⟩ := legal c hcall
          exact (wp_ret (TlbOp.call_run hcall hd run)).mp (hold.exec hlegal hsane)

end Run

/-- What is cached for an address below `UTOP` is what the walk finds. -/
theorem Core.Coherent.translate {s : Core} {d : Nat} (h : s.Coherent d) {va w : Word}
    (hva : va < utop) (hw : s.tlb (vpage va) = some w) :
    ∃ pde, s.phys.translate d va = some (pde, w) := by
  have hentry := h (vpage va) (vpage_mem hva) w hw
  rw [Phys.entries, Phys.translate, vpage, pdx_pgaddr, ptx_pgaddr] at hentry
  obtain ⟨⟨pde, pte⟩, hwalk, rfl⟩ := Option.map_eq_some_iff.mp hentry
  exact ⟨pde, hwalk⟩

/-- In every run in which no page that is mapped is inserted again, with other permissions, while
the TLB holds its old entry. -/
theorem tlb_coherent {m : Machine} {k₀ k : Kernel} {hand hand' : List Nat} {cur : Option Nat}
    {e : EnvIdx} {d : Nat} {s : Core} (booted : Booted m [] k₀)
    (before : PageRun (fun k op => op.Sane k) k₀ k hand) (loaded : (k.envs e).pgdir = some d)
    (current : cur = none ∨ cur = some d)
    (run : TlbRun (fun s op => ¬ op.Reperms e k.dirs s) cur e d k hand s hand') {va w : Word}
    (user : va < utop) (cached : s.tlb (vpage va) = some w) :
    ∃ pde, s.phys.translate d va = some (pde, w) := by
  obtain ⟨L, -, h₀, -⟩ := booted.holdInv
  obtain ⟨-, hcoherent⟩ := run.coherent (h₀.run before) loaded current fun _ _ guard => guard
  exact hcoherent.translate user cached

/-- The entry of the first page is cached, and the page is inserted again. -/
theorem FirstPage.reinsert {L : Layout} {G : Core → TlbOp → Prop} {k : Kernel} {d f : Nat}
    (h : FirstPage d f k) (hold : HoldInv L [] k) {perm : Word} (hperm : perm.toNat < 4096)
    (guard₁ : ∀ s, G s (.load (vpage 0x800000)))
    (guard₂ : ∀ s, s.phys = k.phys → G s (.insert (fun _ => []) f 0x800000 perm)) :
    ∃ s, TlbRun G (some d) 0 d k [] s [] ∧
      s.tlb (vpage 0x800000) = some (mkPte f (pteU ||| pteW)) ∧
      ∃ pde, s.phys.translate d 0x800000 = some (pde, mkPte f perm) := by
  have hva : (0x800000 : Word) < utop := by decide
  have hx := vpage_mem hva
  have hold_pte : k.phys.pteAt k.dirs 0 (pdx 0x800000) (ptx 0x800000) =
      mkPte f (pteU ||| pteW) := h.mapped
  have hentry : k.phys.entries d (vpage 0x800000) = some (mkPte f (pteU ||| pteW)) := by
    rw [Phys.entries_eq h.pgdir hx]
    simp only [vpage, hold_pte]
    exact if_neg (mkPte_present _ _)
  rcases hold.mem.phys.walk h.pgdir hva with ⟨q, t, hwalk, hq, ht, hkeeps, -⟩ | ⟨-, head⟩
  · have hword : q.word t (ptx 0x800000) = mkPte f (pteU ||| pteW) := by
      rw [← Phys.pteAt_of_table ht, hkeeps.pteAt, hold_pte]
    have haddr : pteAddr (mkPte f (pteU ||| pteW)) = page2pa f := by
      rw [pteAddr_eq, pgnum_mkPte h.page_lt (by decide)]
      rfl
    generalize htlb : Function.update (fun _ => none) (vpage 0x800000)
      (some (mkPte f (pteU ||| pteW))) = tlb
    have hself : tlb (vpage 0x800000) = some (mkPte f (pteU ||| pteW)) := by
      rw [← htlb, Function.update_self]
    have hload : TlbOp.exec (some d) d [] (.load (vpage 0x800000)) ⟨k.phys, fun _ => none⟩ =
        .ret [] ⟨k.phys, tlb⟩ := by
      have hcache : Cache.load (fun _ => none) (k.phys.entries d) (vpage 0x800000) = tlb := by
        simp only [Cache.load, hentry, ← htlb]
      rw [← hcache]
      rfl
    have hinsert : pageInsertTlb (fun _ => []) (some d) d f 0x800000 perm ⟨k.phys, tlb⟩ =
        .ret 0 ⟨q.setWord t (ptx 0x800000) (mkPte f perm), tlb⟩ := by
      have hpte : onPhys (PtePtr.load ⟨t, ptx 0x800000⟩) ⟨q, tlb⟩ =
          .ret (mkPte f (pteU ||| pteW)) ⟨q, tlb⟩ := by
        rw [← hword]
        rfl
      rw [pageInsertTlb, bind_ret _ (onPhys_ret hwalk)]
      dsimp only
      rw [bind_ret _ hpte]
      exact congrFun (if_pos ⟨mkPte_present _ _, haddr⟩) _
    have hexec : TlbOp.exec (some d) d [] (.insert (fun _ => []) f 0x800000 perm) ⟨k.phys, tlb⟩ =
        .ret [] ⟨q.setWord t (ptx 0x800000) (mkPte f perm), tlb⟩ := bind_ret _ hinsert
    refine ⟨_, .step _ (.step _ .loaded (by simp [TlbOp.call]) (guard₁ _) hload) ?_
      (guard₂ _ rfl) hexec, ?_, ?_⟩
    · rintro c hc
      obtain rfl : c = .insert 0 f 0x800000 perm := by simpa [TlbOp.call, eq_comm] using hc
      exact ⟨⟨h.used, hva, hperm, .inr ⟨0, 0x800000, h.pageAt⟩⟩, .inl h.pageAt⟩
    · exact hself
    · have hafter := Phys.Inv.edits (j := ptx 0x800000) (w := mkPte f perm) (.refl k.dirs q)
        hq.tables.unshared ht rfl
      have hnew := (hafter.entries_self h.pgdir hva).trans (if_neg (mkPte_present f perm))
      rw [Phys.entries, vpage] at hnew
      obtain ⟨⟨pde, pte⟩, hwalk, rfl⟩ := Option.map_eq_some_iff.mp hnew
      exact ⟨pde, hwalk⟩
  · obtain ⟨g, hg⟩ := h.free.head
    rw [head] at hg
    simp at hg

/-- The environment 0 has a page at `0x800000`, the processor takes up its entry, and the page is
inserted again in the same way. -/
theorem tlb_coherent_firstPage : ∃ k₀ k d f s, Booted qemu [] k₀ ∧
    PageRun (fun k op => op.Sane k) k₀ k [] ∧ FirstPage d f k ∧
    TlbRun (fun s op => ¬ op.Reperms 0 k.dirs s) (some d) 0 d k [] s [] ∧
    s.tlb (vpage 0x800000) = some (mkPte f (pteU ||| pteW)) ∧
    ∃ pde, s.phys.translate d 0x800000 = some (pde, mkPte f (pteU ||| pteW)) := by
  obtain ⟨k₀, k, d, f, booted, run, hpage⟩ := qemu_firstPage
  obtain ⟨L, -, h₀, -⟩ := booted.holdInv
  obtain ⟨s, hrun, hcached, -⟩ := @FirstPage.reinsert _ (fun s op => ¬ op.Reperms 0 k.dirs s)
    _ _ _ hpage (h₀.run run) (pteU ||| pteW) (by decide) (fun _ h => h)
    fun s hs h => h.2.1 (by rw [hs]; exact hpage.mapped)
  exact ⟨k₀, k, d, f, s, booted, run, hpage, hrun, hcached,
    tlb_coherent booted run hpage.pgdir (.inr rfl) hrun (by decide) hcached⟩

/-- It is inserted again without `PTE_W`. The TLB still allows writes. -/
theorem tlb_incoherent : ∃ k₀ k d f s, Booted qemu [] k₀ ∧
    PageRun (fun k op => op.Sane k) k₀ k [] ∧ FirstPage d f k ∧
    TlbRun (fun _ _ => True) (some d) 0 d k [] s [] ∧
    s.tlb (vpage 0x800000) = some (mkPte f (pteU ||| pteW)) ∧
    ∃ pde, s.phys.translate d 0x800000 = some (pde, mkPte f pteU) ∧
      mkPte f (pteU ||| pteW) ≠ mkPte f pteU := by
  obtain ⟨k₀, k, d, f, booted, run, hpage⟩ := qemu_firstPage
  obtain ⟨L, -, h₀, -⟩ := booted.holdInv
  obtain ⟨s, hrun, hcached, pde, hwalk⟩ := @FirstPage.reinsert _ (fun _ _ => True) _ _ _
    hpage (h₀.run run) pteU (by decide) (fun _ => trivial) fun _ _ => trivial
  refine ⟨k₀, k, d, f, s, booted, run, hpage, hrun, hcached, pde, hwalk, fun heq => ?_⟩
  have hwrite := congrArg (· &&& pteW) heq
  simp only [mkPte_and _ _ (show pteW.toNat < 4096 by decide)] at hwrite
  exact absurd hwrite (by decide)

end Jos
