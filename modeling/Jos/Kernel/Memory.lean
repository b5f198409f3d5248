import Jos.Kernel.AddressSpace
import Jos.Pmap.UserMem
import Jos.Sched.Exclusive

/-!
# The page system calls on a well-formed memory

What `sys_page_alloc`, `sys_page_map`, `sys_page_unmap` and `sys_ipc_try_send` do
to mappings and to the contents of pages, and when they keep the invariant of the
memory manager. Three things break it. A lookup of an address whose page table
exists but whose entry is empty finds the page 0 instead of nothing (`HoleAt`); a
page sent to a receiver that asked for none is mapped at `UTOP`, in the kernel's
half; and a page that is mapped 65535 times is mapped once more.
-/

namespace Jos

open Prog

/-- A lookup of `va` in `pgdir` does not come upon an entry for a page that does not
exist. The map at `KERNBASE` and device memory have such entries. -/
def Phys.LookupExists (p : Phys) (pgdir : Nat) (va : Word) : Prop :=
  p.word pgdir (pdx va) &&& pteP ≠ 0 →
    pgnum (p.word (pgnum (p.word pgdir (pdx va))) (ptx va)) < p.npages

namespace Kernel

/-- The page mapped at `va`. -/
def pageAt (k : Kernel) (e : EnvIdx) (va : Word) : Option Nat :=
  k.phys.target k.dirs (.pte e (pdx va) (ptx va))

/-- The page table entry for `va`. -/
def entryAt (k : Kernel) (e : EnvIdx) (va : Word) : Word :=
  k.phys.pteAt k.dirs e (pdx va) (ptx va)

/-- There is a page table for `va`, but nothing is mapped there. -/
def HoleAt (k : Kernel) (e : EnvIdx) (va : Word) : Prop :=
  (∃ t, k.phys.target k.dirs (.pde e (pdx va)) = some t) ∧ k.pageAt e va = none

/-- Mapping the page of `src` at `srcva` also at `dstva` of `dst` is harmless: a hole
is refused because it is not writable, and a page goes below `UTOP` and has room
for one more reference. -/
def Shareable (k : Kernel) (src : EnvIdx) (srcva : Word) (dst : EnvIdx) (dstva perm : Word) :
    Prop :=
  (k.HoleAt src srcva → perm &&& pteW ≠ 0) ∧
    ∀ f, k.pageAt src srcva = some f →
      (perm &&& pteW ≠ 0 → k.entryAt src srcva &&& pteW ≠ 0) →
      dstva < utop ∧ (k.pageAt dst dstva = some f ∨ k.phys.ref f ≠ 65535)

end Kernel

/-- The system call of `cur` with registers `tf` stays clear of the three cases. -/
structure CallSafe (k : Kernel) (cur : EnvIdx) (tf : Trapframe) : Prop where
  unmap : ∀ e, tf.Calls .pageUnmap → k.envid2env cur tf.regs.edx true = some e →
    vaOk tf.regs.ecx → ¬ k.HoleAt e tf.regs.ecx
  map : ∀ src dst, tf.Calls .pageMap → k.envid2env cur tf.regs.edx true = some src →
    k.envid2env cur tf.regs.ebx true = some dst → vaOk tf.regs.ecx → vaOk tf.regs.edi →
    permOk tf.regs.esi → k.Shareable src tf.regs.ecx dst tf.regs.edi tf.regs.esi
  send : ∀ dst, tf.Calls .ipcTrySend → k.envid2env cur tf.regs.edx false = some dst →
    (k.envs dst).ipcRecving = true → tf.regs.ebx < utop → permOk tf.regs.edi →
    k.Shareable cur tf.regs.ebx dst (k.envs dst).ipcDstva tf.regs.edi

theorem permOk.toNat_lt {perm : Word} (h : permOk perm) : perm.toNat < 4096 := by
  have hmask : perm &&& 0xE07#32 = perm := by
    have hsplit : perm = perm &&& 0xE07#32 ||| perm &&& ~~~0xE07#32 := by
      rw [← BitVec.and_or_distrib_left, show 0xE07#32 ||| ~~~0xE07#32 = BitVec.allOnes 32 by decide,
        BitVec.and_allOnes]
    have hzero : perm &&& ~~~0xE07#32 = 0#32 := h.2
    rw [hzero] at hsplit
    simpa using hsplit.symm
  rw [← hmask, BitVec.toNat_and]
  have : perm.toNat &&& (0xE07#32).toNat ≤ (0xE07#32).toNat := Nat.and_le_right
  have hval : (0xE07#32 : Word).toNat = 3591 := rfl
  omega

namespace MemInv

variable {L : Layout} {k k' : Kernel} {c : Nat} {cur e : EnvIdx} {d : Nat} {va perm : Word}

theorem dir_of_live (h : MemInv L k) (hlive : k.status e ≠ .free) :
    ∃ d, k.dirs e = some d ∧ d < k.phys.npages := by
  obtain ⟨d, hd⟩ : ∃ d, k.dirs e = some d :=
    Option.ne_none_iff_exists'.mp fun hnone => hlive ((h.live e).mpr hnone)
  exact ⟨d, hd, h.phys.lt_npages (h.phys.tables.dir_owned hd)⟩

theorem pgdirOf_run (h : MemInv L k) (hlive : k.status e ≠ .free) :
    ∃ d, k.dirs e = some d ∧ pgdirOf e k = .ret d k := by
  obtain ⟨d, hd, -⟩ := h.dir_of_live hlive
  have hpg : (k.envs e).pgdir = some d := hd
  refine ⟨d, hd, ?_⟩
  rw [pgdirOf, get_bind, hpg]
  rfl

/-- Only memory has changed, and it is well-formed again. -/
theorem of_phys (h : MemInv L k) {p : Phys} (hp : p.Inv L k.dirs none) :
    MemInv L { k with phys := p } := ⟨hp, h.kern, h.live⟩

/-- The target of a system call by a live environment is live. -/
theorem live_of_target (hcur : k.status cur ≠ .free) {envid : Word} {b : Bool}
    (target : k.envid2env cur envid b = some e) : k.status e ≠ .free := by
  rcases Kernel.envid2env_cases target with rfl | hlive
  · exact hcur
  · exact hlive

/-- What a page system call may do: only memory changes, and it stays well-formed. -/
def Ends (L : Layout) (k k' : Kernel) : Prop :=
  k' = { k with phys := k'.phys } ∧ k'.phys.Inv L k.dirs none

theorem Ends.refl (h : MemInv L k) : Ends L k k := ⟨rfl, h.phys⟩

theorem Ends.memInv (h : MemInv L k) (he : Ends L k k') : MemInv L k' := by
  rw [he.1]
  exact h.of_phys he.2

/-- `page_alloc` for a user page. -/
theorem userPageAlloc_spec {p : Phys} {dirs : EnvIdx → Option Nat} (h : p.Inv L dirs none)
    (zero : Bool) :
    (userPageAlloc zero p = .ret none p ∧ p.pageFreeList = none) ∨
      ∃ f q, userPageAlloc zero p = .ret (some f) q ∧ q.Inv L dirs none ∧ p.Listed f ∧
        (zero = true → q.mem f = fun _ => 0) ∧ q.ref f = 0 ∧ Phys.Mappable L dirs q f ∧
        Phys.Keeps dirs p q ∧ ∀ n, p.FreePages (n + 1) → q.FreePages n := by
  cases head : p.pageFreeList with
  | none =>
      refine .inl ⟨?_, rfl⟩
      rw [userPageAlloc, bind_ret _ (pageAlloc_none head zero)]
      rfl
  | some f =>
      right
      have hlisted : p.Listed f := by
        rw [Phys.Listed, head]
        exact .here f
      obtain ⟨ha, hspare, hkeeps, -, hzero⟩ := h.alloc head zero
      have hlt := h.lt_npages hspare.owned
      refine ⟨f, { p.alloc f zero with userPages := f :: (p.alloc f zero).userPages }, ?_,
        ha.recordUserPage [f], hlisted, hzero,
        ha.counts.ref_eq_zero hspare.owned hspare.fresh,
        ⟨hspare.owned, hspare.unlisted, hspare.not_structural, by simp⟩,
        ⟨hkeeps.pteAt, fun g hg => List.mem_cons_of_mem f (hkeeps.userPages g hg),
          hkeeps.unlisted, hkeeps.ref, hkeeps.structural, hkeeps.mem⟩,
        fun n hn => (Phys.Inv.alloc_freePages hn head zero).congr rfl rfl⟩
      rw [userPageAlloc, bind_ret _ (pageAlloc_some head hlt h.npages_le zero)]
      rfl

/-- `page_insert` in an address space, as a system call makes it. -/
theorem insertInto_spec (h : MemInv L k) (hlive : k.status e ≠ .free) (hva : va < utop)
    (hperm : perm.toNat < 4096) {pp : Nat} (hpp : Phys.Mappable L k.dirs k.phys pp)
    (hmax : k.pageAt e va = some pp ∨ k.phys.ref pp ≠ 65535) :
    ∃ r k', insertInto e pp va perm k = .ret r k' ∧ Ends L k k' ∧
      ((r = -eNoMem ∧ k' = k ∧ k.phys.pageFreeList = none) ∨
        r = 0 ∧ Phys.Edits k.dirs k.phys k'.phys e (pdx va) (ptx va) (mkPte pp perm) ∧
          ∀ n, k.phys.FreePages (n + 1) → k'.phys.FreePages n) := by
  obtain ⟨d, hd, hpg⟩ := h.pgdirOf_run hlive
  have hrun : ∀ r q, pageInsert d pp va perm k.phys = .ret r q →
      insertInto e pp va perm k = .ret r { k with phys := q } := by
    intro r q hq
    rw [insertInto, bind_ret _ hpg]
    exact pmap_ret hq
  rcases h.phys.insert hd hva hperm hpp hmax with ⟨hq, head⟩ | ⟨q, hq, hinv, hedit⟩
  · exact ⟨_, _, hrun _ _ hq, .refl h, .inl ⟨rfl, rfl, head⟩⟩
  · exact ⟨_, _, hrun _ _ hq, ⟨rfl, hinv⟩, .inr ⟨rfl, hedit⟩⟩

/-- `sys_page_alloc` maps a page of zeros. -/
theorem sysPageAlloc_spec (h : MemInv L k) (hcur : k.status cur ≠ .free) {envid : Word} :
    wp (sysPageAlloc cur envid va perm)
      (fun r k' => Ends L k k' ∧ (r = 0 → ∃ e f, k.envid2env cur envid true = some e ∧
        k.phys.Listed f ∧ k'.phys.mem f = (fun _ => 0) ∧
        Phys.Edits k.dirs k.phys k'.phys e (pdx va) (ptx va) (mkPte f perm)))
      (fun _ _ => False) (fun _ => False) k := by
  simp only [sysPageAlloc, envid2env, wp_bind, wp_get, wp_pure]
  cases target : k.envid2env cur envid true with
  | none =>
      rw [wp_pure]
      exact ⟨.refl h, fun hz => absurd hz (by decide)⟩
  | some e =>
      simp only [wp_ite, wp_pure]
      refine ⟨fun _ => ⟨.refl h, fun hz => absurd hz (by decide)⟩, fun hva =>
        ⟨fun _ => ⟨.refl h, fun hz => absurd hz (by decide)⟩, fun hperm => ?_⟩⟩
      rw [not_not] at hva hperm
      rw [wp_bind]
      rcases userPageAlloc_spec h.phys true with
        ⟨hrun, -⟩ | ⟨f, q, hrun, hq, hlisted, hzero, href, hmap, hkeeps, -⟩
      · rw [wp_ret (pmap_ret hrun)]
        exact wp_pure _ |>.mpr ⟨.refl h, fun hz => absurd hz (by decide)⟩
      · rw [wp_ret (pmap_ret hrun)]
        have hk₁ : MemInv L { k with phys := q } := h.of_phys hq
        have hlive := live_of_target hcur target
        obtain ⟨r, k', hins, hends, hres⟩ := insertInto_spec (k := { k with phys := q }) hk₁ hlive
          hva.1 hperm.toNat_lt hmap (.inr (by rw [href]; decide))
        rw [wp_bind, wp_ret hins]
        have hends' : Ends L k k' := by
          rw [Ends, hends.1]
          exact ⟨rfl, hends.2⟩
        rcases hres with ⟨rfl, -, -⟩ | ⟨rfl, hedit, -⟩
        · rw [if_pos (by decide), wp_pure]
          exact ⟨hends', fun hz => absurd hz (by decide)⟩
        · rw [if_neg (by decide), wp_pure]
          refine ⟨hends', fun _ => ⟨e, f, rfl, hlisted, ?_, .of_keeps hkeeps hedit⟩⟩
          rw [hedit.mem f hmap.unlisted hmap.plain, hzero rfl]

/-- A mapped page may be mapped once more. -/
theorem mappable (h : MemInv L k) {f : Nat} (hf : k.pageAt e va = some f) :
    Phys.Mappable L k.dirs k.phys f := by
  have howned := h.phys.tables.owned _ f hf
  exact ⟨howned, h.phys.counts.not_listed_of_ref (h.phys.counts.ref_ne_zero howned hf),
    h.phys.tables.unshared.page_not_structural hf, h.phys.tables.userPages _ _ _ f hf⟩

/-- The three answers of `page_lookup` below `UTOP`. The last one is wrong. -/
theorem lookup_cases (h : MemInv L k) (hd : k.dirs e = some d) (hva : va < utop) :
    (pageLookup d va k.phys = .ret none k.phys ∧
        k.phys.target k.dirs (.pde e (pdx va)) = none ∧ k.pageAt e va = none) ∨
      (∃ f t, k.pageAt e va = some f ∧ k.phys.target k.dirs (.pde e (pdx va)) = some t ∧
        k.phys.word t (ptx va) = k.entryAt e va ∧
        pageLookup d va k.phys = .ret (some (f, ⟨t, ptx va⟩)) k.phys) ∨
      ∃ t, k.HoleAt e va ∧ k.phys.word t (ptx va) = 0 ∧
        pageLookup d va k.phys = .ret (some (0, ⟨t, ptx va⟩)) k.phys := by
  cases ht : k.phys.target k.dirs (.pde e (pdx va)) with
  | none =>
      refine .inl ⟨pageLookup_none (Phys.Inv.no_table_walk hd hva ht), rfl, ?_⟩
      rw [Kernel.pageAt, Phys.target, Phys.pteAt_of_none ht]
      exact entryFrame_zero
  | some t =>
      have hpte : k.entryAt e va = k.phys.word t (ptx va) := Phys.pteAt_of_table ht
      cases hf : k.pageAt e va with
      | some f =>
          obtain ⟨t', ht', hl⟩ := h.phys.lookup hd hf
          obtain rfl : t = t' := Option.some.inj (ht.symm.trans ht')
          exact .inr (.inl ⟨f, t, rfl, rfl, hpte.symm, hl⟩)
      | none =>
          have hzero : k.phys.word t (ptx va) = 0 := by
            rw [← hpte]
            exact h.phys.tables.clean _ _ _ hf
          obtain ⟨hp, hnum, hlt⟩ := h.phys.table_walk hd ht
          have hpos : 0 < k.phys.npages := Nat.lt_of_le_of_lt (Nat.zero_le t) hlt
          have hnum0 : pgnum (k.phys.word t (ptx va)) = 0 := by
            rw [hzero]
            decide
          refine .inr (.inr ⟨t, ⟨⟨t, ht⟩, hf⟩, hzero, ?_⟩)
          rw [pageLookup_some hp (by rwa [hnum]) (by rwa [hnum, hnum0]), hnum, hnum0]

theorem lookupIn_run (h : MemInv L k) (hlive : k.status e ≠ .free) (hva : va < utop) :
    (lookupIn e va k = .ret none k ∧ k.phys.target k.dirs (.pde e (pdx va)) = none ∧
        k.pageAt e va = none) ∨
      (∃ f, k.pageAt e va = some f ∧ lookupIn e va k = .ret (some (f, k.entryAt e va)) k) ∨
      (k.HoleAt e va ∧ lookupIn e va k = .ret (some (0, 0)) k) := by
  obtain ⟨d, hd, hpg⟩ := h.pgdirOf_run hlive
  have hsome : ∀ f t, pageLookup d va k.phys = .ret (some (f, ⟨t, ptx va⟩)) k.phys →
      lookupIn e va k = .ret (some (f, k.phys.word t (ptx va))) k := by
    intro f t hl
    rw [lookupIn, bind_ret _ hpg, bind_ret _ (pmap_ret hl)]
    rfl
  rcases h.lookup_cases hd hva with ⟨hl, htable⟩ | ⟨f, t, hf, -, hw, hl⟩ | ⟨t, hhole, hw, hl⟩
  · refine .inl ⟨?_, htable⟩
    rw [lookupIn, bind_ret _ hpg, bind_ret _ (pmap_ret hl)]
    rfl
  · exact .inr (.inl ⟨f, hf, by rw [hsome f t hl, hw]⟩)
  · exact .inr (.inr ⟨hhole, by rw [hsome 0 t hl, hw]⟩)

/-- A mapped page is found, with its entry. -/
theorem lookupIn_page (h : MemInv L k) (hlive : k.status e ≠ .free) (hva : va < utop) {f : Nat}
    (hf : k.pageAt e va = some f) : lookupIn e va k = .ret (some (f, k.entryAt e va)) k := by
  rcases h.lookupIn_run hlive hva with ⟨-, -, hnone⟩ | ⟨g, hg, hl⟩ | ⟨⟨-, hnone⟩, -⟩
  · rw [hf] at hnone
    simp at hnone
  · obtain rfl : f = g := Option.some.inj (hf.symm.trans hg)
    exact hl
  · rw [hf] at hnone
    simp at hnone

/-- A hole is taken for the page 0. -/
theorem lookupIn_hole (h : MemInv L k) (hlive : k.status e ≠ .free) (hva : va < utop)
    (hole : k.HoleAt e va) : lookupIn e va k = .ret (some (0, 0)) k := by
  obtain ⟨⟨t, ht⟩, hnone⟩ := hole
  rcases h.lookupIn_run hlive hva with ⟨-, htable, -⟩ | ⟨f, hf, -⟩ | ⟨-, hl⟩
  · rw [ht] at htable
    simp at htable
  · rw [hnone] at hf
    simp at hf
  · exact hl

/-- `sys_page_map` of a mapped page shares it; there is nothing else to map. -/
theorem sysPageMap_spec (h : MemInv L k) (hcur : k.status cur ≠ .free)
    {srcid srcva dstid dstva : Word}
    (safe : ∀ src dst, k.envid2env cur srcid true = some src →
      k.envid2env cur dstid true = some dst → vaOk srcva → vaOk dstva → permOk perm →
      k.Shareable src srcva dst dstva perm) :
    wp (sysPageMap cur srcid srcva dstid dstva perm)
      (fun r k' => Ends L k k' ∧
        (∀ src dst, k.envid2env cur srcid true = some src →
          k.envid2env cur dstid true = some dst → k.pageAt src srcva = none →
          r = -eInval ∧ k' = k) ∧
        (r = 0 → ∃ src dst f, k.envid2env cur srcid true = some src ∧
          k.envid2env cur dstid true = some dst ∧ k.pageAt src srcva = some f ∧
          Phys.Edits k.dirs k.phys k'.phys dst (pdx dstva) (ptx dstva) (mkPte f perm)))
      (fun _ _ => False) (fun _ => False) k := by
  simp only [sysPageMap, envid2env, wp_bind, wp_get, wp_pure]
  cases hsrc : k.envid2env cur srcid true with
  | none =>
      rw [wp_pure]
      exact ⟨.refl h, by simp, fun hz => absurd hz (by decide)⟩
  | some src =>
      simp only [wp_bind, wp_get, wp_pure]
      cases hdst : k.envid2env cur dstid true with
      | none =>
          rw [wp_pure]
          exact ⟨.refl h, by simp, fun hz => absurd hz (by decide)⟩
      | some dst =>
          have hrefused : Ends L k k ∧ (∀ src' dst', some src = some src' → some dst = some dst' →
              k.pageAt src' srcva = none → -eInval = -eInval ∧ k = k) ∧
              (-eInval = 0 → ∃ src' dst' f, some src = some src' ∧ some dst = some dst' ∧
                k.pageAt src' srcva = some f ∧ Phys.Edits k.dirs k.phys k.phys dst' (pdx dstva)
                  (ptx dstva) (mkPte f perm)) :=
            ⟨.refl h, fun _ _ _ _ _ => ⟨rfl, rfl⟩, fun hz => absurd hz (by decide)⟩
          rw [wp_ite]
          refine ⟨fun _ => (wp_pure _).mpr hrefused, fun hva => ?_⟩
          rw [not_not] at hva
          have hlive := live_of_target hcur hsrc
          rw [wp_bind]
          rcases h.lookupIn_run hlive hva.1.1 with ⟨hl, -⟩ | ⟨f, hf, hl⟩ | ⟨hhole, hl⟩
          · rw [wp_ret hl]
            exact (wp_pure _).mpr hrefused
          · rw [wp_ret hl]
            rw [wp_ite, wp_ite]
            refine ⟨fun _ => (wp_pure _).mpr hrefused, fun hw =>
              ⟨fun _ => (wp_pure _).mpr hrefused, fun hperm => ?_⟩⟩
            rw [not_not] at hperm
            have hwrite : perm &&& pteW ≠ 0 → k.entryAt src srcva &&& pteW ≠ 0 :=
              fun hp hz => hw ⟨hp, hz⟩
            obtain ⟨hlt, hmax⟩ := (safe src dst hsrc hdst hva.1 hva.2 hperm).2 f hf hwrite
            obtain ⟨r, k', hins, hends, hres⟩ := h.insertInto_spec (live_of_target hcur hdst) hlt
              hperm.toNat_lt (h.mappable hf) hmax
            have hmapped : ∀ src' dst', some src = some src' → some dst = some dst' →
                k.pageAt src' srcva = none → ∀ v : Word, v = -eInval ∧ k' = k := by
              intro src' dst' hs _ hnone
              rw [← Option.some.inj hs, hf] at hnone
              simp at hnone
            rw [wp_bind, wp_ret hins]
            rcases hres with ⟨rfl, -, -⟩ | ⟨rfl, hedit, -⟩
            · rw [if_pos (by decide), wp_pure]
              exact ⟨hends, fun a b ha hb hn => hmapped a b ha hb hn _,
                fun hz => absurd hz (by decide)⟩
            · rw [if_neg (by decide), wp_pure]
              exact ⟨hends, fun a b ha hb hn => hmapped a b ha hb hn _,
                fun _ => ⟨src, dst, f, rfl, rfl, hf, hedit⟩⟩
          · -- a hole counts as read-only, and only a request to write is refused
            rw [wp_ret hl]
            rw [wp_ite, wp_ite]
            refine ⟨fun _ => (wp_pure _).mpr hrefused, fun hw =>
              ⟨fun _ => (wp_pure _).mpr hrefused, fun hperm => ?_⟩⟩
            rw [not_not] at hperm
            have hwrite := (safe src dst hsrc hdst hva.1 hva.2 hperm).1 hhole
            exact absurd ⟨hwrite, by decide⟩ hw

/-- `sys_page_unmap` of a page, or where there is no page table, leaves nothing mapped. -/
theorem sysPageUnmap_spec (h : MemInv L k) (hcur : k.status cur ≠ .free) {envid : Word}
    (safe : ∀ e, k.envid2env cur envid true = some e → vaOk va → ¬ k.HoleAt e va) :
    wp (sysPageUnmap cur envid va)
      (fun r k' => Ends L k k' ∧ (r = 0 → ∃ e, k.envid2env cur envid true = some e ∧
        Phys.Edits k.dirs k.phys k'.phys e (pdx va) (ptx va) 0))
      (fun _ _ => False) (fun _ => False) k := by
  simp only [sysPageUnmap, envid2env, wp_bind, wp_get, wp_pure]
  cases target : k.envid2env cur envid true with
  | none =>
      rw [wp_pure]
      exact ⟨.refl h, fun hz => absurd hz (by decide)⟩
  | some e =>
      rw [wp_ite, wp_pure]
      refine ⟨fun _ => ⟨.refl h, fun hz => absurd hz (by decide)⟩, fun hva => ?_⟩
      rw [not_not] at hva
      obtain ⟨d, hd, hpg⟩ := h.pgdirOf_run (live_of_target hcur target)
      rw [wp_bind, wp_ret hpg, wp_bind]
      rcases h.lookup_cases hd hva.1 with ⟨hl, -, hnone⟩ | ⟨f, t, hf, ht, -, -⟩ | ⟨t, hhole, -, -⟩
      · have hrem : pageRemove d va k.phys = .ret () k.phys := by
          rw [pageRemove, bind_ret _ hl]
          rfl
        rw [wp_ret (pmap_ret hrem), wp_pure]
        refine ⟨.refl h, fun _ => ⟨e, rfl, h.phys.tables.clean _ _ _ hnone, fun _ _ _ _ => rfl,
          fun _ _ _ => rfl⟩⟩
      · obtain ⟨t', ht', hrem, hinv⟩ := h.phys.remove hd hf
        rw [wp_ret (pmap_ret hrem), wp_pure]
        exact ⟨⟨rfl, hinv⟩, fun _ => ⟨e, rfl, h.phys.remove_edits ht'⟩⟩
      · exact absurd hhole (safe e target hva)

/-- The directory maps itself. -/
theorem selfMap (h : MemInv L k) (hd : k.dirs e = some d) :
    k.phys.word d (pdx uvpt) &&& pteP ≠ 0 ∧ pgnum (k.phys.word d (pdx uvpt)) = d := by
  have hlt := h.phys.lt_npages (h.phys.tables.dir_owned hd)
  have hn := h.phys.npages_le
  have hself : k.phys.word d (pdx uvpt) = mkPte d pteU := by
    rw [h.phys.tables.selfMap e d hd, mkPte, BitVec.or_assoc, BitVec.or_assoc,
      BitVec.or_comm pteP, page2pa]
  rw [hself]
  exact ⟨mkPte_present d pteU, pgnum_mkPte (by omega) (by decide)⟩

/-- Every page table that a directory refers to exists. -/
theorem table_lt (h : MemInv L k) (hd : k.dirs e = some d) {i : Idx}
    (hp : k.phys.word d i &&& pteP ≠ 0) : pgnum (k.phys.word d i) < k.phys.npages := by
  by_cases hi : i.val < userPdes
  · refine h.phys.lt_npages (h.phys.tables.owned (.pde e i) _ ?_)
    rw [Phys.target, Phys.pdeAt_of_dir hd hi, entryFrame, if_pos hp]
  · rw [Nat.not_lt] at hi
    by_cases huvpt : i = pdx uvpt
    · rw [huvpt, (h.selfMap hd).2]
      exact h.phys.lt_npages (h.phys.tables.dir_owned hd)
    · rw [h.phys.tables.kernHalf e d i hd hi huvpt] at hp ⊢
      rw [h.phys.npages]
      exact (L.table_reserved i hi hp).1

/-- `page_lookup` at any address, where the page it finds exists. -/
theorem lookupIn_total (h : MemInv L k) (hlive : k.status e ≠ .free) {E : Panic → Prop}
    (ok : (∀ d, k.dirs e = some d → k.phys.LookupExists d va) ∨ ∀ why, E why)
    {X : Unit → Kernel → Prop} : wp (lookupIn e va) (fun _ k' => k' = k) X E k := by
  obtain ⟨d, hd, hpg⟩ := h.pgdirOf_run hlive
  rw [lookupIn, wp_bind, wp_ret hpg, wp_bind]
  by_cases hp : k.phys.word d (pdx va) &&& pteP = 0
  · rw [wp_ret (pmap_ret (pageLookup_none hp)), wp_pure]
  · have ht := h.table_lt hd hp
    by_cases hf : pgnum (k.phys.word (pgnum (k.phys.word d (pdx va))) (ptx va)) < k.phys.npages
    · rw [wp_ret (pmap_ret (pageLookup_some hp ht hf))]
      simp only [wp_bind, PtePtr.load, pmap, wp_zoom, wp_get, wp_pure]
    · rw [Nat.not_lt] at hf
      have hpanic : pmap (pageLookup d va) k = .panic .pa2page :=
        zoom_panic (pageLookup_panic hp ht hf)
      rw [wp_panic_eq hpanic]
      rcases ok with ok | ok
      · exact absurd (ok d hd hp) (by omega)
      · exact ok _

/-- A change to an environment in use that keeps its page directory. -/
theorem setEnv (h : MemInv L k) {env : Env} (used : k.status e ≠ .free)
    (pgdir : env.pgdir = (k.envs e).pgdir) (live : env.status ≠ .free) :
    MemInv L (k.setEnv e env) := by
  refine h.congr rfl rfl (funext fun e' => ?_) fun e' => ?_
  · exact Kernel.setEnv_field (f := Env.pgdir) pgdir e'
  · by_cases he : e' = e
    · subst he
      rw [Kernel.status, Kernel.setEnv_envs_self]
      exact ⟨fun hf => absurd hf live, fun hf => absurd hf used⟩
    · rw [Kernel.status, Kernel.setEnv_envs_of_ne _ he]
      exact Iff.rfl

theorem ipcDeliver_spec (h : MemInv L k) (used : k.status e ≠ .free) {srcid value : Word}
    {X : Unit → Kernel → Prop} {E : Panic → Prop} :
    wp (ipcDeliver e srcid value) (fun r k' => MemInv L k' ∧ r = 0) X E k := by
  rw [ipcDeliver, wp_bind, wp_modify, wp_pure]
  exact ⟨h.setEnv used rfl (by simp), rfl⟩

/-- `sys_ipc_try_send` shares a mapped page, if one is asked for. -/
theorem sysIpcTrySend_spec (h : MemInv L k) (hcur : k.status cur ≠ .free)
    {envid value srcva : Word} {E : Panic → Prop}
    (safe : ∀ dst, k.envid2env cur envid false = some dst → (k.envs dst).ipcRecving = true →
      srcva < utop → permOk perm → k.Shareable cur srcva dst (k.envs dst).ipcDstva perm)
    (calm : (∀ dst d, k.envid2env cur envid false = some dst → (k.envs dst).ipcRecving = true →
      utop ≤ srcva → k.dirs cur = some d → k.phys.LookupExists d srcva) ∨ ∀ why, E why) :
    wp (sysIpcTrySend cur envid value srcva perm)
      (fun r k' => MemInv L k' ∧ ∀ dst, k.envid2env cur envid false = some dst →
        (k.envs dst).ipcRecving = true → srcva < utop → k.pageAt cur srcva = none →
        r = -eInval ∧ k' = k)
      (fun _ _ => False) E k := by
  simp only [sysIpcTrySend, sysGetenvid, envid2env, wp_bind, wp_get, wp_pure]
  cases target : k.envid2env cur envid false with
  | none =>
      rw [wp_pure]
      exact ⟨h, by simp⟩
  | some dst =>
      rw [wp_bind, wp_get, wp_ite, wp_ite, wp_pure, wp_pure, wp_bind]
      refine ⟨fun hidle => ⟨h, fun dst' hd hrecv => ?_⟩, fun hrecv => ⟨fun _ => ⟨h, fun _ _ _ _ _ =>
        ⟨rfl, rfl⟩⟩, fun hperm => ?_⟩⟩
      · rw [← Option.some.inj hd, hidle] at hrecv
        simp at hrecv
      have recving : (k.envs dst).ipcRecving = true := by simpa using hrecv
      have hlive := live_of_target hcur target
      by_cases hva : srcva < utop
      · have hpermOk : permOk perm := by
          by_contra hbad
          exact hperm ⟨hva, hbad⟩
        obtain ⟨hhole, hpage⟩ := safe dst target recving hva hpermOk
        simp only [if_pos hva]
        rcases h.lookupIn_run hcur hva with ⟨hl, -⟩ | ⟨f, hf, hl⟩ | ⟨hole, hl⟩
        · rw [wp_ret hl]
          exact (wp_pure _).mpr ⟨h, fun _ _ _ _ _ => ⟨rfl, rfl⟩⟩
        · rw [wp_ret hl, wp_ite, wp_pure]
          refine ⟨fun _ => ⟨h, fun _ _ _ _ _ => ⟨rfl, rfl⟩⟩, fun hw => ?_⟩
          obtain ⟨hlt, hmax⟩ := hpage f hf fun hp hz => hw ⟨hp, hz⟩
          obtain ⟨r, k', hins, hends, hres⟩ := h.insertInto_spec hlive hlt hpermOk.toNat_lt
            (h.mappable hf) hmax
          have hk' := Ends.memInv h hends
          rw [wp_bind, wp_ret hins]
          rcases hres with ⟨rfl, -, -⟩ | ⟨rfl, hedit, -⟩
          · rw [if_pos (by decide), wp_pure]
            exact ⟨hk', by simp [hf]⟩
          · rw [if_neg (by decide), wp_bind, wp_modify]
            have hlive' : k'.status dst ≠ .free := by
              rw [hends.1]
              exact hlive
            have hperm' : MemInv L (k'.setEnv dst { k'.envs dst with ipcPerm := perm }) :=
              hk'.setEnv hlive' rfl hlive'
            refine wp_imp (hperm'.ipcDeliver_spec ?_) fun _ _ hq => ⟨hq.1, by simp [hf]⟩
            rw [Kernel.status, Kernel.setEnv_envs_self]
            exact hlive'
        · rw [wp_ret hl, wp_ite, wp_pure]
          exact ⟨fun _ => ⟨h, fun _ _ _ _ _ => ⟨rfl, rfl⟩⟩,
            fun hw => absurd ⟨hhole hole, by decide⟩ hw⟩
      · simp only [if_neg hva]
        refine wp_imp (h.lookupIn_total hcur ?_) ?_
        · rcases calm with calm | calm
          · exact .inl fun d hd => calm dst d target recving (BitVec.not_lt.mp hva) hd
          · exact .inr calm
        · rintro _ k' rfl
          exact wp_imp (h.ipcDeliver_spec hlive) fun _ _ hq =>
            ⟨hq.1, fun _ _ _ hlt => absurd hlt hva⟩

end MemInv

end Jos
