import Jos.Safety.Cputs
import Jos.User.Fork

/-!
# The kernel under a user program

What the page system calls, the self-map and `memmove` do for an environment whose
memory is well-formed. A call that does not succeed says that there are no free pages.
-/

namespace Jos

open Prog

section Rules

variable {α : Type} {k : Kernel} {Q : α → Kernel → Prop} {X : Stop → Kernel → Prop}
  {E : Panic → Prop}

theorem wp_check {Q : Unit → Kernel → Prop} {r : Word} :
    wp (check r) Q X E k ↔ (r.slt 0 = true → X .panic k) ∧ (r.slt 0 = false → Q () k) := by
  rw [check, wp_ite, wp_exit, wp_pure, Bool.not_eq_true]

end Rules

/-- The environment `cur` executes on CPU `c`, in the page directory `d`. -/
structure InUser (L : Layout) (c : Nat) (cur : EnvIdx) (d : Nat) (k : Kernel) : Prop where
  mem : MemInv L k
  used : k.status cur ≠ .free
  dir : k.dirs cur = some d
  cr3 : (k.cpus c).cr3 = d
  id : envx (k.envs cur).id = cur

/-- The page table entry `j` under the directory entry `i` of `e`. -/
def Kernel.pte (k : Kernel) (e : EnvIdx) (i j : Idx) : Word := k.phys.pteAt k.dirs e i j

variable {L : Layout} {k k' k'' : Kernel} {c d f : Nat} {cur e : EnvIdx} {i j : Idx}
  {va perm envid : Word}

theorem Kernel.envid2env_self (id : envx (k.envs cur).id = cur) (used : k.status cur ≠ .free) :
    k.envid2env cur (k.envs cur).id true = some cur := by
  rw [Kernel.envid2env]
  by_cases hzero : (k.envs cur).id = 0
  · rw [if_pos hzero]
  · rw [if_neg hzero]
    dsimp only
    rw [id, if_neg (by rw [not_or, not_not]; exact ⟨used, rfl⟩), if_neg (by simp)]

theorem sysGetenvid_run : call (sysGetenvid cur) k = .ret (k.envs cur).id k := call_ret rfl

namespace MemInv.Ends

theorem dirs (h : Ends L k k') : k'.dirs = k.dirs := by
  rw [h.1]
  rfl

theorem trans (h : Ends L k k') (h' : Ends L k' k'') : Ends L k k'' := by
  refine ⟨?_, ?_⟩
  · rw [h'.1, h.1]
  · rw [← h.dirs]
    exact h'.2

theorem inUser (h : Ends L k k') (hu : InUser L c cur d k) : InUser L c cur d k' := by
  have hmem := h.memInv hu.mem
  rw [h.1] at hmem ⊢
  exact ⟨hmem, hu.used, hu.dir, hu.cr3, hu.id⟩

theorem envid2env (h : Ends L k k') (b : Bool) :
    k'.envid2env cur envid b = k.envid2env cur envid b := by
  rw [h.1]
  rfl

end MemInv.Ends

namespace MemInv

/-- An edit leaves the contents of everything that is mapped. -/
theorem edits_mem (h : MemInv L k) {p : Phys} {e' : EnvIdx} {i' j' : Idx} {w : Word}
    (hedit : Phys.Edits k.dirs k.phys p e i j w)
    (hf : k.phys.target k.dirs (.pte e' i' j') = some f) : p.mem f = k.phys.mem f := by
  have hplain := h.phys.tables.unshared.page_not_structural hf
  have hunlisted := h.phys.counts.not_listed_of_ref
    (h.phys.counts.ref_ne_zero (h.phys.tables.owned _ f hf) hf)
  exact hedit.mem f hunlisted hplain

/-- A call has changed one page table entry. -/
structure Edited (L : Layout) (k : Kernel) (e : EnvIdx) (i j : Idx) (w : Word) (k' : Kernel) :
    Prop where
  ends : Ends L k k'
  self : k'.pte e i j = w
  rest : ∀ e' i' j', ¬ (e' = e ∧ i' = i ∧ j' = j) → k'.pte e' i' j' = k.pte e' i' j'
  mem : ∀ e' i' j' f, k.phys.target k.dirs (.pte e' i' j') = some f → k'.phys.mem f = k.phys.mem f

theorem Ends.edited (h : Ends L k k') (hk : MemInv L k) {w : Word}
    (hedit : Phys.Edits k.dirs k.phys k'.phys e i j w) : Edited L k e i j w k' := by
  refine ⟨h, ?_, fun e' i' j' hne => ?_, fun e' i' j' f hf => hk.edits_mem hedit hf⟩
  · rw [Kernel.pte, h.dirs]
    exact hedit.pteAt_self
  · rw [Kernel.pte, h.dirs]
    exact hedit.pteAt_of_ne e' i' j' hne

/-- What was mapped elsewhere still is. -/
theorem Edited.target {w : Word} (h : Edited L k e i j w k') {e' : EnvIdx} {i' j' : Idx}
    (hne : ¬ (e' = e ∧ i' = i ∧ j' = j)) :
    k'.phys.target k'.dirs (.pte e' i' j') = k.phys.target k.dirs (.pte e' i' j') :=
  congrArg entryFrame (h.rest e' i' j' hne)

/-- `sys_page_alloc` for an environment that the caller may change. -/
theorem sysPageAlloc_total (h : MemInv L k) (hlive : k.status e ≠ .free)
    (target : k.envid2env cur envid true = some e) (hva : vaOk va) (hperm : permOk perm) :
    ∃ r k', sysPageAlloc cur envid va perm k = .ret r k' ∧
      ((r = -eNoMem ∧ ¬ k.phys.FreePages 2) ∨
        r = 0 ∧ (∃ f, k.phys.Listed f ∧ f < 1048576 ∧ k'.phys.mem f = (fun _ => 0) ∧
          Edited L k e (pdx va) (ptx va) (mkPte f perm) k') ∧
        ∀ n, k.phys.FreePages (n + 2) → k'.phys.FreePages n) := by
  have hempty : ∀ {p : Phys} {n : Nat}, p.pageFreeList = none → ¬ p.FreePages (n + 1) := by
    intro p n hnone hfree
    obtain ⟨f, hf⟩ := hfree.head
    rw [hnone] at hf
    simp at hf
  rw [sysPageAlloc, bind_ret _ (envid2env_run target)]
  dsimp only
  rw [if_neg (not_not.mpr hva), if_neg (not_not.mpr hperm)]
  obtain ⟨hrun, hnone⟩ | ⟨f, q, hrun, hq, hlisted, hzero, href, hmap, hkeeps, hfree⟩ :=
    userPageAlloc_spec h.phys true
  · exact ⟨_, k, bind_ret _ (pmap_ret hrun), .inl ⟨rfl, hempty hnone⟩⟩
  · obtain ⟨r, k', hins, hends, hres⟩ := insertInto_spec (k := { k with phys := q })
      (h.of_phys hq) hlive hva.1 hperm.toNat_lt hmap (.inr (by rw [href]; decide))
    have hends' : Ends L k k' := by
      rw [Ends, hends.1]
      exact ⟨rfl, hends.2⟩
    refine ⟨if r.slt 0 then -eNoMem else 0, k', ?_, ?_⟩
    · rw [bind_ret _ (pmap_ret hrun)]
      dsimp only
      rw [bind_ret _ hins]
      split <;> rfl
    · obtain ⟨rfl, -, hnone⟩ | ⟨rfl, hedit, hless⟩ := hres
      · rw [if_pos (by decide)]
        exact .inl ⟨rfl, fun hroom => hempty hnone (hfree 1 hroom)⟩
      · rw [if_neg (by decide)]
        have hlt := h.phys.lt_npages hmap.owned
        have hle := h.phys.npages_le
        refine .inr ⟨rfl, ⟨f, hlisted, by omega, ?_, hends'.edited h (.of_keeps hkeeps hedit)⟩,
          fun n hn => hless n (hfree _ hn)⟩
        rw [hedit.mem f hmap.unlisted hmap.plain, hzero rfl]

/-- `sys_page_map` of a page that is there. -/
theorem sysPageMap_total {src dst : EnvIdx} {srcid srcva dstid dstva : Word} (h : MemInv L k)
    (hsrc : k.envid2env cur srcid true = some src) (hdst : k.envid2env cur dstid true = some dst)
    (live : k.status src ≠ .free ∧ k.status dst ≠ .free) (hva : vaOk srcva ∧ vaOk dstva)
    (hperm : permOk perm) (hf : k.pageAt src srcva = some f)
    (write : perm &&& pteW ≠ 0 → k.entryAt src srcva &&& pteW ≠ 0)
    (hmax : k.pageAt dst dstva = some f ∨ k.phys.ref f ≠ 65535) :
    ∃ r k', sysPageMap cur srcid srcva dstid dstva perm k = .ret r k' ∧
      ((r = -eNoMem ∧ ¬ k.phys.FreePages 1) ∨
        r = 0 ∧ Edited L k dst (pdx dstva) (ptx dstva) (mkPte f perm) k' ∧
        ∀ n, k.phys.FreePages (n + 1) → k'.phys.FreePages n) := by
  obtain ⟨r, k', hins, hends, hres⟩ := h.insertInto_spec live.2 hva.2.1 hperm.toNat_lt
    (h.mappable hf) hmax
  refine ⟨_, k', sysPageMap_run hsrc hdst hva (h.lookupIn_page live.1 hva.1.1 hf)
    (fun hw => write hw.1 hw.2) hperm hins, ?_⟩
  obtain ⟨rfl, -, hnone⟩ | ⟨rfl, hedit, hless⟩ := hres
  · rw [if_pos (by decide)]
    refine .inl ⟨rfl, fun hroom => ?_⟩
    obtain ⟨g, hg⟩ := hroom.head
    rw [hnone] at hg
    simp at hg
  · rw [if_neg (by decide)]
    exact .inr ⟨rfl, hends.edited h hedit, hless⟩

/-- A page that loses a mapping is not on the free list before. -/
theorem drop_freePages (h : MemInv L k) (hf : k.phys.target k.dirs (.pte e i j) = some f) {n : Nat}
    (hn : k.phys.FreePages n) : (k.phys.drop f).FreePages n := by
  obtain ⟨l, hl, hlen⟩ := hn
  have hmem : f ∉ l := fun hmem => h.phys.listed_fresh (hl.linked_iff.mpr hmem) _ hf
  rw [Phys.drop]
  split
  · refine ⟨f :: l, ?_, by rw [List.length_cons]; omega⟩
    change IsList ((k.phys.setRef f (k.phys.ref f - 1)).setLink f k.phys.pageFreeList).link (some f)
      (f :: l)
    rw [Phys.setLink_link, Phys.setRef_link]
    exact hl.push hmem
  · exact Phys.FreePages.setRef ⟨l, hl, hlen⟩ _

/-- `sys_page_unmap` of a page that is there. -/
theorem sysPageUnmap_total (h : MemInv L k) (hlive : k.status e ≠ .free)
    (target : k.envid2env cur envid true = some e) (hva : vaOk va)
    (hf : k.pageAt e va = some f) :
    ∃ k', sysPageUnmap cur envid va k = .ret 0 k' ∧ Edited L k e (pdx va) (ptx va) 0 k' ∧
      ∀ n, k.phys.FreePages n → k'.phys.FreePages n := by
  obtain ⟨d, hd, hpg⟩ := h.pgdirOf_run hlive
  obtain ⟨t, ht, hrem, hinv⟩ := h.phys.remove hd hf
  have hends : Ends L k { k with phys := (k.phys.drop f).setWord t (ptx va) 0 } := ⟨rfl, hinv⟩
  refine ⟨_, ?_, hends.edited h (h.phys.remove_edits ht),
    fun n hn => (h.drop_freePages hf hn).congr rfl rfl⟩
  rw [sysPageUnmap, bind_ret _ (envid2env_run target)]
  dsimp only
  rw [if_neg (not_not.mpr hva), bind_ret _ hpg, bind_ret _ (pmap_ret hrem)]
  rfl

end MemInv

namespace InUser

theorem selfMap (h : InUser L c cur d k) : k.phys.SelfMap d := by
  obtain ⟨hp, hnum⟩ := h.mem.selfMap h.dir
  refine ⟨hp, ?_, hnum⟩
  rw [h.mem.phys.tables.selfMap cur d h.dir, BitVec.and_or_distrib_right]
  intro hz
  exact absurd (BitVec.or_eq_zero_iff.mp hz).2 (by decide)

/-- `uvpd[i]` is the entry of the page directory. -/
theorem uvpdEntry (h : InUser L c cur d k) (i : Idx) :
    uvpdEntry c i k = .ret (k.phys.word d i) k := by
  have hi := i.isLt
  have hpn : 979968 + i.val < 1048576 := by omega
  have hpdx : pdx (BitVec.ofNat 32 (979968 + i) * 4096) = pdx uvpt := by
    apply Fin.ext
    have hval : (pdx uvpt).val = 957 := by decide
    rw [hval, pdx_val, pn_toNat hpn]
    omega
  have hptx : ptx (BitVec.ofNat 32 (979968 + i) * 4096) = i := by
    apply Fin.ext
    rw [ptx_val, pn_toNat hpn]
    omega
  have hself := h.selfMap
  have htable : k.phys.HasTable d (BitVec.ofNat 32 (979968 + i) * 4096) := by
    rw [Phys.HasTable, hpdx]
    exact ⟨hself.1, hself.2.1⟩
  have hrun := uvptEntry_run h.cr3 hself hpn htable
  rw [Phys.entryAt, hpdx, hptx, hself.2.2] at hrun
  rw [Jos.uvpdEntry, uvpd_eq]
  exact hrun

/-- `uvpt[pn]` is the entry of the page table, if there is one. -/
theorem uvptEntry (h : InUser L c cur d k) {t : Nat}
    (ht : k.phys.target k.dirs (.pde cur i) = some t) :
    uvptEntry c (pageNumber i j) k = .ret (k.pte cur i j) k := by
  obtain ⟨d', hd, hi, hentry⟩ := Phys.dir_of_table ht
  obtain rfl : d = d' := Option.some.inj (h.dir.symm.trans hd)
  have hij : pageNumber i j < 1048576 := by
    rw [pageNumber]
    omega
  have hpdx : pdx (BitVec.ofNat 32 (pageNumber i j) * 4096) = i := by
    apply Fin.ext
    rw [pdx_val, pn_toNat hij, pageNumber]
    omega
  have hptx : ptx (BitVec.ofNat 32 (pageNumber i j) * 4096) = j := by
    apply Fin.ext
    rw [ptx_val, pn_toNat hij, pageNumber]
    omega
  have hpde := h.mem.phys.tables.userPde cur i (by rw [ht]; simp)
  rw [Phys.pdeAt_of_dir hd hi] at hpde
  rw [entryFrame] at hentry
  split at hentry
  · rename_i hp
    have htable : k.phys.HasTable d (BitVec.ofNat 32 (pageNumber i j) * 4096) := by
      rw [Phys.HasTable, hpdx]
      exact ⟨hp, hpde.1⟩
    rw [uvptEntry_run h.cr3 h.selfMap hij htable, Phys.entryAt, hpdx, hptx,
      Option.some.inj hentry, Kernel.pte, Phys.pteAt_of_table ht]
  · simp at hentry

end InUser

/-- User mode may read the page at `va`, and write it if `write`; it is the page `f`. -/
def Phys.UserPage (p : Phys) (d : Nat) (va : Word) (f : Nat) (write : Bool) : Prop :=
  ∃ pde pte, p.translate d va = some (pde, pte) ∧ pgnum pte = f ∧
    pde &&& pteU ≠ 0 ∧ pte &&& pteU ≠ 0 ∧ (write = true → pde &&& pteW ≠ 0 ∧ pte &&& pteW ≠ 0)

/-- The entry of a page that may be accessed. -/
def UserPte (pte : Word) (write : Bool) : Prop :=
  pte &&& pteU ≠ 0 ∧ (write = true → pte &&& pteW ≠ 0)

theorem InUser.userPage (h : InUser L c cur d k) (hva : va < utop) (hf : k.pageAt cur va = some f)
    {write : Bool} (hpte : UserPte (k.entryAt cur va) write) : k.phys.UserPage d va f write := by
  obtain ⟨walk, -, hpde, -⟩ := h.mem.page_walk h.dir hva hf
  refine ⟨_, _, walk, ?_, hpde.1, hpte.1, fun hw => ⟨hpde.2, hpte.2 hw⟩⟩
  rw [Kernel.pageAt, Phys.target, entryFrame] at hf
  split at hf
  · exact Option.some.inj hf
  · simp at hf

section Memmove

variable {s t n : Nat} {src dst : Word}

theorem load_page (hcr3 : (k.cpus c).cr3 = d) (h : k.phys.UserPage d va f false) :
    load c va k = .ret (k.phys.mem f (pgoff va)) k := by
  obtain ⟨pde, pte, walk, rfl, hpde, hpte, -⟩ := h
  rw [load, get_bind, hcr3, walk]
  dsimp only
  rw [if_neg (by rintro (hz | hz); exacts [hpde hz, hpte hz])]
  rfl

theorem store_page (hcr3 : (k.cpus c).cr3 = d) (h : k.phys.UserPage d va f true) (b : Byte) :
    store c va b k = .ret () { k with phys := k.phys.setByte f (pgoff va) b } := by
  obtain ⟨pde, pte, walk, rfl, hpde, hpte, hwrite⟩ := h
  rw [store, get_bind, hcr3, walk]
  dsimp only
  rw [if_neg (by
    rintro (hz | hz | hz | hz)
    exacts [hpde hz, hpte hz, (hwrite rfl).1 hz, (hwrite rfl).2 hz])]
  rfl

/-- A page is accessed alike at all its bytes. -/
theorem Phys.UserPage.at {p : Phys} {write : Bool} {i : Nat} (h : p.UserPage d va f write)
    (haligned : va.toNat % 4096 = 0) (hi : i < 4096) :
    p.UserPage d (va + BitVec.ofNat 32 i) f write ∧ pgoff (va + BitVec.ofNat 32 i) = i := by
  have hlt := va.isLt
  have hva : (va + BitVec.ofNat 32 i).toNat = va.toNat + i := by
    rw [BitVec.toNat_add, BitVec.toNat_ofNat]
    omega
  refine ⟨?_, ?_⟩
  · rw [UserPage, translate_page (b := va) (by rw [hva]; omega)]
    exact h
  · rw [pgoff_eq, hva]
    omega

/-- The page `t` with its first `n` bytes from the page `s`. -/
def Phys.copied (p : Phys) (t s n : Nat) : Phys :=
  p.setPage t fun off => if off < n then p.mem s off else p.mem t off

/-- Up to a page is copied from one page to another. -/
theorem memmove_run (hcr3 : (k.cpus c).cr3 = d) (hn : n ≤ 4096)
    (hsrc : k.phys.UserPage d src s false) (hdst : k.phys.UserPage d dst t true)
    (aligned : src.toNat % 4096 = 0 ∧ dst.toNat % 4096 = 0) (plain : k.phys.Plain d t)
    (hne : s ≠ t) :
    memmove c dst src n k = .ret () { k with phys := k.phys.copied t s n } := by
  induction n with
  | zero =>
      have hsame : k.phys.copied t s 0 = k.phys := by
        simp [Phys.copied, Phys.setPage]
      rw [hsame]
      rfl
  | succ n ih =>
      have hrun := ih (by omega)
      rw [memmove] at hrun
      rw [memmove, forRange, bind_ret _ hrun]
      generalize hq : k.phys.copied t s n = q
      have hstores : Phys.Stores (fun _ => True) d k.phys q := by
        refine ⟨?_, ?_, ?_, ?_, fun g hg => ?_, fun _ _ hno => absurd trivial hno⟩
        all_goals subst hq
        · rfl
        · rfl
        · rfl
        · rfl
        · refine k.phys.mem_setPage_of_ne _ ?_
          rintro rfl
          exact hg plain
      have hpage : ∀ {va f write}, k.phys.UserPage d va f write → q.UserPage d va f write := by
        intro va f write h
        rw [Phys.UserPage, hstores.translate]
        exact h
      obtain ⟨hfrom, hoff⟩ := (hpage hsrc).at aligned.1 (i := n) (by omega)
      obtain ⟨hinto, hoff'⟩ := (hpage hdst).at aligned.2 (i := n) (by omega)
      rw [bind_ret _ (load_page (k := { k with phys := q }) hcr3 hfrom),
        store_page (k := { k with phys := q }) hcr3 hinto, hoff, hoff']
      refine congrArg (fun p => Outcome.ret () { k with phys := p }) ?_
      subst hq
      have hmem : (k.phys.copied t s n).mem s = k.phys.mem s := k.phys.mem_setPage_of_ne _ hne
      rw [hmem, Phys.setByte, Phys.copied, Phys.copied]
      simp only [Phys.setPage, Function.update_self, Function.update_idem]
      congr 1
      congr 1
      funext off
      by_cases hoff : off = n
      · subst hoff
        simp
      · rw [Function.update_of_ne hoff]
        by_cases hlt : off < n
        · rw [if_pos hlt, if_pos (by omega)]
        · rw [if_neg hlt, if_neg (by omega)]

theorem store_denied (hcr3 : (k.cpus c).cr3 = d) (h : ∀ f, ¬ k.phys.UserPage d va f true)
    (b : Byte) : store c va b k = .exit (.fault va) k := by
  rw [store, get_bind, hcr3]
  cases walk : k.phys.translate d va with
  | none => rfl
  | some entries =>
      obtain ⟨pde, pte⟩ := entries
      dsimp only
      rw [if_pos]
      · rfl
      · by_contra hno
        simp only [not_or] at hno
        exact h _ ⟨pde, pte, walk, rfl, hno.1, hno.2.1, fun _ => hno.2.2⟩

/-- The first byte cannot be stored. -/
theorem memmove_denied (hcr3 : (k.cpus c).cr3 = d) (hsrc : k.phys.UserPage d src s false)
    (h : ∀ f, ¬ k.phys.UserPage d dst f true) {n : Nat} (hn : 0 < n) :
    memmove c dst src n k = .exit (.fault dst) k := by
  obtain ⟨n, rfl⟩ := Nat.exists_eq_add_of_lt hn
  rw [Nat.zero_add]
  refine forRange_exit ?_ n
  have hzero : ∀ a : Word, a + BitVec.ofNat 32 0 = a := BitVec.add_zero
  rw [hzero, hzero, bind_ret _ (load_page hcr3 hsrc)]
  exact store_denied hcr3 h _

/-- The page `t` has got the contents of the page `s`. -/
structure Copied (L : Layout) (k : Kernel) (t s : Nat) (k' : Kernel) : Prop where
  ends : MemInv.Ends L k k'
  pte : ∀ e i j, k'.pte e i j = k.pte e i j
  bytes : ∀ off < 4096, k'.phys.mem t off = k.phys.mem s off
  mem : ∀ f, f ≠ t → k'.phys.mem f = k.phys.mem f
  free : ∀ n, k.phys.FreePages n → k'.phys.FreePages n

/-- User mode reaches a page below `UTOP` through its page table entry. -/
theorem InUser.userPage_iff (h : InUser L c cur d k) (hva : va < utop) {write : Bool} :
    k.phys.UserPage d va f write ↔
      k.pageAt cur va = some f ∧ UserPte (k.entryAt cur va) write := by
  constructor
  · rintro ⟨pde, pte, walk, rfl, -, hpte, hwrite⟩
    have hf := Phys.Inv.target_of_translate h.dir hva walk
    have walk' := (h.mem.page_walk h.dir hva hf).1
    rw [walk] at walk'
    obtain ⟨-, hentry⟩ := Prod.mk.inj (Option.some.inj walk')
    refine ⟨hf, ?_⟩
    rw [Kernel.entryAt, ← hentry]
    exact ⟨hpte, fun hw => (hwrite hw).2⟩
  · exact fun hpage => h.userPage hva hpage.1 hpage.2

/-- The `memmove` of a whole page. -/
theorem InUser.memmove_page (h : InUser L c cur d k) (hva : vaOk src ∧ vaOk dst)
    (hs : k.pageAt cur src = some s) (hsrc : UserPte (k.entryAt cur src) false)
    (ht : k.pageAt cur dst = some t) (hdst : UserPte (k.entryAt cur dst) true) (hne : s ≠ t) :
    ∃ k', memmove c dst src pgsize k = .ret () k' ∧ Copied L k t s k' := by
  have hstructural := h.mem.phys.tables.unshared.page_not_structural ht
  have aligned : src.toNat % 4096 = 0 ∧ dst.toNat % 4096 = 0 := by
    rw [← pgoff_eq, ← pgoff_eq]
    exact ⟨hva.1.2, hva.2.2⟩
  refine ⟨_, memmove_run h.cr3 (Nat.le_refl pgsize) (h.userPage hva.1.1 hs hsrc)
    (h.userPage hva.2.1 ht hdst) aligned (h.mem.plain h.dir ht) hne, ⟨rfl, ?_⟩,
    fun e i j => ?_, fun off hoff => ?_, fun f hf => ?_, fun n hn => hn.congr rfl rfl⟩
  · exact h.mem.phys.setPage (h.mem.phys.tables.owned _ t ht) hstructural _
  · refine Phys.pteAt_congr fun p hp => k.phys.mem_setPage_of_ne _ ?_
    rintro rfl
    exact hstructural hp
  · rw [Phys.copied, Phys.setPage]
    dsimp only
    rw [Function.update_self, if_pos hoff]
  · exact k.phys.mem_setPage_of_ne _ hf

theorem Copied.target (h : Copied L k t s k') (e : EnvIdx) (i j : Idx) :
    k'.phys.target k'.dirs (.pte e i j) = k.phys.target k.dirs (.pte e i j) :=
  congrArg entryFrame (h.pte e i j)

end Memmove

/-- What a call leaves of the environment that makes it. -/
theorem MemInv.Ends.executes (h : Ends L k k') (hx : k.Executes c e d) : k'.Executes c e d := by
  rw [h.1]
  exact ⟨hx.unlocked, hx.cpu, hx.running, hx.pgdir⟩

/-- User code allocates a page for itself. -/
theorem Kernel.Executes.allocs {n : Nat} (h : k.Executes c cur d) (hmem : MemInv L k) (hva : vaOk va)
    (hperm : permOk perm) (room : k.phys.FreePages (n + 2)) :
    ∃ k₁ k' g, MemInv.Edited L (k.setTf cur (callFrame .pageAlloc 0 va perm 0 0)) cur (pdx va)
        (ptx va) (mkPte g perm) k₁ ∧ g < 1048576 ∧ k.phys.Listed g ∧ k₁.phys.FreePages n ∧
      Step k (.trap c (callFrame .pageAlloc 0 va perm 0 0) 0 0) k' ∧ k₁.Like k' := by
  let tf := callFrame .pageAlloc 0 va perm 0 0
  have hlive : (k.setTf cur tf).status cur ≠ .free := by
    rw [Kernel.setTf_status, h.running]
    decide
  obtain ⟨r, k₁, hrun, ⟨-, hnone⟩ | ⟨-, ⟨g, hlisted, hlt, -, hedit⟩, hleft⟩⟩ :=
    hmem.setTf.sysPageAlloc_total hlive (Kernel.envid2env_zero true) hva hperm
  · exact absurd (Phys.FreePages.mono room (by omega)) hnone
  have hsys : syscall c cur 0 (SysCall.pageAlloc).number 0 va perm 0 0 (k.setTf cur tf) =
      .ret r k₁ := by
    rw [syscall, SysCall.ofNumber_number]
    exact hrun
  obtain ⟨k', hstep, hlike⟩ :=
    h.returns hsys (hedit.ends.executes ((Kernel.Like.setTf k cur tf).executes h))
  exact ⟨k₁, k', g, hedit, hlt, hlisted, hleft n room, hstep, hlike⟩

end Jos
