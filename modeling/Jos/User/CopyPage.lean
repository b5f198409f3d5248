import Jos.User.FaultRecord
import Jos.User.ForkRun

/-!
# A page for a copy-on-write page

The kernel starts the upcall with a record on the exception stack, and `pgfault` gives the
environment a copy of the page. What follows is a store to a page that nobody else has.
-/

namespace Jos

open Prog

variable {L : Layout} {k k' : Kernel} {c d f f' : Nat} {cur e : EnvIdx} {i j : Idx} {va : Word}

/-- The page `f` of the environment has been replaced by the copy `f'`. -/
structure PageCopied (L : Layout) (k : Kernel) (cur : EnvIdx) (i j : Idx) (f f' : Nat)
    (k' : Kernel) : Prop where
  ends : MemInv.Ends L k k'
  own : k'.pte cur i j = mkPte f' stackPerm
  sole : k'.mappings f' = {(cur, i, j)}
  temp : k'.pte cur tempPde tempPte = 0
  rest : ∀ e i' j', ¬ (e = cur ∧ i' = i ∧ j' = j) → ¬ (e = cur ∧ i' = tempPde ∧ j' = tempPte) →
    k'.pte e i' j' = k.pte e i' j'
  bytes : ∀ off < 4096, k'.phys.mem f' off = k.phys.mem f off
  mem : ∀ e i' j' p, ¬ (e = cur ∧ i' = i ∧ j' = j) → ¬ (e = cur ∧ i' = tempPde ∧ j' = tempPte) →
    k.phys.target k.dirs (.pte e i' j') = some p → k'.phys.mem p = k.phys.mem p
  free : ∀ n, k.phys.FreePages (n + 3) → k'.phys.FreePages n

theorem vaOk_rounddown (hva : va < utop) : vaOk (rounddown va) := by
  refine ⟨(pdx_lt_iff _).mp ?_, ?_⟩
  · rw [pdx_rounddown]
    exact (pdx_lt_iff _).mpr hva
  · rw [pgoff_eq]
    exact (rounddown_le va).2.2

theorem copyPage_spec (h : InUser L c cur d k) (hva : va < utop)
    (hne : ¬ (pdx va = tempPde ∧ ptx va = tempPte)) (hf : k.pageAt cur va = some f)
    (hread : UserPte (k.entryAt cur va) false) :
    wp (copyPage c cur va) (fun _ k' => ∃ f', PageCopied L k cur (pdx va) (ptx va) f f' k')
      (fun _ _ => ¬ k.phys.FreePages 3) (fun _ => False) k := by
  have hround := vaOk_rounddown hva
  have hround' : ∀ k : Kernel, k.pageAt cur (rounddown va) = k.pageAt cur va := fun k => by
    rw [Kernel.pageAt, pdx_rounddown, ptx_rounddown, Kernel.pageAt]
  have htemp : vaOk pftemp := by decide
  have hperm : permOk stackPerm := by decide
  have hslot : ¬ (cur = cur ∧ pdx va = tempPde ∧ ptx va = tempPte) := fun heq => hne heq.2
  have hslot' : ¬ (cur = cur ∧ tempPde = pdx va ∧ tempPte = ptx va) := fun heq =>
    hne ⟨heq.2.1.symm, heq.2.2.symm⟩
  have hnone : entryFrame 0 = none := entryFrame_zero
  -- a new page at `PFTEMP`
  obtain ⟨r, k₁, hrun, hres⟩ := h.mem.sysPageAlloc_total h.used h.self htemp hperm
  rw [copyPage, wp_bind, wp_ret sysGetenvid_run, wp_bind, wp_ret (call_ret hrun), wp_bind, wp_check]
  obtain ⟨rfl, hroom⟩ | ⟨rfl, ⟨f', hlisted, hf', -, hedit⟩, hless⟩ := hres
  · exact ⟨fun _ hfree => hroom (hfree.mono (by decide)), fun hneg => absurd hneg (by decide)⟩
  refine ⟨fun hneg => absurd hneg (by decide), fun _ => ?_⟩
  have h₁ := hedit.ends.inUser h
  have hself₁ := (hedit.ends.envid2env true).trans h.self
  have hsole := hedit.sole h.mem hlisted hf' (by decide)
  have htemp₁ : k₁.pageAt cur pftemp = some f' :=
    Kernel.mem_mappings.mp (hsole ▸ Set.mem_singleton _)
  have hpage₁ : k₁.pageAt cur (rounddown va) = some f :=
    (hround' k₁).trans ((hedit.target hslot).trans hf)
  have hread₁ : UserPte (k₁.entryAt cur (rounddown va)) false := by
    have hsame : k₁.entryAt cur (rounddown va) = k.entryAt cur va := by
      rw [Kernel.entryAt, pdx_rounddown, ptx_rounddown]
      exact hedit.rest _ _ _ hslot
    rwa [hsame]
  have hwrite₁ : UserPte (k₁.entryAt cur pftemp) true := by
    rw [show k₁.entryAt cur pftemp = mkPte f' stackPerm from hedit.self]
    exact stackPerm_user f'
  have hdiff : f ≠ f' := by
    rintro rfl
    exact h.mem.phys.listed_fresh hlisted _ hf
  -- it gets the contents of the old page
  obtain ⟨k₂, hrun₂, hcopied⟩ := h₁.memmove_page ⟨hround, htemp⟩ hpage₁ hread₁ htemp₁ hwrite₁ hdiff
  rw [wp_bind, wp_ret hrun₂]
  have h₂ := hcopied.ends.inUser h₁
  have hself₂ := (hcopied.ends.envid2env true).trans hself₁
  have hpage₂ : k₂.phys.target k₂.dirs (.pte cur (pdx va) (ptx va)) = some f :=
    (hcopied.target _ _ _).trans ((hedit.target hslot).trans hf)
  -- and its place
  obtain ⟨k₃, hrun₃, hedit₃, hfree₃⟩ := h₂.mem.sysPageUnmap_total h₂.used hself₂ hround
    ((hround' k₂).trans hpage₂)
  rw [wp_bind, wp_ret (call_ret hrun₃), wp_bind, wp_check]
  refine ⟨fun hneg => absurd hneg (by decide), fun _ => ?_⟩
  rw [pdx_rounddown, ptx_rounddown] at hedit₃
  have h₃ := hedit₃.ends.inUser h₂
  have hself₃ := (hedit₃.ends.envid2env true).trans hself₂
  have hsole₃ : k₃.mappings f' = {(cur, tempPde, tempPte)} := by
    rw [← hsole]
    ext ⟨e, i, j⟩
    rw [Kernel.mem_mappings, Kernel.mem_mappings, ← hcopied.target]
    by_cases hold : e = cur ∧ i = pdx va ∧ j = ptx va
    · obtain ⟨rfl, rfl, rfl⟩ := hold
      rw [Kernel.target_pte, hedit₃.self, hnone, hpage₂]
      simpa using hdiff
    · rw [hedit₃.target hold]
  have htemp₃ : k₃.pageAt cur pftemp = some f' :=
    Kernel.mem_mappings.mp (hsole₃ ▸ Set.mem_singleton _)
  have hwrite₃ : UserPte (k₃.entryAt cur pftemp) true := by
    have hsame : k₃.entryAt cur pftemp = k₁.entryAt cur pftemp := by
      refine Eq.trans ?_ (hcopied.pte _ _ _)
      exact hedit₃.rest _ _ _ hslot'
    rwa [hsame]
  obtain ⟨r, k₄, hrun₄, hres₄⟩ := h₃.mem.sysPageMap_total hself₃ hself₃ ⟨h₃.used, h₃.used⟩
    ⟨htemp, hround⟩ (show permOk (pteP ||| pteU ||| pteW) by decide) htemp₃
    (fun _ => hwrite₃.2 rfl) (.inr (h₃.mem.ref_of_sole hsole₃))
  rw [wp_bind, wp_ret (call_ret hrun₄), wp_bind, wp_check]
  obtain ⟨rfl, hroom⟩ | ⟨rfl, hedit₄, hless₄⟩ := hres₄
  · refine ⟨fun _ hfree => hroom (hfree₃ 1 (hcopied.free 1 (hless 1 hfree))), fun hneg => ?_⟩
    exact absurd hneg (by decide)
  refine ⟨fun hneg => absurd hneg (by decide), fun _ => ?_⟩
  rw [pdx_rounddown, ptx_rounddown] at hedit₄
  have h₄ := hedit₄.ends.inUser h₃
  have hself₄ := (hedit₄.ends.envid2env true).trans hself₃
  have htemp₄ : k₄.pageAt cur pftemp = some f' := (hedit₄.target hslot').trans htemp₃
  obtain ⟨k₅, hrun₅, hedit₅, hfree₅⟩ := h₄.mem.sysPageUnmap_total h₄.used hself₄ htemp htemp₄
  rw [wp_bind, wp_ret (call_ret hrun₅), wp_check]
  refine ⟨fun hneg => absurd hneg (by decide), fun _ => ⟨f', ?_⟩⟩
  have hrest : ∀ e i j, ¬ (e = cur ∧ i = pdx va ∧ j = ptx va) →
      ¬ (e = cur ∧ i = tempPde ∧ j = tempPte) → k₅.pte e i j = k.pte e i j := by
    intro e i j hold ht
    rw [hedit₅.rest e i j ht, hedit₄.rest e i j hold, hedit₃.rest e i j hold, hcopied.pte,
      hedit.rest e i j ht]
  have hown : k₅.pte cur (pdx va) (ptx va) = mkPte f' stackPerm := by
    rw [hedit₅.rest _ _ _ hslot, hedit₄.self]
    rfl
  have hmem₅ : ∀ {e i j p}, ¬ (e = cur ∧ i = pdx va ∧ j = ptx va) →
      k₂.phys.target k₂.dirs (.pte e i j) = some p → k₅.phys.mem p = k₂.phys.mem p := by
    intro e i j p hold hp
    have hp₃ := (hedit₃.target hold).trans hp
    rw [hedit₅.mem e i j p ((hedit₄.target hold).trans hp₃), hedit₄.mem e i j p hp₃,
      hedit₃.mem e i j p hp]
  refine ⟨(((hedit.ends.trans hcopied.ends).trans hedit₃.ends).trans hedit₄.ends).trans hedit₅.ends,
    hown, ?_, hedit₅.self, hrest, fun off hoff => ?_, fun e i j p hold ht hp => ?_, fun n hn =>
      hfree₅ n (hless₄ n (hfree₃ _ (hcopied.free _ (hless (n + 1) hn))))⟩
  · rw [Set.eq_singleton_iff_unique_mem]
    refine ⟨?_, ?_⟩
    · rw [Kernel.mem_mappings, Kernel.target_pte, hown, entryFrame_mkPte hf' (by decide)]
    · rintro ⟨e, i, j⟩ hmap
      by_contra hother
      rw [Prod.mk.injEq, Prod.mk.injEq] at hother
      rw [Kernel.mem_mappings] at hmap
      by_cases ht : e = cur ∧ i = tempPde ∧ j = tempPte
      · obtain ⟨rfl, rfl, rfl⟩ := ht
        rw [Kernel.target_pte, hedit₅.self, hnone] at hmap
        simp at hmap
      · rw [Kernel.target_pte, hrest e i j hother ht] at hmap
        exact h.mem.phys.listed_fresh hlisted (.pte e i j) hmap
  · rw [hmem₅ hslot' ((hcopied.target cur _ _).trans htemp₁), hcopied.bytes off hoff,
      hedit.mem _ _ _ _ hf]
  · have hp₁ := (hedit.target ht).trans hp
    have hne' : p ≠ f' := by
      rintro rfl
      exact h.mem.phys.listed_fresh hlisted _ hp
    rw [hmem₅ hold ((hcopied.target e i j).trans hp₁), hcopied.mem p hne', hedit.mem e i j p hp]

/-! ### The upcall -/

/-- Stores to one page. -/
theorem kernelStores_page {p q : Phys} {bytes : List Byte} {g : Nat}
    (h : kernelStores d va bytes p = .ret () q)
    (page : ∀ n < bytes.length, ∃ pde pte, p.translate d (va + BitVec.ofNat 32 n) = some (pde, pte) ∧
      pgnum pte = g) (plain : p.Plain d g) : ∃ m, q = p.setPage g m := by
  induction bytes generalizing va p with
  | nil =>
      refine ⟨p.mem g, ?_⟩
      rw [← (Outcome.ret.inj h).2]
      simp [Phys.setPage]
  | cons b bytes ih =>
      obtain ⟨pde, pte, walk, hg⟩ := page 0 (by simp)
      rw [show va + BitVec.ofNat 32 0 = va from BitVec.add_zero va] at walk
      have hplain : p.Plain d (pgnum pte) := hg.symm ▸ plain
      rw [kernelStores] at h
      by_cases hdenied : pde &&& pteW = 0 ∨ pte &&& pteW = 0
      · have hpanic : kernelStore d va b p = .panic .kernelFault := by
          rw [kernelStore, get_bind, walk]
          dsimp only
          rw [if_pos hdenied]
          rfl
        rw [bind_panic _ hpanic] at h
        cases h
      · have hstore : kernelStore d va b p = .ret () (p.setByte (pgnum pte) (pgoff va) b) := by
          rw [kernelStore, get_bind, walk]
          dsimp only
          rw [if_neg hdenied]
          rfl
        have hstores := Phys.Stores.setByte hplain (pgoff va) b
        rw [bind_ret _ hstore] at h
        have hnext : ∀ n < bytes.length, ∃ pde' pte',
            (p.setByte (pgnum pte) (pgoff va) b).translate d (va + 1 + BitVec.ofNat 32 n) =
              some (pde', pte') ∧ pgnum pte' = g := by
          intro n hn
          rw [hstores.translate, add_one_add_ofNat]
          exact page (n + 1) (by simpa using hn)
        obtain ⟨m, rfl⟩ := ih h hnext (hstores.plain.mpr plain)
        exact ⟨m, by simp only [hg, Phys.setByte, Phys.setPage, Function.update_idem]⟩

theorem Kernel.entry_present (hf : k.pageAt cur va = some f) : k.entryAt cur va &&& pteP ≠ 0 := by
  intro hz
  change entryFrame (k.entryAt cur va) = some f at hf
  rw [entryFrame, if_neg (not_not.mpr hz)] at hf
  simp at hf

/-- The byte is on the exception stack. -/
def OnStack (va : Word) : Prop := pdx va = stackPde ∧ ptx va = stackPte

theorem onStack_iff : OnStack va ↔ va.toNat / 4096 = 977919 := by
  have hi : stackPde.val = 954 := by decide
  have hj : stackPte.val = 1023 := by decide
  rw [OnStack, Fin.ext_iff, Fin.ext_iff, pdx_val, ptx_val, hi, hj]
  have hlt := va.isLt
  omega

namespace InUser

theorem entry (h : InUser L c cur d k) (hva : va < utop) (hf : k.pageAt cur va = some f) :
    k.phys.HasTable d va ∧ k.phys.entryAt d va = k.entryAt cur va := by
  obtain ⟨-, hp, hpde, -, hpte⟩ := h.mem.page_walk h.dir hva hf
  exact ⟨⟨hp, hpde.1⟩, hpte⟩

theorem entry_of_table (h : InUser L c cur d k) (hva : va < utop) (ht : k.phys.HasTable d va) :
    k.phys.entryAt d va = k.entryAt cur va := by
  have htable : k.phys.target k.dirs (.pde cur (pdx va)) =
      some (pgnum (k.phys.word d (pdx va))) := by
    rw [Phys.target, Phys.pdeAt_of_dir h.dir ((pdx_lt_iff va).mpr hva), entryFrame, if_pos ht.1]
  rw [Kernel.entryAt, Phys.pteAt_of_table htable, Phys.entryAt]

/-- Only present entries are marked copy-on-write. -/
theorem page_of_cow (h : InUser L c cur d k) (hcow : k.entryAt cur va &&& pteCow ≠ 0) :
    ∃ f, k.pageAt cur va = some f := by
  cases hf : k.pageAt cur va with
  | none =>
      rw [Kernel.entryAt, h.mem.phys.tables.clean _ _ _ hf] at hcow
      exact absurd rfl hcow
  | some f => exact ⟨f, rfl⟩

/-- A record on the exception stack passes `user_mem_assert`. -/
theorem record_allowed (h : InUser L c cur d k) (stack : k.StackWritable cur) {utf : Word}
    (fits : OnStack utf ∧ utf.toNat + 52 ≤ uxstacktop.toNat) :
    userMemCheck d utf utrapframeSize (pteU ||| pteW ||| pteP ||| pteU) k.phys =
      .ret none k.phys := by
  obtain ⟨⟨g, hg⟩, hpte⟩ := stack
  obtain ⟨-, hp, -, hlt, hentry⟩ := h.mem.page_walk h.dir (by decide) hg
  obtain ⟨r, hrun⟩ := userMemCheck_ret (p := k.phys) utf utrapframeSize
    (pteU ||| pteW ||| pteP ||| pteU) fun i hi => h.mem.table_lt h.dir hi
  have htop : uxstacktop.toNat = 4005560320 := by decide
  have hval : uxstack.toNat = 4005556224 := by decide
  have hbase := onStack_iff.mp fits.1
  have hend := fits.2
  rw [htop] at hend
  have hgranted : ∃ q, userMemCheck d utf utrapframeSize (pteU ||| pteW ||| pteP ||| pteU) k.phys =
      .ret none q := by
    refine (userMemCheck_none_iff _ _ _ _ _).mpr fun a haligned hlow hhigh => ?_
    -- there is only one page
    have ha : a = uxstack := by
      have hsize : utrapframeSize.toNat = 52 := by decide
      rw [BitVec.le_def, rounddown_toNat] at hlow
      rw [BitVec.lt_def, roundup_add_toNat (by omega), hsize] at hhigh
      apply BitVec.eq_of_toNat_eq
      omega
    have hP := and_twoPow_eq (i := 0) (Kernel.entry_present hg)
    have hW := and_twoPow_eq (i := 1) (hpte.2 rfl)
    have hU := and_twoPow_eq (i := 2) hpte.1
    have hneed : pteU ||| pteW ||| pteP ||| pteU ||| pteP ||| pteU =
      BitVec.twoPow 32 0 ||| BitVec.twoPow 32 1 ||| BitVec.twoPow 32 2 := by decide
    rw [ha]
    refine ⟨by decide, hp, hlt, ?_⟩
    rw [hentry, hneed]
    exact and_or_eq (and_or_eq hP hW) hU
  obtain ⟨q, hnone⟩ := hgranted
  cases hrun.symm.trans hnone
  exact hrun

end InUser

theorem Kernel.Like.sameMaps (h : k.Like k') : k.SameMaps k' :=
  ⟨h.phys, h.kernPgdir, h.envFreeList, h.field fun _ => rfl, h.field fun _ => rfl,
    h.field fun _ => rfl, h.field fun _ => rfl, fun e => by rw [h.status]⟩

/-- A page fault in user mode. The record fits on the exception stack. -/
structure UserFault (tf : Trapframe) : Prop where
  ring : tf.cs &&& 3 = 3
  trapno : tf.trapno = tPgflt
  record : OnStack (utrapframeAddr tf.esp) ∧ (utrapframeAddr tf.esp).toNat + 52 ≤ uxstacktop.toNat

/-- The upcall starts with the record on the exception stack, and nothing else has changed. -/
theorem InUser.upcall (h : InUser L c cur d k) (hx : k.Executes c cur d) {tf : Trapframe} {g : Nat}
    (upcall : (k.envs cur).pgfaultUpcall ≠ 0) (hg : k.pageAt cur uxstack = some g)
    (stack : k.StackWritable cur) (fault : UserFault tf) (cr2 input : Word) :
    ∃ m k', trap c tf cr2 input k = .exit () k' ∧
      (∀ i < 52, k'.phys.byteAt d (utrapframeAddr tf.esp + BitVec.ofNat 32 i) =
        (utrapframe tf cr2)[i]?) ∧
      ({ k with phys := k.phys.setPage g m } : Kernel).Like k' ∧
      (k'.envs cur).tf =
        { tf with eip := (k.envs cur).pgfaultUpcall, esp := utrapframeAddr tf.esp } ∧
      ∀ off, (∀ i < 52, off ≠ pgoff (utrapframeAddr tf.esp + BitVec.ofNat 32 i)) →
        m off = k.phys.mem g off := by
  have hdelivers : Delivers k c cur d tf := by
    refine h.mem.delivers hx.own ?_ h.dir h.cr3 upcall fault.ring fault.trapno ?_
    · rw [hx.running]
      decide
    · exact h.record_allowed stack fault.record
  obtain ⟨q, hstores, hq, hbytes, htrap⟩ := hdelivers.trap_run cr2 input
  have huser := (h.userPage_iff (by decide)).mpr ⟨hg, stack.2⟩
  have htop : uxstacktop.toNat = 4005560320 := by decide
  have hval : uxstack.toNat = 4005556224 := by decide
  have hbase := onStack_iff.mp fault.record.1
  have hend := fault.record.2
  obtain ⟨m, rfl⟩ := kernelStores_page hstores (fun n hn => by
    rw [utrapframe_length] at hn
    have hpage : (utrapframeAddr tf.esp + BitVec.ofNat 32 n).toNat / 4096 = uxstack.toNat / 4096 := by
      rw [BitVec.toNat_add, BitVec.toNat_ofNat]
      omega
    obtain ⟨pde, pte, walk, hpg, -⟩ := huser
    exact ⟨pde, pte, (Phys.translate_page hpage).trans walk, hpg⟩) (h.mem.plain h.dir hg)
  refine ⟨m, _, htrap, fun i hi => ?_, ?_, Kernel.upcalled_tf, fun off hoff => ?_⟩
  · rw [Kernel.upcalled_phys]
    exact hbytes i hi
  · have hx' : ({ k with phys := k.phys.setPage g m } : Kernel).Executes c cur d :=
      ⟨hx.unlocked, hx.cpu, hx.running, hx.pgdir⟩
    have hlike : ({ k with phys := k.phys.setPage g m } : Kernel).Like
        (({ k.setTf cur tf with phys := k.phys.setPage g m } : Kernel).setTf cur
          { tf with eip := (k.envs cur).pgfaultUpcall, esp := utrapframeAddr tf.esp }) :=
      .trans (.setTf _ cur tf) (.setTf _ cur _)
    exact hlike.trans (.ran (hlike.executes hx'))
  · have hsame := hq.mem g off fun ⟨i, hi, heq⟩ => hoff i hi heq
    have hself : (k.phys.setPage g m).mem g = m := by simp [Phys.setPage]
    rwa [hself] at hsame

end Jos
