import Jos.Boot.Arrays
import Jos.Kernel.Contract
import Jos.Kernel.Inbox
import Jos.Safety.Family

/-!
# Calls of `sys_ipc_try_send`

When the system call keeps the contract in its header comment, and a call that does not. The
sender is the parent of `Family`, and the receiver its child.
-/

namespace Jos

open Prog

/-- `sys_ipc_try_send` keeps its contract exactly if the call does not go wrong. -/
theorem send_contract_iff {L : Layout} {k : Kernel} {cur : EnvIdx} {envid value srcva perm : Word}
    (h : MemInv L k) (hcur : k.status cur ≠ .free) :
    MeetsContract k cur envid value srcva perm ↔ ¬ k.SendGoesWrong cur envid srcva perm where
  mp contract wrong := h.contract_broken hcur wrong contract
  mpr right :=
    { badEnv := sysIpcTrySend_noEnv
      notRecv := fun _ => sysIpcTrySend_idle
      invalid := fun _ => h.contract_invalid hcur right
      noMem := fun _ => h.contract_noMem hcur
      success := fun _ => h.contract_success hcur right }

/-- The child waits for a page, and the parent sends it one. -/
theorem send_contract_iff_qemu : ∃ k₀ k k' f, Booted qemu [intProgram] k₀ ∧ Run SafeStep k₀ k ∧
    MeetsContract k 0 0x1001 7 0x800000 (pteU ||| pteP) ∧
    sysIpcTrySend 0 0x1001 7 0x800000 (pteU ||| pteP) k = .ret 0 k' ∧
    k'.status 1 = .runnable ∧ (k'.envs 1).ipcValue = 7 ∧ k.pageAt 0 0x800000 = some f ∧
    k'.phys.pteAt k.dirs 1 (pdx 0x800000) (ptx 0x800000) = mkPte f (pteU ||| pteP) := by
  obtain ⟨k₀, k, d, d', hbooted, hclean, hfamily, hrecv, hdstva, hfree, -⟩ := qemu_awaits
  have hrun : Run SafeStep k₀ k := hclean.mono fun _ _ h => h.safe
  obtain ⟨L, -, -, hmem, -⟩ := hbooted.run hrun
  have hlive : k.status 0 ≠ .free := by
    rw [hfamily.parent.running]
    decide
  obtain ⟨f, -, hpage⟩ := hfamily.mapped
  have htarget : k.envid2env 0 0x1001 false = some 1 := hfamily.target (by decide) false
  have haligned : ¬ pgoff 0x800000 ≠ 0 := by decide
  have hwrite : ¬ (pteU ||| pteP) &&& pteW ≠ 0 := by decide
  have hcontract : MeetsContract k 0 0x1001 7 0x800000 (pteU ||| pteP) := by
    refine (send_contract_iff hmem hlive).mpr ?_
    rintro ⟨dst, target, -, ⟨hva, -⟩ | ⟨-, hoff | hnone | ⟨hdst, -⟩⟩⟩
    · exact absurd hva (by decide)
    · exact haligned hoff
    · exact absurd (hpage.symm.trans hnone) (by simp)
    · obtain rfl : 1 = dst := Option.some.inj (htarget.symm.trans target)
      rw [hdstva] at hdst
      exact absurd hdst (by decide)
  obtain ⟨k', hsend, hreceived⟩ := hcontract.success 1 htarget hrecv
    (by
      rintro ⟨-, hoff | hperm | hnone | ⟨hw, -⟩⟩
      · exact haligned hoff
      · exact hperm ⟨by decide, by decide⟩
      · exact absurd (hpage.symm.trans hnone) (by simp)
      · exact hwrite hw)
    (by
      rintro ⟨-, -, hnone⟩
      obtain ⟨g, head⟩ := hfree.head
      exact absurd (head.symm.trans hnone) (by simp))
  obtain ⟨g, hg, hedits⟩ := hreceived.page ⟨by decide, by rw [hdstva]; decide⟩
  obtain rfl : f = g := Option.some.inj (hpage.symm.trans hg)
  rw [hdstva] at hedits
  exact ⟨k₀, k, k', f, hbooted, hrun, hcontract, hsend, hreceived.status, hreceived.value, hpage,
    hedits.pteAt_self⟩

/-- The child waits, and the parent sends the page at `0x800001`, which is no page address. -/
theorem send_unaligned : ∃ k₀ k, Booted qemu [intProgram] k₀ ∧ Run SafeStep k₀ k ∧
    (k.envs 1).ipcRecving = true ∧ k.SendInvalid 0 0x800001 (pteU ||| pteP) ∧
    ¬ MeetsContract k 0 0x1001 7 0x800001 (pteU ||| pteP) := by
  obtain ⟨k₀, k, d, d', hbooted, hrun, hfamily, hrecv⟩ := qemu_waits
  obtain ⟨L, -, -, hmem, -⟩ := hbooted.run hrun
  have hlive : k.status 0 ≠ .free := by
    rw [hfamily.parent.running]
    decide
  obtain ⟨f, hlt, hentry⟩ := hfamily.page
  have hpage : k.pageAt 0 0x800001 = some f := by
    rw [Kernel.pageAt, Phys.target, show pdx 0x800001 = 2 by decide,
      show ptx 0x800001 = 0 by decide, hentry, entryFrame_mkPte hlt (by decide)]
  have hoff : pgoff 0x800001 ≠ 0 := by decide
  refine ⟨k₀, k, hbooted, hrun, hrecv.1, ⟨by decide, .inl hoff⟩,
    hmem.contract_broken hlive ⟨1, hfamily.target (by decide) false, hrecv.1,
      .inr ⟨⟨by decide, by decide, Kernel.table_of_page hpage, ?_⟩, .inl hoff⟩⟩⟩
  exact fun hwrite => absurd (by decide) hwrite

/-- The parent of `Family` sends a message to its child. -/
def sendEvent (value srcva perm : Word) : Event :=
  .trap 0 (callFrame .ipcTrySend 0x1001 value srcva perm 0) 0 0

section Sends

variable {L : Layout} {k k' k₁ k₂ : Kernel} {d d' n f : Nat} {st : EnvStatus} {q : Phys}
  {value srcva perm : Word}

theorem sendEvent_calls : (sendEvent value srcva perm).frame.Calls .ipcTrySend :=
  callFrame_calls .ipcTrySend 0x1001 value srcva perm 0

theorem Kernel.Like.delivered (h : k.Like k') (e : EnvIdx) (srcid value : Word) :
    (k.delivered e srcid value).Like (k'.delivered e srcid value) := by
  refine h.setEnv ?_
  exact congrArg (fun env : Env => { env with
    ipcRecving := false
    ipcFrom := srcid
    ipcValue := value
    status := .runnable }) (h.envs e)

theorem Kernel.Like.sent (h : k.Like k') (e : EnvIdx) (srcid value perm : Word) :
    (k.sent e srcid value perm).Like (k'.sent e srcid value perm) := by
  refine .delivered (h.setEnv ?_) e srcid value
  exact congrArg (fun env : Env => { env with ipcPerm := perm }) (h.envs e)

namespace Family

theorem setPhys (h : Family d d' n st k)
    (page : ∃ f < 1048576, q.pteAt k.dirs 0 2 0 = mkPte f (pteU ||| pteW)) :
    Family d d' n st { k with phys := q } :=
  ⟨⟨h.parent.unlocked, h.parent.cpu, h.parent.running, h.parent.pgdir⟩, h.parentId, h.childId,
    h.childParent, h.pgdir, h.child, h.others, h.cpus, page⟩

theorem delivered (h : Family d d' n st k) (srcid value : Word) :
    Family d d' n .runnable (k.delivered 1 srcid value) :=
  h.setChild h.childId h.childParent h.pgdir rfl

theorem sent (h : Family d d' n st k) (srcid value perm : Word) :
    Family d d' n .runnable (k.sent 1 srcid value perm) := by
  have hperm : Family d d' n st (k.setEnv 1 { k.envs 1 with ipcPerm := perm }) :=
    h.setChild h.childId h.childParent h.pgdir h.child
  exact hperm.delivered srcid value

/-- A message gets through. -/
theorem sends (h : Family d d' n st k) (live : st ≠ .free)
    (hsend : sysIpcTrySend 0 0x1001 value srcva perm
      (k.setTf 0 (sendEvent value srcva perm).frame) = .ret 0 k₂)
    (hlike : k₁.Like k₂) (hx : k₁.Executes 0 0 d) :
    ∃ k', Step k (sendEvent value srcva perm) k' ∧
      k.Sends (sendEvent value srcva perm) 0 ⟨1, 0x1000, value, srcva, perm⟩ ∧ k₁.Like k' := by
  have hsys : syscall 0 0 0 (SysCall.ipcTrySend).number 0x1001 value srcva perm 0
      (k.setTf 0 (callFrame .ipcTrySend 0x1001 value srcva perm 0)) = .ret 0 k₂ := by
    rw [syscall, SysCall.ofNumber_number]
    exact hsend
  obtain ⟨k', hstep, hlike'⟩ := h.parent.returns hsys (hlike.executes hx)
  have halive : k.status 0 ≠ .dying := by
    rw [h.parent.running]
    decide
  exact ⟨k', hstep, ⟨h.parent.own, halive, sendEvent_calls, h.target live false, h.parentId.symm,
    rfl, rfl, rfl, k₂, hsend⟩, hlike.trans hlike'⟩

/-- The message brings the page `f`. -/
theorem sendsPage (h : Family d d' n .notRunnable k) (hmem : MemInv L k)
    (hrecv : (k.envs 1).ipcRecving = true) (hpage : k.pageAt 0 0x800000 = some f)
    (hinsert : pageInsert d' f (k.envs 1).ipcDstva (pteU ||| pteP) k.phys = .ret 0 q) :
    ∃ k', Step k (sendEvent 7 0x800000 (pteU ||| pteP)) k' ∧
      k.Sends (sendEvent 7 0x800000 (pteU ||| pteP)) 0 ⟨1, 0x1000, 7, 0x800000, pteU ||| pteP⟩ ∧
      (({ k with phys := q } : Kernel).sent 1 0x1000 7 (pteU ||| pteP)).Like k' := by
  let tf := (sendEvent 7 0x800000 (pteU ||| pteP)).frame
  have h₁ : Family d d' n .notRunnable (k.setTf 0 tf) := h.setTf
  have hlike : Kernel.Like { k with phys := q } { k.setTf 0 tf with phys := q } :=
    .setTf { k with phys := q } 0 tf
  have hlive : (k.setTf 0 tf).status 0 ≠ .free := by
    rw [h₁.parent.running]
    decide
  have hrecv₁ : ((k.setTf 0 tf).envs 1).ipcRecving = true :=
    (Kernel.setEnv_field (f := Env.ipcRecving) (by rfl) 1).trans hrecv
  have hpage₁ : (k.setTf 0 tf).pageAt 0 0x800000 = some f := by
    rw [Kernel.pageAt_setTf, hpage]
  have hchecks : (k.setTf 0 tf).PassesChecks 0 0x800000 (pteU ||| pteP) :=
    ⟨by decide, by decide, Kernel.table_of_page hpage₁, fun hw => absurd (by decide) hw⟩
  have hdst : ((k.setTf 0 tf).envs 1).ipcDstva = (k.envs 1).ipcDstva :=
    Kernel.setEnv_field (f := Env.ipcDstva) (by rfl) 1
  have hrun : sysIpcTrySend 0 0x1001 7 0x800000 (pteU ||| pteP) (k.setTf 0 tf) = .ret 0
      (({ k.setTf 0 tf with phys := q } : Kernel).sent 1 0x1000 7 (pteU ||| pteP)) := by
    rw [hmem.setTf.send_found hlive (h₁.target (by decide) false) hrecv₁ hchecks hpage₁, hdst,
      h₁.parentId]
    exact sendPage_done (insertInto_ret h₁.pgdir hinsert) (by decide)
  have hne : ∀ (k₁ : Kernel) id, (k₁.sent 1 id 7 (pteU ||| pteP)).envs 0 = k₁.envs 0 := by
    intro k₁ id
    rw [Kernel.sent, Kernel.delivered, Kernel.setEnv_envs_of_ne _ (by decide),
      Kernel.setEnv_envs_of_ne _ (by decide)]
  refine h.sends (by decide) hrun (hlike.sent 1 0x1000 7 (pteU ||| pteP)) ?_
  refine ⟨h.parent.unlocked, h.parent.cpu, ?_, ?_⟩
  · rw [Kernel.status, hne]
    exact h.parent.running
  · rw [hne]
    exact h.parent.pgdir

/-- It brings no page. -/
theorem sendsValue (h : Family d d' n .notRunnable k) (hmem : MemInv L k)
    (hrecv : (k.envs 1).ipcRecving = true) (hva : utop ≤ srcva)
    (hexists : k.phys.LookupExists d srcva) :
    ∃ k', Step k (sendEvent value srcva perm) k' ∧
      k.Sends (sendEvent value srcva perm) 0 ⟨1, 0x1000, value, srcva, perm⟩ ∧
      (k.delivered 1 0x1000 value).Like k' := by
  let tf := (sendEvent value srcva perm).frame
  have h₁ : Family d d' n .notRunnable (k.setTf 0 tf) := h.setTf
  have hlive : (k.setTf 0 tf).status 0 ≠ .free := by
    rw [h₁.parent.running]
    decide
  have hrecv₁ : ((k.setTf 0 tf).envs 1).ipcRecving = true :=
    (Kernel.setEnv_field (f := Env.ipcRecving) (by rfl) 1).trans hrecv
  have hexists₁ : ∀ d', (k.setTf 0 tf).dirs 0 = some d' →
      (k.setTf 0 tf).phys.LookupExists d' srcva := by
    intro d' hd
    obtain rfl : d = d' := Option.some.inj (h₁.parent.pgdir.symm.trans hd)
    exact hexists
  obtain ⟨found, k₁, hlookup, rfl⟩ := exists_of_wp
    (hmem.setTf.lookupIn_total hlive (.inl hexists₁) (X := fun _ _ => False))
  have hrun : sysIpcTrySend 0 0x1001 value srcva perm (k.setTf 0 tf) =
      .ret 0 ((k.setTf 0 tf).delivered 1 0x1000 value) := by
    rw [sysIpcTrySend_value (h₁.target (by decide) false) hrecv₁ hva, bind_ret _ hlookup,
      h₁.parentId]
    exact ipcDeliver_run _
  refine h.sends (by decide) hrun ((Kernel.Like.setTf k 0 tf).delivered 1 0x1000 value) ?_
  exact (h.delivered 0x1000 value).parent

end Family

end Sends

section Unwanted

variable {L : Layout} {k₀ k : Kernel} {d d' f g t : Nat}

/-- What the kernel has mapped at `UTOP` is the first page of `envs[]`, in all address
spaces. -/
theorem Booted.utop_mapped (booted : Booted qemu [intProgram] k₀) (hsets : qemu.Sets L)
    (hmem₀ : MemInv L k₀) (hmem : MemInv L k) {e : EnvIdx} (hd : (k.envs e).pgdir = some d) :
    k.phys.word d (pdx utop) = k₀.phys.word qemu.kernPgdir (pdx utop) ∧
      k.phys.word d (pdx utop) &&& pteP ≠ 0 ∧ ¬ L.owned (pgnum (k.phys.word d (pdx utop))) ∧
      k₀.phys.word (pgnum (k.phys.word d (pdx utop))) (ptx utop) =
        mkPte qemu.envsAlloc.1 (pteU ||| pteP) ∧
      k.phys.word (pgnum (k.phys.word d (pdx utop))) (ptx utop) =
        mkPte qemu.envsAlloc.1 (pteU ||| pteP) := by
  obtain ⟨hpresent, hentry⟩ := booted.envs_mapped (by decide)
  obtain ⟨hpde, hpte⟩ := hmem₀.kernel_half hmem hd (BitVec.le_refl utop)
    (show pdx utop ≠ pdx uvpt by decide)
  rw [hsets.kern] at hpde
  rw [← hpde] at hpresent hentry
  obtain ⟨howned, hsame⟩ := hpte hpresent
  exact ⟨hpde, hpresent, howned, hentry, hsame.trans hentry⟩

/-- A reserved page `g` is mapped at `va`, and `f` is put in its place: the last reference to
`g` is gone. -/
theorem pageInsert_reserved {p : Phys} {va perm : Word} (hp : p.word d (pdx va) &&& pteP ≠ 0)
    (ht : pgnum (p.word d (pdx va)) = t) (htlt : t < p.npages) (hne : t ≠ d)
    (hentry : p.word t (ptx va) = mkPte g (pteU ||| pteP)) (hg : g < p.npages)
    (hgt : g < 1048576) (hpage : p.pages g = ⟨none, 1⟩) (hfg : f ≠ g) (hf : f < 1048576) :
    ∃ q, pageInsert d f va perm p = .ret 0 q ∧ q.word t (ptx va) = mkPte f perm ∧
      q.word d (pdx va) = p.word d (pdx va) ∧ q.Listed g ∧ q.ref g = 0 := by
  subst ht
  have hnum : pgnum (p.word (pgnum (p.word d (pdx va))) (ptx va)) = g := by
    rw [hentry, pgnum_mkPte hgt (by decide)]
  have hother : pteAddr (p.word (pgnum (p.word d (pdx va))) (ptx va)) ≠ page2pa f := by
    intro heq
    rw [pteAddr_eq, hnum, page2pa] at heq
    have hnat := congrArg BitVec.toNat heq
    rw [pageAddr_toNat hgt, pageAddr_toNat hf] at hnat
    omega
  have hlookup : pageLookup d va p = .ret (some _) p :=
    pageLookup_some hp htlt (by rw [hnum]; exact hg)
  rw [hnum] at hlookup
  have hremove := pageRemove_some hlookup (congrArg PageInfo.link hpage)
  have hlast : (p.setRef g (p.ref g - 1)).ref g = 0 := by
    have href : p.ref g = 1 := congrArg PageInfo.ref hpage
    rw [Phys.setRef_ref_self, href]
    decide
  have hdrop : p.drop g = { (p.setRef g (p.ref g - 1)).setLink g p.pageFreeList with
      pageFreeList := some g } := by
    rw [Phys.drop, if_pos hlast]
    rfl
  refine ⟨_, pageInsert_replace (pgdirWalk_found hp htlt true)
    (by rw [hentry]; exact mkPte_present _ _) hother hremove, ?_, ?_, ?_, ?_⟩
  · exact Phys.word_setWord_self _ _
  · refine (Phys.word_congr _ ?_).trans (p.word_congr (congrFun (Phys.Inv.drop_mem p g) d))
    exact (Phys.mem_setWord_of_ne _ _ hne.symm).trans (Phys.mem_setWord_of_ne _ _ hne.symm)
  · rw [Phys.Listed, hdrop, Phys.setRef_link]
    exact .here g
  · rw [hdrop, Phys.setRef_ref_of_ne _ _ hfg.symm]
    change ((p.setRef g (p.ref g - 1)).setLink g p.pageFreeList).ref g = 0
    rw [Phys.setLink_ref, hlast]

/-- The parent sends its page at `0x800000` to the child, which asked for none: the page takes
the place of the page `g` at `UTOP`. -/
theorem Family.sendsUnwanted (h : Family d d' 2 .notRunnable k) (hmem : MemInv L k)
    (hrecv : (k.envs 1).ipcRecving = true) (hdst : (k.envs 1).ipcDstva = utop)
    (hp : k.phys.word d' (pdx utop) &&& pteP ≠ 0) (ht : pgnum (k.phys.word d' (pdx utop)) = t)
    (howned : ¬ L.owned t) (hentry : k.phys.word t (ptx utop) = mkPte g (pteU ||| pteP))
    (hreserved : ¬ L.owned g) (hg : g < k.phys.npages) (hpage : k.phys.pages g = ⟨none, 1⟩) :
    ∃ k' f, Step k (sendEvent 7 0x800000 (pteU ||| pteP)) k' ∧
      L.owned f ∧ k'.phys.word d' (pdx utop) = k.phys.word d' (pdx utop) ∧
      k'.phys.word t (ptx utop) = mkPte f (pteU ||| pteP) ∧ k'.phys.Listed g ∧
      k'.phys.ref g = 0 ∧ (k'.envs 1).pgdir = some d' ∧ k'.status 1 = .runnable ∧
      (k'.envs 1).ipcPerm = pteU ||| pteP := by
  obtain ⟨f, hlt, hmapped⟩ := h.mapped
  have hfowned : L.owned f := hmem.phys.tables.owned _ f hmapped
  have hdowned : L.owned d' := hmem.phys.tables.dir_owned (e := 1) h.pgdir
  have hnpages := hmem.phys.npages_le
  obtain ⟨q, hinsert, hword, hdir, hlisted, href⟩ : ∃ q, pageInsert d' f utop (pteU ||| pteP)
      k.phys = .ret 0 q ∧ _ :=
    pageInsert_reserved hp ht (by rw [← ht]; exact hmem.table_lt h.pgdir hp)
      (fun heq => howned (heq ▸ hdowned)) hentry hg (by omega) hpage
      (fun heq => hreserved (heq ▸ hfowned)) hlt
  rw [← hdst] at hinsert
  obtain ⟨k', hstep, -, hlike⟩ := h.sendsPage hmem hrecv hmapped hinsert
  have hphys : k'.phys = q := hlike.phys
  refine ⟨k', f, hstep, hfowned, ?_, ?_, ?_, ?_, ?_, ?_, ?_⟩
  · rw [hphys]
    exact hdir
  · rw [hphys]
    exact hword
  · rw [hphys]
    exact hlisted
  · rw [hphys]
    exact href
  · rw [hlike.field (f := Env.pgdir) fun _ => rfl, ← h.pgdir]
    simp [Kernel.sent, Kernel.delivered]
  · rw [hlike.status]
    simp [Kernel.sent, Kernel.delivered, Kernel.status]
  · rw [hlike.field (f := Env.ipcPerm) fun _ => rfl]
    simp [Kernel.sent, Kernel.delivered]

/-- The child waits for a message without a page and gets one with a page. -/
theorem qemu_unwanted : ∃ k₀ k k' d d' f, Booted qemu [intProgram] k₀ ∧ Run SafeStep k₀ k ∧
    Family d d' 2 .notRunnable k ∧ (k.envs 1).ipcRecving = true ∧ (k.envs 1).ipcDstva = utop ∧
    Step k (sendEvent 7 0x800000 (pteU ||| pteP)) k' ∧
    (k'.envs 1).pgdir = some d' ∧ k'.status 1 = .runnable ∧
    (k'.envs 1).ipcPerm = pteU ||| pteP ∧
    k'.phys.word d' (pdx utop) = k₀.phys.word qemu.kernPgdir (pdx utop) ∧
    k'.phys.word (pgnum (k'.phys.word d' (pdx utop))) (ptx utop) = mkPte f (pteU ||| pteP) ∧
    k₀.phys.word (pgnum (k'.phys.word d' (pdx utop))) (ptx utop) =
      mkPte qemu.envsAlloc.1 (pteU ||| pteP) ∧ f ≠ qemu.envsAlloc.1 ∧ f < 1048576 ∧
    k₀.phys.ref qemu.envsAlloc.1 = 1 ∧ k'.phys.ref qemu.envsAlloc.1 = 0 ∧
    k'.phys.Listed qemu.envsAlloc.1 := by
  obtain ⟨k₀, k, d, d', hbooted, hrun, hfamily, hrecv, hdst⟩ := qemu_waits
  obtain ⟨L, hsets, hmem₀, hmem, -⟩ := hbooted.run hrun
  obtain ⟨hpde, hpresent, howned, hentry, hnow⟩ :=
    hbooted.utop_mapped hsets hmem₀ hmem hfamily.pgdir
  have hreserved : ¬ L.owned qemu.envsAlloc.1 := fun ho =>
    qemu.arrays_not_free (by decide) (by decide) (hsets.owned _ ho)
  have hlt : qemu.envsAlloc.1 < qemu.npages := by decide
  have hboot := hsets.reserved _ hlt (qemu.arrays_not_free (by decide) (by decide))
  have hpage : ∀ k₁, MemInv L k₁ → k₁.phys.pages qemu.envsAlloc.1 = ⟨none, 1⟩ := fun k₁ h₁ =>
    (h₁.phys.counts.frozen _ hreserved).trans hboot
  have hnpages : k.phys.npages = qemu.npages := hmem.phys.npages.trans hsets.npages
  obtain ⟨k', f, hstep, hf, hdir, hword, hlisted, href, hpgdir, hstatus, hperm⟩ :=
    hfamily.sendsUnwanted hmem hrecv hdst hpresent rfl howned hnow hreserved
      (by rw [hnpages]; exact hlt) (hpage k hmem)
  have hflt := hmem.phys.lt_npages hf
  have hle := hmem.phys.npages_le
  rw [← hdir] at hword hpde hentry
  exact ⟨k₀, k, k', d, d', f, hbooted, hrun, hfamily, hrecv, hdst, hstep, hpgdir, hstatus, hperm,
    hpde, hword, hentry, fun heq => hreserved (heq ▸ hf), by omega,
    congrArg PageInfo.ref (hpage k₀ hmem₀), href, hlisted⟩

/-- The page of `envs[]` at `UTOP` has been replaced, in all address spaces, and is free. -/
theorem kernel_half_changed : ∃ k₀ k d, Booted qemu [intProgram] k₀ ∧
    Run (fun _ _ => True) k₀ k ∧ k.status 1 ≠ .free ∧ (k.envs 1).pgdir = some d ∧
    k.phys.word d (pdx utop) &&& pteP ≠ 0 ∧
    k.phys.word (pgnum (k.phys.word d (pdx utop))) (ptx utop) ≠
      k₀.phys.word (pgnum (k.phys.word d (pdx utop))) (ptx utop) ∧
    ∃ f, qemu.pagesAlloc.1 ≤ f ∧ f < qemu.firstFree ∧ k.phys.ref f ≠ k₀.phys.ref f ∧
      k.phys.Listed f := by
  obtain ⟨k₀, k, k', d, d', f, hbooted, hrun, -, -, -, hstep, hpgdir, hstatus, -, hdir, hword,
    hword₀, hne, hf, href₀, href, hlisted⟩ := qemu_unwanted
  have hpresent := (hbooted.envs_mapped (by decide)).1
  refine ⟨k₀, k', d', hbooted, (hrun.mono fun _ _ _ => trivial).tail ⟨_, trivial, hstep⟩, ?_,
    hpgdir, ?_, ?_, qemu.envsAlloc.1, by decide, by decide, ?_, hlisted⟩
  · rw [hstatus]
    decide
  · rw [hdir]
    exact hpresent
  · rw [hword, hword₀]
    intro heq
    have hnum := congrArg pgnum heq
    rw [pgnum_mkPte hf (by decide), pgnum_mkPte (by decide) (by decide)] at hnum
    exact hne hnum
  · rw [href, href₀]
    decide

end Unwanted

end Jos
