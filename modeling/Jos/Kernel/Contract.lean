import Jos.Kernel.Resume
import Jos.Pmap.Insert

/-!
# The contract of `sys_ipc_try_send`

The header comment of `sys_ipc_try_send` lists its errors and what a successful call does.
On a well-formed memory the code keeps this contract but for four things: it does not ask
for an aligned source address, it takes an address whose page table exists for mapped, it
maps the page even if the receiver wants none, and it looks up the source address even if
no page is sent.
-/

namespace Jos

open Prog

/-- The source address makes the call invalid. -/
def Kernel.SendInvalid (k : Kernel) (cur : EnvIdx) (srcva perm : Word) : Prop :=
  srcva < utop ∧ (pgoff srcva ≠ 0 ∨ ¬ permOk perm ∨ k.pageAt cur srcva = none ∨
    perm &&& pteW ≠ 0 ∧ k.entryAt cur srcva &&& pteW = 0)

/-- A page is sent, and the receiver asks for one. -/
def Kernel.SendsPage (k : Kernel) (dst : EnvIdx) (srcva : Word) : Prop :=
  srcva < utop ∧ (k.envs dst).ipcDstva < utop

/-- There is no memory for the page table that `va` needs. -/
def Kernel.NoRoom (k : Kernel) (e : EnvIdx) (va : Word) : Prop :=
  k.phys.target k.dirs (.pde e (pdx va)) = none ∧ k.phys.pageFreeList = none

/-- The target has got the message, and the page if it asked for one. -/
structure Received (k : Kernel) (cur dst : EnvIdx) (value srcva perm : Word) (k' : Kernel) :
    Prop where
  recving : (k'.envs dst).ipcRecving = false
  sender : (k'.envs dst).ipcFrom = (k.envs cur).id
  value : (k'.envs dst).ipcValue = value
  eax : (k'.envs dst).tf.regs.eax = 0
  status : k'.status dst = .runnable
  page : k.SendsPage dst srcva → ∃ f, k.pageAt cur srcva = some f ∧
    Phys.Edits k.dirs k.phys k'.phys dst (pdx (k.envs dst).ipcDstva) (ptx (k.envs dst).ipcDstva)
      (mkPte f perm)
  noPage : ¬ k.SendsPage dst srcva → k'.phys = k.phys

/-- What the header comment says. -/
structure MeetsContract (k : Kernel) (cur : EnvIdx) (envid value srcva perm : Word) : Prop where
  badEnv : k.envid2env cur envid false = none →
    sysIpcTrySend cur envid value srcva perm k = .ret (-eBadEnv) k
  notRecv : ∀ dst, k.envid2env cur envid false = some dst → (k.envs dst).ipcRecving = false →
    sysIpcTrySend cur envid value srcva perm k = .ret (-eIpcNotRecv) k
  invalid : ∀ dst, k.envid2env cur envid false = some dst → (k.envs dst).ipcRecving = true →
    k.SendInvalid cur srcva perm →
    sysIpcTrySend cur envid value srcva perm k = .ret (-eInval) k
  noMem : ∀ dst, k.envid2env cur envid false = some dst → (k.envs dst).ipcRecving = true →
    ¬ k.SendInvalid cur srcva perm → k.SendsPage dst srcva →
    k.NoRoom dst (k.envs dst).ipcDstva →
    sysIpcTrySend cur envid value srcva perm k = .ret (-eNoMem) k
  success : ∀ dst, k.envid2env cur envid false = some dst → (k.envs dst).ipcRecving = true →
    ¬ k.SendInvalid cur srcva perm →
    ¬ (k.SendsPage dst srcva ∧ k.NoRoom dst (k.envs dst).ipcDstva) →
    ∃ k', sysIpcTrySend cur envid value srcva perm k = .ret 0 k' ∧
      Received k cur dst value srcva perm k'

/-- The page is at the receiver's address already, with these permissions. -/
def Kernel.AlreadyThere (k : Kernel) (cur dst : EnvIdx) (srcva perm : Word) : Prop :=
  ∃ d pde f, k.dirs dst = some d ∧ k.pageAt cur srcva = some f ∧
    k.phys.translate d (k.envs dst).ipcDstva = some (pde, mkPte f perm)

/-- The target waits for a message, and the source address passes the checks of the code. -/
def Kernel.PassesChecks (k : Kernel) (cur : EnvIdx) (srcva perm : Word) : Prop :=
  srcva < utop ∧ permOk perm ∧ k.phys.target k.dirs (.pde cur (pdx srcva)) ≠ none ∧
    (perm &&& pteW ≠ 0 → k.entryAt cur srcva &&& pteW ≠ 0)

/-- The cases in which the call does something else. -/
def Kernel.SendGoesWrong (k : Kernel) (cur : EnvIdx) (envid srcva perm : Word) : Prop :=
  ∃ dst, k.envid2env cur envid false = some dst ∧ (k.envs dst).ipcRecving = true ∧
    (utop ≤ srcva ∧ (∃ d, k.dirs cur = some d ∧ ¬ k.phys.LookupExists d srcva) ∨
      k.PassesChecks cur srcva perm ∧ (pgoff srcva ≠ 0 ∨ k.pageAt cur srcva = none ∨
        utop ≤ (k.envs dst).ipcDstva ∧ ¬ k.AlreadyThere cur dst srcva perm))

section Calls

variable {L : Layout} {k k' : Kernel} {cur dst : EnvIdx} {envid value srcva perm w r : Word}
  {pp d : Nat}

/-- `sys_ipc_try_send` up to its lookup. -/
theorem sysIpcTrySend_noEnv (target : k.envid2env cur envid false = none) :
    sysIpcTrySend cur envid value srcva perm k = .ret (-eBadEnv) k := by
  have hid : sysGetenvid cur k = .ret (k.envs cur).id k := rfl
  rw [sysIpcTrySend, bind_ret _ hid, bind_ret _ (envid2env_run target)]
  rfl

theorem sysIpcTrySend_idle (target : k.envid2env cur envid false = some dst)
    (idle : (k.envs dst).ipcRecving = false) :
    sysIpcTrySend cur envid value srcva perm k = .ret (-eIpcNotRecv) k := by
  have hid : sysGetenvid cur k = .ret (k.envs cur).id k := rfl
  rw [sysIpcTrySend, bind_ret _ hid, bind_ret _ (envid2env_run target)]
  dsimp only
  rw [get_bind, if_pos idle]
  rfl

theorem sysIpcTrySend_badPerm (target : k.envid2env cur envid false = some dst)
    (recving : (k.envs dst).ipcRecving = true) (hva : srcva < utop) (hperm : ¬ permOk perm) :
    sysIpcTrySend cur envid value srcva perm k = .ret (-eInval) k := by
  have hid : sysGetenvid cur k = .ret (k.envs cur).id k := rfl
  rw [sysIpcTrySend, bind_ret _ hid, bind_ret _ (envid2env_run target)]
  dsimp only
  rw [get_bind, if_neg (by rw [recving]; decide), if_pos ⟨hva, hperm⟩]
  rfl

/-- A message without a page. -/
theorem sysIpcTrySend_value (target : k.envid2env cur envid false = some dst)
    (recving : (k.envs dst).ipcRecving = true) (hva : utop ≤ srcva) :
    sysIpcTrySend cur envid value srcva perm k =
      (lookupIn cur srcva >>= fun _ => ipcDeliver dst (k.envs cur).id value) k := by
  have hid : sysGetenvid cur k = .ret (k.envs cur).id k := rfl
  have hnot : ¬ srcva < utop := BitVec.not_lt.mpr hva
  rw [sysIpcTrySend, bind_ret _ hid, bind_ret _ (envid2env_run target)]
  dsimp only
  rw [get_bind, if_neg (by rw [recving]; decide), if_neg fun h => hnot h.1]
  simp only [if_neg hnot]

/-- The end of the call if a page is sent. -/
def sendPage (dst : EnvIdx) (srcid value : Word) (pp : Nat) (dstva perm : Word) : KM Word := do
  let r ← insertInto dst pp dstva perm
  if r.slt 0 then pure (-eNoMem)
  else do
    modify fun k => k.setEnv dst { k.envs dst with ipcPerm := perm }
    ipcDeliver dst srcid value

/-- A message with a page. -/
theorem sysIpcTrySend_page (target : k.envid2env cur envid false = some dst)
    (recving : (k.envs dst).ipcRecving = true) (hva : srcva < utop) (hperm : permOk perm)
    {found : Option (Nat × Word)} (lookup : lookupIn cur srcva k = .ret found k) :
    sysIpcTrySend cur envid value srcva perm k =
      match found with
      | none => .ret (-eInval) k
      | some (pp, w) =>
          if perm &&& pteW ≠ 0 ∧ w &&& pteW = 0 then .ret (-eInval) k
          else sendPage dst (k.envs cur).id value pp (k.envs dst).ipcDstva perm k := by
  have hid : sysGetenvid cur k = .ret (k.envs cur).id k := rfl
  rw [sysIpcTrySend, bind_ret _ hid, bind_ret _ (envid2env_run target)]
  dsimp only
  rw [get_bind, if_neg (by rw [recving]; decide), if_neg fun h => h.2 hperm, bind_ret _ lookup,
    if_pos hva]
  cases found with
  | none => rfl
  | some found =>
      obtain ⟨pp, w⟩ := found
      dsimp only
      split
      · rfl
      · rfl

/-- The message arrives. -/
theorem ipcDeliver_run (srcid : Word) :
    ipcDeliver dst srcid value k = .ret 0 (k.delivered dst srcid value) := rfl

/-- The state after a successful call with a page. -/
def Kernel.sent (k : Kernel) (dst : EnvIdx) (srcid value perm : Word) : Kernel :=
  (k.setEnv dst { k.envs dst with ipcPerm := perm }).delivered dst srcid value

theorem Kernel.sent_dirs (srcid : Word) : (k.sent dst srcid value perm).dirs = k.dirs := by
  funext e
  exact (Kernel.setEnv_field (f := Env.pgdir) (by rfl) e).trans
    (Kernel.setEnv_field (f := Env.pgdir) (by rfl) e)

theorem sendPage_noMem {srcid dstva : Word} (insert : insertInto dst pp dstva perm k = .ret r k')
    (hr : r.slt 0) : sendPage dst srcid value pp dstva perm k = .ret (-eNoMem) k' := by
  rw [sendPage, bind_ret _ insert, if_pos hr]
  rfl

theorem sendPage_done {srcid dstva : Word} (insert : insertInto dst pp dstva perm k = .ret r k')
    (hr : ¬ r.slt 0) :
    sendPage dst srcid value pp dstva perm k = .ret 0 (k'.sent dst srcid value perm) := by
  rw [sendPage, bind_ret _ insert, if_neg hr]
  rfl

/-- Past the lookup there is no other error than `-E_NO_MEM`. -/
theorem sendPage_ret {srcid dstva : Word}
    (run : sendPage dst srcid value pp dstva perm k = .ret w k') :
    ∃ r k₁, insertInto dst pp dstva perm k = .ret r k₁ ∧
      (r.slt 0 ∧ w = -eNoMem ∨ ¬ r.slt 0 ∧ w = 0 ∧ k' = k₁.sent dst srcid value perm) := by
  obtain ⟨r, k₁, hins, -⟩ := bind_eq_ret run
  by_cases hr : r.slt 0
  · rw [sendPage_noMem hins hr] at run
    exact ⟨r, k₁, hins, .inl ⟨hr, (Outcome.ret.inj run).1.symm⟩⟩
  · rw [sendPage_done hins hr] at run
    obtain ⟨hw, hk⟩ := Outcome.ret.inj run
    exact ⟨r, k₁, hins, .inr ⟨hr, hw.symm, hk.symm⟩⟩

/-- A lookup that runs off memory. -/
theorem MemInv.lookupIn_panic (h : MemInv L k) (hd : k.dirs cur = some d)
    (off : ¬ k.phys.LookupExists d srcva) : lookupIn cur srcva k = .panic .pa2page := by
  rw [Phys.LookupExists, not_forall] at off
  obtain ⟨hp, hf⟩ := off
  have hpanic : pmap (pageLookup d srcva) k = .panic .pa2page :=
    zoom_panic (pageLookup_panic hp (h.table_lt hd hp) (Nat.not_lt.mp hf))
  rw [lookupIn, bind_ret _ (Jos.pgdirOf_run hd)]
  exact bind_panic _ hpanic

/-- If `page_insert` succeeds and leaves memory as it is, the page was there already. -/
theorem pageInsert_unchanged {p : Phys} {va : Word} (hn : p.npages ≤ 65536)
    (head : ∀ f, p.pageFreeList = some f → f < p.npages ∧ f ≠ d) (hr : r ≠ -eNoMem)
    (run : pageInsert d pp va perm p = .ret r p) :
    ∃ pde, p.translate d va = some (pde, mkPte pp perm) := by
  by_cases hp : p.word d (pdx va) &&& pteP = 0
  · -- a new page table would be a change
    exfalso
    cases hf : p.pageFreeList with
    | none =>
        rw [pageInsert_noMem (pgdirWalk_noMem hp hf)] at run
        exact hr (Outcome.ret.inj run).1.symm
    | some f =>
        obtain ⟨hlt, hfd⟩ := head f hf
        have hzero : (p.growTable d f (pdx va)).word f (ptx va) = 0 := by
          rw [word_growTable, if_neg fun h => hfd h.1, if_pos rfl]
        have hrun := @pageInsert_empty _ _ pp _ perm _ _ (pgdirWalk_create hp hf hlt hn)
          (by rw [hzero]; decide)
        obtain ⟨-, hsame⟩ := Outcome.ret.inj (hrun.symm.trans run)
        have hpde := congrArg (fun q => q.word d (pdx va)) hsame
        have hgrown : (((p.growTable d f (pdx va)).setWord f (ptx va) (mkPte pp perm)).setRef pp
            ((p.growTable d f (pdx va)).ref pp + 1)).word d (pdx va) =
            page2pa f ||| pteP ||| pteW ||| pteU := by
          change ((p.growTable d f (pdx va)).setWord f (ptx va) (mkPte pp perm)).word d (pdx va) = _
          rw [Phys.word_setWord, if_neg fun h => hfd h.1.symm, word_growTable, if_pos ⟨rfl, rfl⟩]
        rw [← hpde] at hp
        dsimp only at hp
        rw [hgrown, page2pa, tablePde_eq] at hp
        exact mkPte_present _ _ hp
  · by_cases hlt : pgnum (p.word d (pdx va)) < p.npages
    · have hwalk := pgdirWalk_found hp hlt true
      suffices hword : p.word (pgnum (p.word d (pdx va))) (ptx va) = mkPte pp perm from
        ⟨_, hword ▸ Phys.translate_of_present hp (by rw [hword]; exact mkPte_present pp perm)⟩
      rw [pageInsert, bind_ret _ hwalk] at run
      dsimp only at run
      obtain ⟨w, p₁, hload, run⟩ := bind_eq_ret run
      obtain ⟨rfl, rfl⟩ := Outcome.ret.inj hload
      split at run
      · obtain ⟨-, hsame⟩ := Outcome.ret.inj run
        have hword := congrArg (fun q => q.word (pgnum (p.word d (pdx va))) (ptx va)) hsame
        exact hword.symm.trans (Phys.word_setWord_self _ _)
      · obtain ⟨-, p₁, -, run⟩ := bind_eq_ret run
        obtain ⟨-, hsame⟩ := Outcome.ret.inj run
        have hword := congrArg (fun q => q.word (pgnum (p.word d (pdx va))) (ptx va)) hsame
        exact hword.symm.trans (Phys.word_setWord_self _ _)
    · have hwalk : pgdirWalk d va true p = .panic .kaddr := by
        rw [pgdirWalk, get_bind, if_pos hp]
        exact bind_panic _ (kaddr_panic (by rw [pgnum_pteAddr]; exact Nat.not_lt.mp hlt))
      rw [pageInsert, bind_panic _ hwalk] at run
      simp at run

theorem received_value (no : ¬ k.SendsPage dst srcva) :
    Received k cur dst value srcva perm (k.delivered dst (k.envs cur).id value) := by
  refine ⟨?_, ?_, ?_, ?_, ?_, fun h => absurd h no, fun _ => rfl⟩
  all_goals simp [Kernel.delivered, Kernel.status, Trapframe.setEax]

theorem received_page {q : Phys}
    (page : k.SendsPage dst srcva → ∃ f, k.pageAt cur srcva = some f ∧
      Phys.Edits k.dirs k.phys q dst (pdx (k.envs dst).ipcDstva) (ptx (k.envs dst).ipcDstva)
        (mkPte f perm))
    (noPage : ¬ k.SendsPage dst srcva → q = k.phys) :
    Received k cur dst value srcva perm
      (({ k with phys := q } : Kernel).sent dst (k.envs cur).id value perm) := by
  refine ⟨?_, ?_, ?_, ?_, ?_, page, noPage⟩
  all_goals simp [Kernel.sent, Kernel.delivered, Kernel.status, Trapframe.setEax]

/-- A mapped page has a page table. -/
theorem Kernel.table_of_page {f : Nat} (hf : k.pageAt cur srcva = some f) :
    k.phys.target k.dirs (.pde cur (pdx srcva)) ≠ none := by
  intro htable
  rw [Kernel.pageAt, Phys.target, Phys.pteAt_of_none htable] at hf
  exact absurd (entryFrame_zero.symm.trans hf) (by simp)

/-- A valid call with a page passes the checks. -/
theorem Kernel.valid_page (hva : srcva < utop) (valid : ¬ k.SendInvalid cur srcva perm) :
    ∃ f, k.pageAt cur srcva = some f ∧ k.PassesChecks cur srcva perm := by
  have hsome : k.pageAt cur srcva ≠ none := fun hnone => valid ⟨hva, .inr (.inr (.inl hnone))⟩
  obtain ⟨f, hf⟩ := Option.ne_none_iff_exists'.mp hsome
  refine ⟨f, hf, hva, ?_, Kernel.table_of_page hf, fun hw hro =>
    valid ⟨hva, .inr (.inr (.inr ⟨hw, hro⟩))⟩⟩
  by_contra hperm
  exact valid ⟨hva, .inr (.inl hperm)⟩

namespace MemInv

/-- The free list, as far as `pageInsert_unchanged` needs it. -/
theorem head_free (h : MemInv L k) (hd : k.dirs dst = some d) :
    ∀ f, k.phys.pageFreeList = some f → f < k.phys.npages ∧ f ≠ d := by
  intro f hf
  have hlisted : k.phys.Listed f := by
    rw [Phys.Listed, hf]
    exact .here f
  refine ⟨h.phys.lt_npages (h.phys.counts.ref_of_listed hlisted).1, ?_⟩
  rintro rfl
  exact h.phys.listed_fresh hlisted (.dir dst) hd

/-- A page that passes the checks. -/
theorem send_found (h : MemInv L k) (hcur : k.status cur ≠ .free)
    (target : k.envid2env cur envid false = some dst) (recving : (k.envs dst).ipcRecving = true)
    (checks : k.PassesChecks cur srcva perm) {f : Nat} (hf : k.pageAt cur srcva = some f) :
    sysIpcTrySend cur envid value srcva perm k =
      sendPage dst (k.envs cur).id value f (k.envs dst).ipcDstva perm k := by
  obtain ⟨hva, hperm, -, hwrite⟩ := checks
  rw [sysIpcTrySend_page target recving hva hperm (h.lookupIn_page hcur hva hf)]
  exact if_neg fun hw => hwrite hw.1 hw.2

/-- A hole that passes the checks. -/
theorem send_hole (h : MemInv L k) (hcur : k.status cur ≠ .free)
    (target : k.envid2env cur envid false = some dst) (recving : (k.envs dst).ipcRecving = true)
    (checks : k.PassesChecks cur srcva perm) (hnone : k.pageAt cur srcva = none) :
    sysIpcTrySend cur envid value srcva perm k =
      sendPage dst (k.envs cur).id value 0 (k.envs dst).ipcDstva perm k := by
  obtain ⟨hva, hperm, htable, hwrite⟩ := checks
  have hentry : k.entryAt cur srcva = 0 := h.phys.tables.clean _ _ _ hnone
  have hlookup := h.lookupIn_hole hcur hva ⟨Option.ne_none_iff_exists'.mp htable, hnone⟩
  rw [sysIpcTrySend_page target recving hva hperm hlookup]
  exact if_neg fun hw => hwrite hw.1 (by rw [hentry]; decide)

/-- A page that is there already is mapped again. -/
theorem insert_again (h : MemInv L k) (hperm : permOk perm)
    (there : k.AlreadyThere cur dst srcva perm) {f : Nat} (hf : k.pageAt cur srcva = some f) :
    insertInto dst f (k.envs dst).ipcDstva perm k = .ret 0 k := by
  obtain ⟨d, pde, g, hd, hg, htranslate⟩ := there
  obtain rfl : f = g := Option.some.inj (hf.symm.trans hg)
  obtain ⟨rfl, hp, hword, hpresent⟩ := Phys.translate_eq_some htranslate
  have hlt : f < 1048576 := by
    have := h.phys.lt_npages (h.phys.tables.owned _ f hf)
    have := h.phys.npages_le
    omega
  have hsame : pteAddr (mkPte f perm) = page2pa f := by
    rw [pteAddr_eq, pgnum_mkPte hlt hperm.toNat_lt, page2pa]
  have hrun := @pageInsert_same _ _ f _ perm _ _ (pgdirWalk_found hp (h.table_lt hd hp) true)
    (by rw [hword]; exact hpresent) (by rw [hword]; exact hsame)
  rw [← hword, Phys.setWord_word] at hrun
  exact insertInto_ret hd hrun

/-- An invalid call that is not taken for a valid one. -/
theorem contract_invalid (h : MemInv L k) (hcur : k.status cur ≠ .free)
    (right : ¬ k.SendGoesWrong cur envid srcva perm)
    (target : k.envid2env cur envid false = some dst) (recving : (k.envs dst).ipcRecving = true)
    (invalid : k.SendInvalid cur srcva perm) :
    sysIpcTrySend cur envid value srcva perm k = .ret (-eInval) k := by
  obtain ⟨hva, why⟩ := invalid
  by_cases hperm : permOk perm
  swap
  · exact sysIpcTrySend_badPerm target recving hva hperm
  by_cases hwrite : perm &&& pteW ≠ 0 → k.entryAt cur srcva &&& pteW ≠ 0
  · cases htable : k.phys.target k.dirs (.pde cur (pdx srcva)) with
    | none =>
        rcases h.lookupIn_run hcur hva with ⟨hl, -, -⟩ | ⟨f, hf, -⟩ | ⟨⟨⟨t, ht⟩, -⟩, -⟩
        · exact sysIpcTrySend_page target recving hva hperm hl
        · exact absurd htable (Kernel.table_of_page hf)
        · rw [htable] at ht
          simp at ht
    | some t =>
        have hchecks : k.PassesChecks cur srcva perm :=
          ⟨hva, hperm, by rw [htable]; simp, hwrite⟩
        have hright : pgoff srcva = 0 ∧ k.pageAt cur srcva ≠ none := by
          by_contra hwrong
          refine right ⟨dst, target, recving, .inr ⟨hchecks, ?_⟩⟩
          by_cases hoff : pgoff srcva = 0
          · exact .inr (.inl (not_not.mp fun hpage => hwrong ⟨hoff, hpage⟩))
          · exact .inl hoff
        rcases why with hoff | hbad | hnone | ⟨hw, hro⟩
        · exact absurd hright.1 hoff
        · exact absurd hperm hbad
        · exact absurd hnone hright.2
        · exact absurd hro (hwrite hw)
  · rw [Classical.not_imp, not_not] at hwrite
    rcases h.lookupIn_run hcur hva with ⟨hl, -, -⟩ | ⟨f, -, hl⟩ | ⟨-, hl⟩
    · exact sysIpcTrySend_page target recving hva hperm hl
    · rw [sysIpcTrySend_page target recving hva hperm hl]
      exact if_pos hwrite
    · rw [sysIpcTrySend_page target recving hva hperm hl]
      exact if_pos ⟨hwrite.1, by decide⟩

/-- A page for which there is no page table. -/
theorem contract_noMem (h : MemInv L k) (hcur : k.status cur ≠ .free)
    (target : k.envid2env cur envid false = some dst) (recving : (k.envs dst).ipcRecving = true)
    (valid : ¬ k.SendInvalid cur srcva perm) (sends : k.SendsPage dst srcva)
    (noRoom : k.NoRoom dst (k.envs dst).ipcDstva) :
    sysIpcTrySend cur envid value srcva perm k = .ret (-eNoMem) k := by
  obtain ⟨f, hf, hchecks⟩ := Kernel.valid_page sends.1 valid
  obtain ⟨d, hd, -⟩ := h.dir_of_live (live_of_target hcur target)
  rw [h.send_found hcur target recving hchecks hf]
  have hwalk := pgdirWalk_noMem (Phys.Inv.no_table_walk hd sends.2 noRoom.1) noRoom.2
  exact sendPage_noMem (insertInto_ret hd (pageInsert_noMem hwalk)) (by decide)

/-- A valid call for which there is memory. -/
theorem contract_success (h : MemInv L k) (hcur : k.status cur ≠ .free)
    (right : ¬ k.SendGoesWrong cur envid srcva perm)
    (target : k.envid2env cur envid false = some dst) (recving : (k.envs dst).ipcRecving = true)
    (valid : ¬ k.SendInvalid cur srcva perm)
    (room : ¬ (k.SendsPage dst srcva ∧ k.NoRoom dst (k.envs dst).ipcDstva)) :
    ∃ k', sysIpcTrySend cur envid value srcva perm k = .ret 0 k' ∧
      Received k cur dst value srcva perm k' := by
  have hlive := live_of_target hcur target
  by_cases hva : srcva < utop
  · obtain ⟨f, hf, hchecks⟩ := Kernel.valid_page hva valid
    rw [h.send_found hcur target recving hchecks hf]
    by_cases hdst : (k.envs dst).ipcDstva < utop
    · obtain ⟨d, hd, -⟩ := h.dir_of_live hlive
      rcases h.phys.insert_total hd hdst hchecks.2.1.toNat_lt (h.mappable hf) with
        ⟨-, head, htable⟩ | ⟨q, hrun, hedits, -⟩
      · exact absurd ⟨⟨hva, hdst⟩, htable, head⟩ room
      · exact ⟨_, sendPage_done (insertInto_ret hd hrun) (by decide),
          received_page (fun _ => ⟨f, hf, hedits⟩) fun no => absurd ⟨hva, hdst⟩ no⟩
    · have hthere : k.AlreadyThere cur dst srcva perm := by
        by_contra hnot
        exact right ⟨dst, target, recving,
          .inr ⟨hchecks, .inr (.inr ⟨BitVec.not_lt.mp hdst, hnot⟩)⟩⟩
      exact ⟨_, sendPage_done (h.insert_again hchecks.2.1 hthere hf) (by decide),
        received_page (q := k.phys) (fun sends => absurd sends.2 hdst) fun _ => rfl⟩
  · have hexists : ∀ d, k.dirs cur = some d → k.phys.LookupExists d srcva := by
      intro d hd
      by_contra hoff
      exact right ⟨dst, target, recving, .inl ⟨BitVec.not_lt.mp hva, d, hd, hoff⟩⟩
    obtain ⟨found, k₁, hlookup, rfl⟩ := exists_of_wp
      (h.lookupIn_total hcur (.inl hexists) (X := fun _ _ => False))
    refine ⟨_, ?_, received_value fun sends => hva sends.1⟩
    rw [sysIpcTrySend_value target recving (BitVec.not_lt.mp hva), bind_ret _ hlookup]
    exact ipcDeliver_run _

/-- A call that goes wrong breaks the contract. -/
theorem contract_broken (h : MemInv L k) (hcur : k.status cur ≠ .free)
    (wrong : k.SendGoesWrong cur envid srcva perm) :
    ¬ MeetsContract k cur envid value srcva perm := by
  intro contract
  obtain ⟨dst, target, recving, ⟨hva, d, hd, hoff⟩ | ⟨hchecks, hwrong⟩⟩ := wrong
  · -- the lookup is made although no page is sent
    have hnot : ¬ srcva < utop := BitVec.not_lt.mpr hva
    obtain ⟨k', hrun, -⟩ := contract.success dst target recving (fun invalid => hnot invalid.1)
      fun sends => hnot sends.1.1
    rw [sysIpcTrySend_value target recving hva, bind_panic _ (h.lookupIn_panic hd hoff)] at hrun
    simp at hrun
  have hpast : ∃ pp, sysIpcTrySend cur envid value srcva perm k =
      sendPage dst (k.envs cur).id value pp (k.envs dst).ipcDstva perm k ∧
      ∀ f, k.pageAt cur srcva = some f → f = pp := by
    cases hpage : k.pageAt cur srcva with
    | none => exact ⟨0, h.send_hole hcur target recving hchecks hpage, by simp⟩
    | some f => exact ⟨f, h.send_found hcur target recving hchecks hpage, by simp⟩
  obtain ⟨pp, hsend, hpp⟩ := hpast
  by_cases hinvalid : pgoff srcva ≠ 0 ∨ k.pageAt cur srcva = none
  · -- an invalid address: there is no `-E_INVAL` past the lookup
    have hrun := contract.invalid dst target recving
      ⟨hchecks.1, hinvalid.elim .inl fun hnone => .inr (.inr (.inl hnone))⟩
    rw [hsend] at hrun
    obtain ⟨r, k₁, -, ⟨-, hret⟩ | ⟨-, hret, -⟩⟩ := sendPage_ret hrun
    · exact absurd hret (by decide)
    · exact absurd hret (by decide)
  · rw [not_or, not_not] at hinvalid
    obtain ⟨hoff, hsome⟩ := hinvalid
    obtain ⟨f, hf⟩ := Option.ne_none_iff_exists'.mp hsome
    obtain rfl := hpp f hf
    obtain ⟨hdst, hnot⟩ : utop ≤ (k.envs dst).ipcDstva ∧ ¬ k.AlreadyThere cur dst srcva perm :=
      (hwrong.resolve_left (not_not.mpr hoff)).resolve_left hsome
    -- the receiver wants no page, so memory must stay as it is
    have hvalid : ¬ k.SendInvalid cur srcva perm := by
      rintro ⟨-, hbad | hbad | hbad | ⟨hw, hro⟩⟩
      · exact hbad hoff
      · exact hbad hchecks.2.1
      · exact hsome hbad
      · exact hchecks.2.2.2 hw hro
    have hno : ¬ k.SendsPage dst srcva := fun sends => absurd sends.2 (BitVec.not_lt.mpr hdst)
    obtain ⟨k', hrun, hreceived⟩ :=
      contract.success dst target recving hvalid fun sends => hno sends.1
    rw [hsend] at hrun
    obtain ⟨r, k₁, hinsert, ⟨-, hret⟩ | ⟨hr, -, rfl⟩⟩ := sendPage_ret hrun
    · exact absurd hret (by decide)
    obtain ⟨d, hd, hpgdir⟩ := h.pgdirOf_run (live_of_target hcur target)
    rw [insertInto, bind_ret _ hpgdir] at hinsert
    obtain ⟨q, hpage, rfl⟩ := zoom_eq_ret hinsert
    obtain rfl : q = k.phys := hreceived.noPage hno
    obtain ⟨pde, htranslate⟩ := pageInsert_unchanged h.phys.npages_le (h.head_free hd)
      (by rintro rfl; exact hr (by decide)) hpage
    exact hnot ⟨d, pde, f, hd, hf, htranslate⟩

end MemInv

end Calls

end Jos
