import Jos.Kernel.EnvId
import Jos.Safety.Family
import Jos.User.Duppage

/-!
# A whole `fork`

The child gets the pages of the parent from `UTEXT` up to the exception stack, and an
exception stack of its own. What `fork` copies with its last `memmove` are the zeros of the
new page, and it copies them to the exception stack of the parent.
-/

namespace Jos

open Prog

variable {L : Layout} {k k₀ k₁ k' : Kernel} {c d f n : Nat} {cur child : EnvIdx} {i j : Idx}
  {childId va : Word}

/-- The page of the exception stack, as a pair of indices. -/
abbrev stackPde : Idx := pdx uxstack

abbrev stackPte : Idx := ptx uxstack

abbrev tempPde : Idx := pdx pftemp

abbrev tempPte : Idx := ptx pftemp

theorem stack_not_inLoop : ¬ InLoop loopPages stackPde stackPte := by
  rw [InLoop, pageNumber_va, loopPages, pgnum_utext, pgnum_uxstack]
  have h : uxstack.toNat = 4005556224 := by decide
  omega

theorem temp_not_inLoop : ¬ InLoop n tempPde tempPte := by
  rw [InLoop, pageNumber_va, pgnum_utext]
  have h : pftemp.toNat = 8384512 := by decide
  omega

theorem stack_ne_temp : stackPde ≠ tempPde := by decide

/-- The permissions of the new exception stack. -/
abbrev stackPerm : Word := pteP ||| pteW ||| pteU

theorem stackPerm_user (g : Nat) : UserPte (mkPte g stackPerm) true := by
  refine ⟨?_, fun _ => ?_⟩
  all_goals
    rw [mkPte_and g _ (by decide)]
    decide

/-- The exception stack of the environment is there, and it may write it. -/
def Kernel.StackWritable (k : Kernel) (cur : EnvIdx) : Prop :=
  (∃ g, k.pageAt cur uxstack = some g) ∧ UserPte (k.entryAt cur uxstack) true

/-- From `k` to `k'` the exception stack of the child has been set up: the page `g'`, while `g` is
that of the parent. -/
structure StackSetUp (L : Layout) (k : Kernel) (cur child : EnvIdx) (g g' : Nat) (k' : Kernel) :
    Prop where
  ends : MemInv.Ends L k k'
  stack : k.pageAt cur uxstack = some g
  fresh : k.phys.Listed g' ∧ g' < 1048576
  ne : g' ≠ g
  own : k'.pte child stackPde stackPte = mkPte g' stackPerm
  temp : k'.pte cur tempPde tempPte = 0
  rest : ∀ e i j, ¬ (e = child ∧ i = stackPde ∧ j = stackPte) →
    ¬ (e = cur ∧ i = tempPde ∧ j = tempPte) → k'.pte e i j = k.pte e i j
  zero : ∀ off < 4096, k'.phys.mem g off = 0 ∧ k'.phys.mem g' off = 0
  mem : ∀ e i j f, ¬ (e = child ∧ i = stackPde ∧ j = stackPte) →
    ¬ (e = cur ∧ i = tempPde ∧ j = tempPte) → k.phys.target k.dirs (.pte e i j) = some f →
    f ≠ g → k'.phys.mem f = k.phys.mem f
  free : ∀ n, k.phys.FreePages (n + 3) → k'.phys.FreePages n

/-- A page with one mapping can get another one. -/
theorem MemInv.ref_of_sole (h : MemInv L k) {x : EnvIdx × Idx × Idx} (sole : k.mappings f = {x}) :
    k.phys.ref f ≠ 65535 := by
  intro hfull
  have hcount := (h.countsExact h).mapped f (by rw [sole]; exact Set.singleton_nonempty x)
  rw [hfull, sole, Set.ncard_singleton] at hcount
  exact absurd hcount (by decide)

/-- A page that was free has only the new mapping. -/
theorem MemInv.Edited.sole (h : MemInv L k) {e : EnvIdx} {g : Nat} {perm : Word}
    (hedit : Edited L k e i j (mkPte g perm) k') (hlisted : k.phys.Listed g) (hg : g < 1048576)
    (hperm : perm.toNat < 4096) : k'.mappings g = {(e, i, j)} := by
  rw [Set.eq_singleton_iff_unique_mem]
  refine ⟨?_, ?_⟩
  · rw [Kernel.mem_mappings, Kernel.target_pte, hedit.self, entryFrame_mkPte hg hperm]
  · rintro ⟨e', i', j'⟩ hmap
    by_contra hother
    rw [Kernel.mem_mappings, hedit.target (by simpa using hother)] at hmap
    exact h.phys.listed_fresh hlisted _ hmap

theorem copyStack_spec (h : InUser L c cur d k) (hc : k.HasChild cur child childId) :
    wp (copyStack c cur childId) (fun _ k' => ∃ g g', StackSetUp L k cur child g g' k')
      (fun _ _ => ¬ (k.phys.FreePages 3 ∧ k.StackWritable cur)) (fun _ => False) k := by
  have hva : vaOk uxstack ∧ vaOk pftemp := by decide
  have hperm : permOk stackPerm := by decide
  have hchild : ¬ (cur = child ∧ stackPde = stackPde ∧ stackPte = stackPte) :=
    fun heq => hc.ne heq.1.symm
  have htemp : ∀ e, ¬ (e = cur ∧ stackPde = tempPde ∧ stackPte = tempPte) :=
    fun e heq => stack_ne_temp heq.2.1
  -- a new page for the child
  obtain ⟨r, k₁, hrun, hres⟩ := h.mem.sysPageAlloc_total hc.used hc.target hva.1 hperm
  rw [copyStack, wp_bind, wp_ret (call_ret hrun)]
  rw [wp_bind, wp_check]
  obtain ⟨rfl, hroom⟩ | ⟨rfl, ⟨g', hlisted, hg', hzero, hedit⟩, hless⟩ := hres
  · refine ⟨fun _ hable => hroom (hable.1.mono (by decide)), fun hneg => ?_⟩
    exact absurd hneg (by decide)
  refine ⟨fun hneg => absurd hneg (by decide), fun _ => ?_⟩
  have h₁ := hedit.ends.inUser h
  have hc₁ := hedit.ends.hasChild hc
  have hsole := hedit.sole h.mem hlisted hg' (by decide)
  have hpage₁ := Kernel.mem_mappings.mp (hsole ▸ Set.mem_singleton _)
  -- the parent maps it, too
  obtain ⟨r, k₂, hrun₂, hres₂⟩ := h₁.mem.sysPageMap_total hc₁.target h₁.self ⟨hc₁.used, h₁.used⟩
    hva hperm hpage₁ (fun _ => by
      change k₁.pte child stackPde stackPte &&& pteW ≠ 0
      rw [hedit.self]
      exact (stackPerm_user g').2 rfl) (.inr (h₁.mem.ref_of_sole hsole))
  rw [wp_bind, wp_ret sysGetenvid_run, wp_bind, wp_ret (call_ret hrun₂), wp_bind, wp_check]
  obtain ⟨rfl, hroom⟩ | ⟨rfl, hedit₂, hless₂⟩ := hres₂
  · refine ⟨fun _ hable => hroom (hless 1 hable.1), fun hneg => ?_⟩
    exact absurd hneg (by decide)
  refine ⟨fun hneg => absurd hneg (by decide), fun _ => ?_⟩
  have h₂ := hedit₂.ends.inUser h₁
  have htemp₂ : k₂.pageAt cur pftemp = some g' := by
    change entryFrame (k₂.pte cur tempPde tempPte) = some g'
    rw [hedit₂.self, entryFrame_mkPte hg' (by decide)]
  have hread : UserPte (k₂.entryAt cur pftemp) false := by
    change UserPte (k₂.pte cur tempPde tempPte) false
    rw [hedit₂.self]
    exact ⟨(stackPerm_user g').1, fun hw => absurd hw (by decide)⟩
  have hstack₂ : k₂.pte cur stackPde stackPte = k.pte cur stackPde stackPte := by
    rw [hedit₂.rest _ _ _ (htemp cur), hedit.rest _ _ _ hchild]
  have hpage₂ : k₂.pageAt cur uxstack = k.pageAt cur uxstack := congrArg entryFrame hstack₂
  have hentry₂ : k₂.entryAt cur uxstack = k.entryAt cur uxstack := hstack₂
  -- the zeros of the new page go to the exception stack of the parent
  by_cases hwrite : k.StackWritable cur
  swap
  · have hdenied : ∀ g, ¬ k₂.phys.UserPage d uxstack g true := by
      intro g hg
      rw [h₂.userPage_iff (by decide), hpage₂, hentry₂] at hg
      exact hwrite ⟨⟨g, hg.1⟩, hg.2⟩
    rw [wp_bind, wp_exit_eq (memmove_denied h₂.cr3 (h₂.userPage (by decide) htemp₂ hread) hdenied
      (by decide))]
    exact fun hable => hwrite hable.2
  obtain ⟨⟨g, hg⟩, hpte⟩ := hwrite
  have hne : g' ≠ g := by
    rintro rfl
    exact h.mem.phys.listed_fresh hlisted _ hg
  obtain ⟨k₃, hrun₃, hcopied⟩ := h₂.memmove_page ⟨hva.2, hva.1⟩ htemp₂ hread (hpage₂.trans hg)
    (hentry₂ ▸ hpte) hne
  rw [wp_bind, wp_ret hrun₃]
  have h₃ := hcopied.ends.inUser h₂
  have htemp₃ : k₃.pageAt cur pftemp = some g' := (hcopied.target cur _ _).trans htemp₂
  obtain ⟨k₄, hrun₄, hedit₄, hfree₄⟩ := h₃.mem.sysPageUnmap_total h₃.used h₃.self hva.2 htemp₃
  rw [wp_bind, wp_ret sysGetenvid_run, wp_bind, wp_ret (call_ret hrun₄), wp_check]
  refine ⟨fun hneg => absurd hneg (by decide), fun _ => ⟨g, g', ?_⟩⟩
  -- what is mapped before the `memmove` keeps its contents afterwards
  have hmem₄ : ∀ {e i j p}, k₂.phys.target k₂.dirs (.pte e i j) = some p →
      k₄.phys.mem p = k₃.phys.mem p := fun hp =>
    hedit₄.mem _ _ _ _ ((hcopied.target _ _ _).trans hp)
  have hg'₂ : k₂.phys.target k₂.dirs (.pte child stackPde stackPte) = some g' :=
    (hedit₂.target (htemp child)).trans hpage₁
  have hzero₂ : k₂.phys.mem g' = fun _ => 0 := by rw [hedit₂.mem _ _ _ _ hpage₁, hzero]
  refine ⟨((hedit.ends.trans hedit₂.ends).trans hcopied.ends).trans hedit₄.ends, hg,
    ⟨hlisted, hg'⟩, hne, ?_, hedit₄.self, ?_, fun off hoff => ⟨?_, ?_⟩, ?_,
    fun n hn => hfree₄ n (hcopied.free n (hless₂ n (hless (n + 1) hn)))⟩
  · rw [hedit₄.rest _ _ _ (htemp child), hcopied.pte, hedit₂.rest _ _ _ (htemp child), hedit.self]
  · intro e i j hne₁ hne₂
    rw [hedit₄.rest e i j hne₂, hcopied.pte, hedit₂.rest e i j hne₂, hedit.rest e i j hne₁]
  · rw [hmem₄ (hpage₂.trans hg), hcopied.bytes off hoff, hzero₂]
  · rw [hmem₄ hg'₂, hcopied.mem g' hne, hzero₂]
  · intro e i j p hne₁ hne₂ hp hpg
    have hp₁ := (hedit.target hne₁).trans hp
    rw [hmem₄ ((hedit₂.target hne₂).trans hp₁), hcopied.mem p hpg, hedit₂.mem e i j p hp₁,
      hedit.mem e i j p hp]

/-! ### The other calls -/

/-- Memory and the table of environments are the same, up to which environments run, what they
wait for and how they handle faults. -/
structure Kernel.SameMaps (k k' : Kernel) : Prop where
  phys : k'.phys = k.phys
  kernPgdir : k'.kernPgdir = k.kernPgdir
  envFreeList : k'.envFreeList = k.envFreeList
  pgdir : ∀ e, (k'.envs e).pgdir = (k.envs e).pgdir
  id : ∀ e, (k'.envs e).id = (k.envs e).id
  parentId : ∀ e, (k'.envs e).parentId = (k.envs e).parentId
  link : ∀ e, (k'.envs e).link = (k.envs e).link
  free : ∀ e, k'.status e = .free ↔ k.status e = .free

namespace Kernel.SameMaps

theorem setEnv {e : EnvIdx} {env : Env} (pgdir : env.pgdir = (k.envs e).pgdir)
    (id : env.id = (k.envs e).id) (parentId : env.parentId = (k.envs e).parentId)
    (link : env.link = (k.envs e).link) (used : k.status e ≠ .free) (live : env.status ≠ .free) :
    k.SameMaps (k.setEnv e env) := by
  refine ⟨rfl, rfl, rfl, Kernel.setEnv_field (f := Env.pgdir) pgdir,
    Kernel.setEnv_field (f := Env.id) id, Kernel.setEnv_field (f := Env.parentId) parentId,
    Kernel.setEnv_field (f := Env.link) link, fun e' => ?_⟩
  by_cases he : e' = e
  · subst he
    rw [Kernel.status, Kernel.setEnv_envs_self]
    exact ⟨fun hf => absurd hf live, fun hf => absurd hf used⟩
  · rw [Kernel.status, Kernel.setEnv_envs_of_ne _ he, Kernel.status]

theorem dirs (h : k.SameMaps k') : k'.dirs = k.dirs := funext h.pgdir

theorem pte (h : k.SameMaps k') (e : EnvIdx) (i j : Idx) : k'.pte e i j = k.pte e i j := by
  rw [Kernel.pte, h.phys, h.dirs, Kernel.pte]

theorem memInv (h : k.SameMaps k') (hk : MemInv L k) : MemInv L k' :=
  hk.congr h.phys h.kernPgdir h.dirs h.free

theorem inUser (h : k.SameMaps k') (hcpus : k'.cpus = k.cpus) (hu : InUser L c cur d k) :
    InUser L c cur d k' := by
  refine ⟨h.memInv hu.mem, fun hf => hu.used ((h.free cur).mp hf), ?_, ?_, ?_⟩
  · rw [h.dirs, hu.dir]
  · rw [hcpus, hu.cr3]
  · rw [h.id, hu.id]

theorem slotsFree (h : k.SameMaps k') (slots : k.SlotsFree) : k'.SlotsFree := by
  obtain ⟨l, hl, hfree⟩ := slots
  refine ⟨l, ?_, fun e he => (h.free e).mpr (hfree e he)⟩
  rw [h.envFreeList]
  exact hl.congr fun e _ => h.link e

theorem hasChild (h : k.SameMaps k') (hc : k.HasChild cur child childId) :
    k'.HasChild cur child childId := by
  refine ⟨hc.ne, fun hf => hc.used ((h.free child).mp hf), ?_⟩
  have hfree : (k'.envs (envx childId)).status = .free ↔ (k.envs (envx childId)).status = .free :=
    h.free _
  rw [← hc.target, Kernel.envid2env, Kernel.envid2env]
  dsimp only
  simp only [h.id, h.parentId, hfree]

end Kernel.SameMaps

/-- Only the environment `e` has changed, and neither its memory nor its identity. -/
structure Kernel.Sets (k : Kernel) (e : EnvIdx) (k' : Kernel) : Prop where
  same : k.SameMaps k'
  cpus : k'.cpus = k.cpus
  others : ∀ e', e' ≠ e → k'.envs e' = k.envs e'

theorem sysEnvSetPgfaultUpcall_total {e : EnvIdx} {envid : Word} (func : Word)
    (target : k.envid2env cur envid true = some e) (used : k.status e ≠ .free) :
    ∃ k', sysEnvSetPgfaultUpcall cur envid func k = .ret 0 k' ∧ k.Sets e k' ∧
      k'.status e = k.status e ∧ (k'.envs e).pgfaultUpcall = func := by
  refine ⟨k.setEnv e { k.envs e with pgfaultUpcall := func }, ?_,
    ⟨.setEnv rfl rfl rfl rfl used used, rfl, fun e' he => Kernel.setEnv_envs_of_ne _ he⟩, ?_, ?_⟩
  · rw [sysEnvSetPgfaultUpcall, bind_ret _ (envid2env_run target)]
    rfl
  · rw [Kernel.status, Kernel.setEnv_envs_self, Kernel.status]
  · rw [Kernel.setEnv_envs_self]

theorem sysEnvSetStatus_total {e : EnvIdx} {envid arg : Word} {st : EnvStatus}
    (harg : statusArg arg = some st) (target : k.envid2env cur envid true = some e)
    (used : k.status e ≠ .free) :
    ∃ k', sysEnvSetStatus cur envid arg k = .ret 0 k' ∧ k.Sets e k' ∧ k'.status e = st ∧
      (k'.envs e).pgfaultUpcall = (k.envs e).pgfaultUpcall := by
  refine ⟨k.setStatus e st, ?_,
    ⟨.setEnv rfl rfl rfl rfl used (statusArg_ne_free harg), rfl,
      fun e' he => Kernel.setEnv_envs_of_ne _ he⟩, ?_, ?_⟩
  · rw [sysEnvSetStatus, harg]
    dsimp only
    rw [bind_ret _ (envid2env_run target)]
    rfl
  · rw [Kernel.status, Kernel.setStatus, Kernel.setEnv_envs_self]
  · rw [Kernel.setStatus, Kernel.setEnv_envs_self]

/-- The exception stack of the parent before the child is made: a new page the first time. -/
structure StackReady (L : Layout) (k : Kernel) (cur : EnvIdx) (first : Bool) (upcall : Word)
    (k' : Kernel) : Prop where
  slots : k.SlotsFree → k'.SlotsFree
  cpus : k'.cpus = k.cpus
  dirs : k'.dirs = k.dirs
  ids : ∀ e, (k'.envs e).id = (k.envs e).id
  status : ∀ e, k'.status e = k.status e
  upcalls : ∀ e, ¬ (first = true ∧ e = cur) → (k'.envs e).pgfaultUpcall = (k.envs e).pgfaultUpcall
  handler : first = true → (k'.envs cur).pgfaultUpcall = upcall
  envFreeList : k'.envFreeList = k.envFreeList
  rest : ∀ e i j, ¬ (first = true ∧ e = cur ∧ i = stackPde ∧ j = stackPte) →
    k'.pte e i j = k.pte e i j
  stack : first = true → ∃ g, k.phys.Listed g ∧ g < 1048576 ∧
    k'.pte cur stackPde stackPte = mkPte g stackPerm ∧ k'.phys.mem g = fun _ => 0
  contents : ∀ e i j f, k.phys.target k.dirs (.pte e i j) = some f → k'.phys.mem f = k.phys.mem f
  free : ∀ n, k.phys.FreePages (n + 2) → k'.phys.FreePages n

theorem setPgfaultHandler_spec (h : InUser L c cur d k) (first : Bool) (upcall : Word) :
    wp (setPgfaultHandler cur first upcall)
      (fun _ k' => InUser L c cur d k' ∧ StackReady L k cur first upcall k')
      (fun _ _ => ¬ k.phys.FreePages 2) (fun _ => False) k := by
  rw [setPgfaultHandler, wp_when]
  refine ⟨fun hfirst => ?_, fun hlater => ?_⟩
  · have hperm : permOk (pteU ||| pteP ||| pteW) := by decide
    obtain ⟨r, k₁, hrun, hres⟩ := h.mem.sysPageAlloc_total h.used h.self
      (show vaOk uxstack by decide) hperm
    rw [wp_bind, wp_ret sysGetenvid_run, wp_bind, wp_ret (call_ret hrun), wp_bind, wp_check]
    obtain ⟨rfl, hroom⟩ | ⟨rfl, ⟨g, hlisted, hg, hzero, hedit⟩, hless⟩ := hres
    · exact ⟨fun _ => hroom, fun hneg => absurd hneg (by decide)⟩
    refine ⟨fun hneg => absurd hneg (by decide), fun _ => ?_⟩
    have h₁ := hedit.ends.inUser h
    have hid : (k₁.envs cur).id = (k.envs cur).id := by rw [hedit.ends.1]
    obtain ⟨k₂, hrun₂, ⟨hsame, hcpus, hothers⟩, hstatus, hupcall⟩ :=
      sysEnvSetPgfaultUpcall_total upcall
        (hid ▸ h₁.self : k₁.envid2env cur (k.envs cur).id true = some cur) h₁.used
    rw [wp_bind, wp_ret (call_ret hrun₂), wp_check]
    refine ⟨fun hneg => absurd hneg (by decide), fun _ => ⟨hsame.inUser hcpus h₁, ?_⟩⟩
    have henvs : k₁.envs = k.envs := by rw [hedit.ends.1]
    refine ⟨fun slots => hsame.slotsFree ?_, ?_, hsame.dirs.trans hedit.ends.dirs, fun e => ?_,
      fun e => ?_, fun e he => ?_, fun _ => hupcall, ?_, fun e i j hne => ?_,
      fun _ => ⟨g, hlisted, hg, ?_, ?_⟩, fun e i j f hf => ?_, fun n hn => ?_⟩
    · rw [hedit.ends.1]
      exact slots
    · rw [hcpus, hedit.ends.1]
    · rw [hsame.id, henvs]
    · by_cases he : e = cur
      · rw [he, hstatus, Kernel.status, henvs, Kernel.status]
      · rw [Kernel.status, hothers e he, henvs, Kernel.status]
    · rw [hothers e fun heq => he ⟨hfirst, heq⟩, henvs]
    · rw [hsame.envFreeList, hedit.ends.1]
    · rw [hsame.pte, hedit.rest e i j fun heq => hne ⟨hfirst, heq⟩]
    · rw [hsame.pte, hedit.self]
      rfl
    · rw [hsame.phys, hzero]
    · rw [hsame.phys, hedit.mem e i j f hf]
    · rw [hsame.phys]
      exact hless n hn
  · exact ⟨h, id, rfl, rfl, fun _ => rfl, fun _ => rfl, fun _ _ => rfl,
      fun hfirst => absurd hfirst hlater, rfl, fun _ _ _ _ => rfl,
      fun hfirst => absurd hfirst hlater, fun _ _ _ _ _ => rfl, fun n hn => hn.mono (by omega)⟩

/-- A child without any pages. -/
structure ChildMade (L : Layout) (k : Kernel) (cur : EnvIdx) (childId : Word) (k' : Kernel) :
    Prop where
  slots : k'.SlotsFree
  cpus : k'.cpus = k.cpus
  head : k.envFreeList = some (envx childId)
  new : k.status (envx childId) = .free
  id : (k'.envs (envx childId)).id = childId
  hasChild : k'.HasChild cur (envx childId) childId
  envs : ∀ e, e ≠ envx childId → k'.envs e = k.envs e
  pte : ∀ e i j, k'.pte e i j = k.pte e i j
  contents : ∀ e i j f, k.phys.target k.dirs (.pte e i j) = some f → k'.phys.mem f = k.phys.mem f
  free : ∀ n, k.phys.FreePages (n + 1) → k'.phys.FreePages n

theorem sysExofork_total (h : InUser L c cur d k) (slots : k.SlotsFree) :
    (∃ r, sysExofork cur k = .ret r k ∧ r.slt 0 = true ∧
        ¬ (k.envFreeList ≠ none ∧ k.phys.FreePages 1)) ∨
      ∃ childId k', sysExofork cur k = .ret childId k' ∧ childId.slt 0 = false ∧ childId ≠ 0 ∧
        InUser L c cur d k' ∧ ChildMade L k cur childId k' := by
  cases head : k.envFreeList with
  | none => exact .inl ⟨_, sysExofork_noSlot head, by decide, fun hable => hable.1 rfl⟩
  | some e =>
      cases hpage : k.phys.pageFreeList with
      | none =>
          refine .inl ⟨_, sysExofork_noMem head hpage, by decide, fun hable => ?_⟩
          obtain ⟨f, hf⟩ := hable.2.head
          rw [hpage] at hf
          simp at hf
      | some f =>
          right
          have hfree := (slots.forked head 0 0 .zero).1
          have hne : cur ≠ e := by
            rintro rfl
            exact h.used hfree
          have hnone := (h.mem.live e).mp hfree
          have hlt := h.mem.phys.lt_npages (h.mem.phys.alloc hpage true).2.1.owned
          have hrun := sysExofork_run head hne hpage hlt h.mem.phys.npages_le
          have hslots := (slots.forked head (k.envs cur).id f ((k.envs cur).tf.setEax 0)).2
          rw [h.mem.kern] at hrun
          generalize hk' : ({ k.forked e (k.envs cur).id f ((k.envs cur).tf.setEax 0) with
            phys := k.phys.newDir L.kern f } : Kernel) = k' at hrun
          have hmem : MemInv L k' := hk' ▸ h.mem.newEnv hfree hpage rfl (by simp) _
          have hself : k'.envs e = (k.forked e (k.envs cur).id f
              ((k.envs cur).tf.setEax 0)).envs e := by rw [← hk']
          rw [Kernel.forked, Kernel.setEnv_envs_self] at hself
          have hother : ∀ e', e' ≠ e → k'.envs e' = k.envs e' := by
            intro e' he
            rw [← hk']
            exact Kernel.setEnv_envs_of_ne _ he
          have hdirs : k'.dirs = Function.update k.dirs e (some f) := by
            rw [← hk']
            exact Kernel.forked_dirs
          have hphys : k'.phys = k.phys.newDir L.kern f := by rw [← hk']
          have hid := envx_nextEnvId (k.envs e).id e
          refine ⟨_, k', hrun, nextEnvId_not_neg _ _, nextEnvId_ne_zero _ _,
            ⟨hmem, ?_, ?_, ?_, ?_⟩, ?_⟩
          · rw [Kernel.status, hother cur hne]
            exact h.used
          · rw [hdirs, Function.update_of_ne hne, h.dir]
          · rw [← hk']
            exact h.cr3
          · rw [hother cur hne, h.id]
          · refine ⟨by rw [← hk']; exact hslots, by rw [← hk']; rfl, by rw [hid]; exact head,
              by rw [hid]; exact hfree, by rw [hid, hself], ⟨by rw [hid]; exact hne.symm, ?_, ?_⟩, fun e' he => hother e' (by rwa [hid] at he),
              fun e' i j => ?_, fun e' i j p hp => ?_, fun n hn => ?_⟩
            · rw [hid, Kernel.status, hself]
              simp
            · rw [hid, Kernel.envid2env, if_neg (nextEnvId_ne_zero _ _)]
              dsimp only
              rw [hid, hself, hother cur hne, if_neg (by simp), if_neg (by simp)]
            · rw [Kernel.pte, hphys, hdirs, (h.mem.phys.newDir hpage hnone).2.1, Kernel.pte]
            · rw [hphys]
              exact (h.mem.phys.newDir hpage hnone).2.2 p fun hl =>
                h.mem.phys.listed_fresh hl _ hp
            · rw [hphys]
              exact newDir_freePages hn hpage

/-! ### The whole -/

/-- From `k` to `k'` the environment `cur` has forked. Its exception stack is the page `g`, and `g'`
is that of the child. -/
structure Forked (L : Layout) (k : Kernel) (cur : EnvIdx) (first : Bool) (upcall childId : Word)
    (g g' : Nat) (k' : Kernel) : Prop where
  mem : MemInv L k'
  slots : k'.SlotsFree
  cpus : k'.cpus = k.cpus
  head : k.envFreeList = some (envx childId)
  new : k.status (envx childId) = .free
  hasChild : k'.HasChild cur (envx childId) childId
  runnable : k'.status (envx childId) = .runnable
  status : ∀ e, e ≠ envx childId → k'.status e = k.status e
  handler : (k'.envs (envx childId)).pgfaultUpcall = upcall
  parentHandler : first = true → (k'.envs cur).pgfaultUpcall = upcall
  upcalls : ∀ e, e ≠ envx childId → ¬ (first = true ∧ e = cur) →
    (k'.envs e).pgfaultUpcall = (k.envs e).pgfaultUpcall
  dirs : ∀ e, e ≠ envx childId → k'.dirs e = k.dirs e
  ids : ∀ e, e ≠ envx childId → (k'.envs e).id = (k.envs e).id
  shared : ∀ i j, InLoop loopPages i j → k.pte cur i j &&& pteP ≠ 0 →
    k'.pte cur i j = parentPte (k.pte cur i j) ∧
      k'.pte (envx childId) i j = childPte (k.pte cur i j)
  bare : ∀ i j, ¬ (InLoop loopPages i j ∧ k.pte cur i j &&& pteP ≠ 0) →
    ¬ (i = stackPde ∧ j = stackPte) → k'.pte (envx childId) i j = 0
  rest : ∀ e i j, e ≠ envx childId →
    ¬ (e = cur ∧ InLoop loopPages i j ∧ k.pte cur i j &&& pteP ≠ 0) →
    ¬ (e = cur ∧ i = stackPde ∧ j = stackPte ∧ first = true) →
    ¬ (e = cur ∧ i = tempPde ∧ j = tempPte) → k'.pte e i j = k.pte e i j
  temp : k'.pte cur tempPde tempPte = 0
  stack : k'.pageAt cur uxstack = some g
  own : first = true → k'.pte cur stackPde stackPte = mkPte g stackPerm
  childStack : k'.pte (envx childId) stackPde stackPte = mkPte g' stackPerm ∧ g' < 1048576
  ne : g' ≠ g
  fresh : first = true → ∀ e i j, k.phys.target k.dirs (.pte e i j) ≠ some g
  childFresh : ∀ e i j, ¬ (e = cur ∧ i = stackPde ∧ j = stackPte ∧ first = true) →
    k.phys.target k.dirs (.pte e i j) ≠ some g'
  zero : ∀ off < 4096, k'.phys.mem g off = 0 ∧ k'.phys.mem g' off = 0
  contents : ∀ e i j f, ¬ (e = cur ∧ i = stackPde ∧ j = stackPte ∧ first = true) →
    ¬ (e = cur ∧ i = tempPde ∧ j = tempPte) → k.phys.target k.dirs (.pte e i j) = some f →
    f ≠ g → k'.phys.mem f = k.phys.mem f
  free : ∀ n, k.phys.FreePages (n + 2 * k.loopCount cur loopPages + 6) → k'.phys.FreePages n

/-- There are the pages and the slot that `fork` needs, and an exception stack to write. -/
def Kernel.Forkable (k : Kernel) (cur : EnvIdx) (first : Bool) : Prop :=
  k.phys.FreePages (2 * k.loopCount cur loopPages + 6) ∧ k.envFreeList ≠ none ∧
    (first = true ∨ k.StackWritable cur)

theorem loopPage_inLoop (hn : n < loopPages) : InLoop loopPages (loopPde n) (loopPte n) := by
  have hpage := (loopPage_iff (i := loopPde n) (j := loopPte n) hn).mpr ⟨rfl, rfl⟩
  rw [InLoop]
  omega

/-- The pages of the loop are the same. -/
theorem Kernel.loopCount_congr
    (h : ∀ i j, InLoop loopPages i j → k'.pte cur i j = k.pte cur i j) :
    k'.loopCount cur loopPages = k.loopCount cur loopPages := by
  rw [loopCount, loopCount, Nat.count_eq_card_filter_range, Nat.count_eq_card_filter_range]
  refine congrArg Finset.card (Finset.filter_congr fun n hn => ?_)
  rw [h _ _ (loopPage_inLoop (Finset.mem_range.mp hn))]

section

variable {first : Bool} {upcall : Word} {g g' : Nat} {k₂ k₃ k₄ k₅ k₆ : Kernel}

namespace StackReady

theorem loopCount (h : StackReady L k cur first upcall k') :
    k'.loopCount cur loopPages = k.loopCount cur loopPages :=
  Kernel.loopCount_congr fun i j hin => h.rest cur i j fun hs =>
    stack_not_inLoop (hs.2.2.1 ▸ hs.2.2.2 ▸ hin)

/-- The new exception stack takes no page of another mapping. -/
theorem loopFits (h : StackReady L k cur first upcall k') (hk : MemInv L k) (hfits : k.LoopFits cur) :
    k'.LoopFits cur := by
  intro f
  have hloop : k'.loopMappings cur loopPages f = k.loopMappings cur loopPages f := by
    ext ⟨i, j⟩
    simp only [Kernel.loopMappings, Set.mem_ofPred_eq, Kernel.mem_mappings, Kernel.target_pte]
    refine and_congr_left fun hin => ?_
    rw [h.rest cur i j fun hs => stack_not_inLoop (hs.2.2.1 ▸ hs.2.2.2 ▸ hin)]
  have hmax := hfits f
  rw [hloop]
  by_cases hfirst : first = true
  · obtain ⟨g, hlisted, hg, hstack, -⟩ := h.stack hfirst
    by_cases hfg : f = g
    · -- nothing else maps the new page
      subst hfg
      have hnone := hk.phys.listed_fresh hlisted
      have hsub : k'.mappings f ⊆ {(cur, stackPde, stackPte)} := by
        rintro ⟨e, i, j⟩ hmap
        rw [Set.mem_singleton_iff]
        by_contra hother
        rw [Kernel.mem_mappings, Kernel.target_pte, h.rest e i j (by simpa [hfirst] using hother)]
          at hmap
        exact hnone (.pte e i j) hmap
      have hempty : k.loopMappings cur loopPages f = ∅ := by
        rw [Set.eq_empty_iff_forall_notMem]
        rintro ⟨i, j⟩ hmap
        exact hnone _ (Kernel.mem_mappings.mp hmap.1)
      have hcard := Set.ncard_le_ncard hsub (Set.toFinite _)
      rw [Set.ncard_singleton] at hcard
      rw [hempty, Set.ncard_empty]
      omega
    · have hsub : k'.mappings f ⊆ k.mappings f := by
        rintro ⟨e, i, j⟩ hmap
        rw [Kernel.mem_mappings, Kernel.target_pte] at hmap
        by_cases hs : first = true ∧ e = cur ∧ i = stackPde ∧ j = stackPte
        · obtain ⟨-, rfl, rfl, rfl⟩ := hs
          rw [hstack, entryFrame_mkPte hg (by decide)] at hmap
          exact absurd (Option.some.inj hmap).symm hfg
        · rw [h.rest e i j hs] at hmap
          exact Kernel.mem_mappings.mpr hmap
      exact (Nat.add_le_add_right (Set.ncard_le_ncard hsub (Set.toFinite _)) _).trans hmax
  · have hsame : k'.mappings f = k.mappings f := by
      ext ⟨e, i, j⟩
      rw [Kernel.mem_mappings, Kernel.mem_mappings, Kernel.target_pte, Kernel.target_pte,
        h.rest e i j fun hs => hfirst hs.1]
    rwa [hsame]

/-- The exception stack is as it was, or a new page. -/
theorem writable (h : StackReady L k cur first upcall k') (able : first = true ∨ k.StackWritable cur) :
    k'.StackWritable cur := by
  by_cases hfirst : first = true
  · obtain ⟨g, -, hg, hstack, -⟩ := h.stack hfirst
    have hentry : k'.entryAt cur uxstack = mkPte g stackPerm := hstack
    refine ⟨⟨g, ?_⟩, ?_⟩
    · exact (congrArg entryFrame hstack).trans (entryFrame_mkPte hg (by decide))
    · rw [hentry]
      exact stackPerm_user g
  · have hsame : k'.pte cur stackPde stackPte = k.pte cur stackPde stackPte :=
      h.rest _ _ _ fun hs => hfirst hs.1
    obtain ⟨⟨g, hg⟩, hpte⟩ := able.resolve_left hfirst
    refine ⟨⟨g, (congrArg entryFrame hsame).trans hg⟩, ?_⟩
    rw [show k'.entryAt cur uxstack = k.entryAt cur uxstack from hsame]
    exact hpte

end StackReady

/-- What the steps of `fork` make together. -/
theorem forked_of_steps (h : MemInv L k) (h₃ : MemInv L k₃) (hmem : MemInv L k₆)
    (hready : StackReady L k cur first upcall k₁)
    (hmade : ChildMade L k₁ cur childId k₂)
    (hdup : Dupping L k₂ cur (envx childId) loopPages k₃)
    (hset : StackSetUp L k₃ cur (envx childId) g g' k₄)
    (hup : k₄.Sets (envx childId) k₅ ∧ (k₅.envs (envx childId)).pgfaultUpcall = upcall)
    (hrun : k₅.Sets (envx childId) k₆ ∧ k₆.status (envx childId) = .runnable ∧
      (k₆.envs (envx childId)).pgfaultUpcall = (k₅.envs (envx childId)).pgfaultUpcall) :
    Forked L k cur first upcall childId g g' k₆ := by
  have hnew : k.status (envx childId) = .free := (hready.status _).symm.trans hmade.new
  have hne : envx childId ≠ cur := hmade.hasChild.ne
  have hsame₃ : k₃.envs = k₂.envs ∧ k₃.cpus = k₂.cpus := by rw [hdup.ends.1]; exact ⟨rfl, rfl⟩
  have hsame₄ : k₄.envs = k₃.envs ∧ k₄.cpus = k₃.cpus := by rw [hset.ends.1]; exact ⟨rfl, rfl⟩
  have hpte : ∀ e i j, k₆.pte e i j = k₄.pte e i j := fun e i j => by rw [hrun.1.same.pte, hup.1.same.pte]
  have hbare : ∀ i j, k.pte (envx childId) i j = 0 := fun i j =>
    Phys.pteAt_of_noDir ((h.live _).mp hnew)
  -- from `k` to `k₂` only the exception stack of the parent changes
  have hpte₂ : ∀ e i j, ¬ (e = cur ∧ i = stackPde ∧ j = stackPte ∧ first = true) →
      k₂.pte e i j = k.pte e i j := by
    intro e i j hs
    rw [hmade.pte, hready.rest e i j fun heq => hs ⟨heq.2.1, heq.2.2.1, heq.2.2.2, heq.1⟩]
  have hloop₂ : ∀ e i j, InLoop loopPages i j → k₂.pte e i j = k.pte e i j := fun e i j hin =>
    hpte₂ e i j fun hs => stack_not_inLoop (hs.2.1 ▸ hs.2.2.1 ▸ hin)
  -- nobody but the child loses a page, apart from the two pages that are mapped anew
  have htarget : ∀ {e i j f}, ¬ (e = cur ∧ i = stackPde ∧ j = stackPte ∧ first = true) →
      k.phys.target k.dirs (.pte e i j) = some f →
      e ≠ envx childId ∧ k₂.phys.target k₂.dirs (.pte e i j) = some f ∧
        k₃.phys.target k₃.dirs (.pte e i j) = some f := by
    intro e i j f hs hf
    have he : e ≠ envx childId := by
      rintro rfl
      rw [Kernel.target_pte, hbare] at hf
      simp [entryFrame_zero] at hf
    have hf₂ : k₂.phys.target k₂.dirs (.pte e i j) = some f :=
      (congrArg entryFrame (hpte₂ e i j hs)).trans hf
    exact ⟨he, hf₂, hdup.target he hf₂⟩
  have henvs : ∀ e, e ≠ envx childId → k₆.envs e = k₁.envs e := by
    intro e he
    rw [hrun.1.others e he, hup.1.others e he, hsame₄.1, hsame₃.1, hmade.envs e he]
  have hstack₃ : k₃.pte cur stackPde stackPte = k₁.pte cur stackPde stackPte := by
    rw [hdup.rest _ _ _ fun hs => stack_not_inLoop hs.2.1, hmade.pte]
  have hnew' : first = true → k.phys.Listed g ∧ g < 1048576 ∧
      k₁.pte cur stackPde stackPte = mkPte g stackPerm := by
    intro hfirst
    obtain ⟨p, hlisted, hlt, hp, -⟩ := hready.stack hfirst
    have hgp : some p = some g := by
      have hword : entryFrame (mkPte p stackPerm) = some p := entryFrame_mkPte hlt (by decide)
      rw [← hword, ← hp, ← hstack₃]
      exact hset.stack
    obtain rfl := Option.some.inj hgp
    exact ⟨hlisted, hlt, hp⟩
  have hnotChild : ∀ {i j}, ¬ (cur = envx childId ∧ i = stackPde ∧ j = stackPte) :=
    fun heq => hne heq.1.symm
  refine ⟨hmem, ?_, ?_, hready.envFreeList.symm.trans hmade.head, hnew, ?_, hrun.2.1, fun e he => ?_, hrun.2.2.trans hup.2, fun hfirst => ?_,
    fun e he hother => ?_, fun e he => ?_, fun e he => ?_, fun i j hin hp => ?_,
    fun i j hno hs => ?_, fun e i j he hno hs ht => ?_, ?_, ?_, fun hfirst => ?_, ?_,
    hset.ne, fun hfirst e i j => ?_, fun e i j hs hf => ?_, ?_, fun e i j f hs ht hf hfg => ?_,
    fun n hn => ?_⟩
  · refine hrun.1.same.slotsFree (hup.1.same.slotsFree ?_)
    rw [hset.ends.1, hdup.ends.1]
    exact hmade.slots
  · rw [hrun.1.cpus, hup.1.cpus, hsame₄.2, hsame₃.2, hmade.cpus, hready.cpus]
  · exact hrun.1.same.hasChild (hup.1.same.hasChild
      (hset.ends.hasChild (hdup.ends.hasChild hmade.hasChild)))
  · rw [Kernel.status, henvs e he]
    exact hready.status e
  · rw [henvs cur hne.symm, hready.handler hfirst]
  · rw [henvs e he, hready.upcalls e hother]
  · rw [hrun.1.same.dirs, hup.1.same.dirs, hset.ends.dirs, hdup.ends.dirs, ← hready.dirs]
    exact congrArg Env.pgdir (hmade.envs e he)
  · rw [henvs e he, hready.ids]
  · have htemp : ∀ {e}, ¬ (e = cur ∧ i = tempPde ∧ j = tempPte) := fun heq =>
      temp_not_inLoop (heq.2.1 ▸ heq.2.2 ▸ hin)
    have hstack : ¬ (envx childId = envx childId ∧ i = stackPde ∧ j = stackPte) := fun heq =>
      stack_not_inLoop (heq.2.1 ▸ heq.2.2 ▸ hin)
    obtain ⟨hparent, hchild⟩ := hdup.shared i j hin (by rwa [hloop₂ cur i j hin])
    rw [hpte, hpte, hset.rest _ _ _ hnotChild htemp, hset.rest _ _ _ hstack htemp, hparent,
      hchild, hloop₂ cur i j hin]
    exact ⟨rfl, rfl⟩
  · rw [hpte, hset.rest _ _ _ (fun heq => hs heq.2) (fun heq => hne heq.1),
      hdup.rest _ _ _ fun heq => hno ⟨heq.2.1, by rw [← hloop₂ cur i j heq.2.1]; exact heq.2.2⟩,
      hpte₂ _ _ _ fun heq => hne heq.1, hbare]
  · rw [hpte, hset.rest _ _ _ (fun heq => he heq.1) ht, hdup.rest, hpte₂ _ _ _ hs]
    rintro ⟨hcur, hin, hp⟩
    rw [hloop₂ cur i j hin] at hp
    exact hno ⟨hcur.resolve_right he, hin, hp⟩
  · rw [hpte, hset.temp]
  · refine (congrArg entryFrame ?_).trans hset.stack
    change k₆.pte cur stackPde stackPte = k₃.pte cur stackPde stackPte
    rw [hpte, hset.rest _ _ _ hnotChild fun heq => stack_ne_temp heq.2.1]
  · obtain ⟨p, -, hp⟩ := hnew' hfirst
    rw [hpte, hset.rest _ _ _ hnotChild fun heq => stack_ne_temp heq.2.1, hstack₃, hp]
  · rw [hpte, hset.own]
    exact ⟨rfl, hset.fresh.2⟩
  · obtain ⟨hlisted, -⟩ := hnew' hfirst
    exact h.phys.listed_fresh hlisted _
  · exact h₃.phys.listed_fresh hset.fresh.1 _ (htarget hs hf).2.2
  · rw [hrun.1.same.phys, hup.1.same.phys]
    exact hset.zero
  · obtain ⟨he, hf₂, hf₃⟩ := htarget hs hf
    have hf₁ : k₁.phys.target k₁.dirs (.pte e i j) = some f := by
      rw [Kernel.target_pte, ← hmade.pte]
      exact hf₂
    rw [hrun.1.same.phys, hup.1.same.phys, hset.mem e i j f (fun heq => he heq.1) ht hf₃ hfg,
      hdup.mem e i j f he hf₂, hmade.contents e i j f hf₁, hready.contents e i j f hf]
  · rw [hrun.1.same.phys, hup.1.same.phys]
    refine hset.free n (hdup.free (n + 3) ?_)
    rw [Kernel.loopCount_congr fun i j _ => hmade.pte cur i j, hready.loopCount]
    exact hmade.free _ (hready.free _ (hn.mono (by omega)))

/-- `fork` succeeds wherever it has the pages, the slot and the exception stack for it. -/
theorem fork_spec (h : InUser L c cur d k) (slots : k.SlotsFree) (hfits : k.LoopFits cur)
    (first : Bool) (upcall : Word) :
    wp (fork c cur first upcall)
      (fun childId k' => InUser L c cur d k' ∧ ∃ g g', Forked L k cur first upcall childId g g' k')
      (fun _ _ => ¬ k.Forkable cur first) (fun _ => False) k := by
  rw [fork, wp_bind]
  refine wp_mono (setPgfaultHandler_spec h first upcall) (fun _ k₁ hk₁ => ?_)
    (fun _ _ hroom hable => hroom (hable.1.mono (by omega))) (fun _ hf => hf)
  obtain ⟨h₁, hready⟩ := hk₁
  obtain ⟨r, hrun, hneg, hunable⟩ | ⟨childId, k₂, hrun, hpos, hzero, h₂, hmade⟩ :=
    sysExofork_total h₁ (hready.slots slots)
  · rw [wp_bind, wp_ret (call_ret hrun), wp_bind, wp_check]
    refine ⟨fun _ hable => hunable ⟨?_, hready.free 1 (hable.1.mono (by omega))⟩, fun hpos => ?_⟩
    · rw [hready.envFreeList]
      exact hable.2.1
    · rw [hneg] at hpos
      exact absurd hpos (by decide)
  have hfree : k.Forkable cur first →
      k₂.phys.FreePages (2 * k.loopCount cur loopPages + 3) := fun hable =>
    hmade.free _ (hready.free _ (hable.1.mono (by omega)))
  have hcount : k₂.loopCount cur loopPages = k.loopCount cur loopPages := by
    rw [← hready.loopCount]
    exact Kernel.loopCount_congr fun i j _ => hmade.pte cur i j
  have hfits₂ : k₂.LoopFits cur := by
    have hsame : ∀ f, k₂.mappings f = k₁.mappings f := by
      intro f
      ext ⟨e, i, j⟩
      rw [Kernel.mem_mappings, Kernel.mem_mappings, Kernel.target_pte, Kernel.target_pte, hmade.pte]
    intro f
    rw [Kernel.loopMappings, hsame]
    exact hready.loopFits h.mem hfits f
  rw [wp_bind, wp_ret (call_ret hrun), wp_bind, wp_check]
  refine ⟨fun hneg => absurd (hneg.symm.trans hpos) (by decide), fun _ => ?_⟩
  rw [if_neg hzero, wp_bind]
  refine wp_mono (dupPages_spec h₂ hmade.hasChild hfits₂) (fun _ k₃ hdup => ?_)
    (fun _ _ hroom hable => hroom ((hfree hable).mono (by omega))) (fun _ hf => hf)
  have h₃ := hdup.ends.inUser h₂
  rw [wp_bind]
  refine wp_mono (copyStack_spec h₃ (hdup.ends.hasChild hmade.hasChild)) (fun _ k₄ hk₄ => ?_)
    (fun _ _ hunable hable => hunable ⟨hdup.free 3 ?_, ?_⟩) (fun _ hf => hf)
  rotate_left
  · rw [hcount, Nat.add_comm]
    exact hfree hable
  · have hwritable := hready.writable hable.2.2
    have hstack₃ : k₃.pte cur stackPde stackPte = k₁.pte cur stackPde stackPte := by
      rw [hdup.rest _ _ _ fun hs => stack_not_inLoop hs.2.1, hmade.pte]
    obtain ⟨⟨g, hg⟩, hpte⟩ := hwritable
    refine ⟨⟨g, (congrArg entryFrame hstack₃).trans hg⟩, ?_⟩
    rw [show k₃.entryAt cur uxstack = k₁.entryAt cur uxstack from hstack₃]
    exact hpte
  obtain ⟨g, g', hset⟩ := hk₄
  have h₄ := hset.ends.inUser h₃
  have hchild₄ := hset.ends.hasChild (hdup.ends.hasChild hmade.hasChild)
  obtain ⟨k₅, hrun₅, hup⟩ := sysEnvSetPgfaultUpcall_total upcall hchild₄.target
    hchild₄.used
  have hchild₅ := hup.1.same.hasChild hchild₄
  obtain ⟨k₆, hrun₆, hstatus⟩ := sysEnvSetStatus_total
    (show statusArg 2 = some .runnable by decide) hchild₅.target hchild₅.used
  rw [wp_bind, wp_ret (call_ret hrun₅), wp_bind, wp_check]
  refine ⟨fun hneg => absurd hneg (by decide), fun _ => ?_⟩
  rw [wp_bind, wp_ret (call_ret hrun₆), wp_bind, wp_check]
  refine ⟨fun hneg => absurd hneg (by decide), fun _ => ?_⟩
  rw [wp_pure]
  have h₆ := hstatus.1.same.inUser hstatus.1.cpus (hup.1.same.inUser hup.1.cpus h₄)
  exact ⟨h₆, g, g', forked_of_steps h.mem h₃.mem h₆.mem hready hmade hdup hset ⟨hup.1, hup.2.2⟩
    hstatus⟩

end

/-! ### The first environment -/

namespace FirstRuns

theorem inUser (h : FirstRuns d k) (hmem : MemInv L k) : InUser L 0 0 d k := by
  refine ⟨hmem, ?_, h.executes.pgdir, by rw [h.executes.cpu], by rw [h.id]; decide⟩
  rw [h.executes.running]
  decide

/-- There are the page of the program and the stack. -/
theorem target_cases (h : FirstRuns d k) {e : EnvIdx}
    (hf : k.phys.target k.dirs (.pte e i j) = some f) :
    (e, i, j) ∈ ({(0, 2, 0), (0, 954, 1021)} : Set (EnvIdx × Idx × Idx)) := by
  have hnone : entryFrame 0 = none := entryFrame_zero
  have he : e = 0 := by
    by_contra he
    have hdir : k.dirs e = none := congrArg Env.pgdir (h.others e he)
    rw [Phys.target, Phys.pteAt_of_noDir hdir, hnone] at hf
    simp at hf
  subst he
  have hused : pageNumber i j = 2048 ∨ pageNumber i j = stackPage := by
    by_contra hno
    rw [not_or] at hno
    rw [Phys.target, h.unmapped i j hno.1 hno.2, hnone] at hf
    simp at hf
  rw [pageNumber, stackPage] at hused
  have hj := j.isLt
  obtain hpage | hpage := hused
  · left
    rw [show i = 2 from Fin.ext (by change i.val = 2; omega),
      show j = 0 from Fin.ext (by change j.val = 0; omega)]
  · right
    rw [show i = 954 from Fin.ext (by change i.val = 954; omega),
      show j = 1021 from Fin.ext (by change j.val = 1021; omega)]
    rfl

theorem loopFits (h : FirstRuns d k) : k.LoopFits 0 := by
  intro f
  have hmappings : (k.mappings f).ncard ≤ 2 := by
    refine (Set.ncard_le_ncard (t := {(0, 2, 0), (0, 954, 1021)}) ?_ (Set.toFinite _)).trans
      ((Set.ncard_insert_le _ _).trans (by rw [Set.ncard_singleton]))
    rintro ⟨e, i, j⟩ hmap
    exact h.target_cases (Kernel.mem_mappings.mp hmap)
  have hloop : (k.loopMappings 0 loopPages f).ncard ≤ 2 := by
    refine (Set.ncard_le_ncard (t := {(2, 0), (954, 1021)}) ?_ (Set.toFinite _)).trans
      ((Set.ncard_insert_le _ _).trans (by rw [Set.ncard_singleton]))
    rintro ⟨i, j⟩ ⟨hmap, -⟩
    have hcases := h.target_cases (Kernel.mem_mappings.mp hmap)
    simpa using hcases
  omega

theorem loopCount (h : FirstRuns d k) : k.loopCount 0 loopPages ≤ 2 := by
  rw [Kernel.loopCount, Nat.count_eq_card_filter_range]
  refine (Finset.card_le_card (t := {0, 975869}) fun n hn => ?_).trans (Finset.card_insert_le _ _)
  obtain ⟨hlt, hp⟩ := Finset.mem_filter.mp hn
  have hcases := h.target_cases (Kernel.pte_present hp)
  have hpage := (loopPage_iff (i := loopPde n) (j := loopPte n) (Finset.mem_range.mp hlt)).mpr
    ⟨rfl, rfl⟩
  rw [pageNumber, pgnum_utext] at hpage
  rw [Finset.mem_insert, Finset.mem_singleton]
  obtain heq | heq := hcases
  · have hij := Prod.mk.inj (Prod.mk.inj heq).2
    rw [hij.1, hij.2] at hpage
    change 2 * 1024 + 0 = 2048 + n at hpage
    omega
  · have hij := Prod.mk.inj (Prod.mk.inj heq).2
    rw [hij.1, hij.2] at hpage
    change 954 * 1024 + 1021 = 2048 + n at hpage
    omega

/-- It can fork, and 32 pages remain. -/
theorem forkable (h : FirstRuns d k) : k.Forkable 0 true ∧
    k.phys.FreePages (32 + 2 * k.loopCount 0 loopPages + 6) := by
  have hcount := h.loopCount
  refine ⟨⟨h.free.mono (by omega), ?_, .inl rfl⟩, h.free.mono (by omega)⟩
  rw [h.slots]
  simp

end FirstRuns

/-- A run to the first environment, which has not forked yet. -/
theorem qemu_first : ∃ k₀ k d L, Booted qemu [intProgram] k₀ ∧ Run SafeStep k₀ k ∧
    FirstRuns d k ∧ MemInv L k ∧ k.SlotsFree := by
  obtain ⟨k₀, k, d, -, hbooted, hrun, hruns, -, -⟩ := qemu_runs
  obtain ⟨L, -, -, hmem, hex⟩ := hbooted.run hrun
  exact ⟨k₀, k, d, L, hbooted, hrun, hruns, hmem, hex.slots⟩

/-- `fork` returns if it can. -/
theorem Kernel.Forkable.returns {first : Bool} (able : k.Forkable cur first)
    (h : InUser L c cur d k) (slots : k.SlotsFree) (fits : k.LoopFits cur) (upcall : Word) :
    ∃ childId k', fork c cur first upcall k = .ret childId k' ∧
      ∃ g g', Forked L k cur first upcall childId g g' k' := by
  have hspec := fork_spec h slots fits first upcall
  cases hrun : fork c cur first upcall k with
  | ret childId k' =>
      rw [wp_ret hrun] at hspec
      exact ⟨childId, k', rfl, hspec.2⟩
  | exit why k' =>
      rw [wp_exit_eq hrun] at hspec
      exact absurd able hspec
  | panic why =>
      rw [wp_panic_eq hrun] at hspec
      exact hspec.elim

theorem Forked.of_run {first : Bool} {upcall : Word} (h : InUser L c cur d k) (slots : k.SlotsFree)
    (fits : k.LoopFits cur) (run : fork c cur first upcall k = .ret childId k') :
    InUser L c cur d k' ∧ ∃ g g', Forked L k cur first upcall childId g g' k' := by
  have hspec := fork_spec h slots fits first upcall
  rwa [wp_ret run] at hspec

end Jos
