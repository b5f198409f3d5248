import Jos.Safety.EnvTable
import Jos.Safety.Receipts

/-!
# What a new environment inherits

`env_alloc` reuses a slot of `envs[]`, a `struct Env` that earlier environments have left
their traces in. It overwrites the registers, the status and the upcall and builds a new
address space, but not the `env_ipc_*` fields: the line that would reset
`env_ipc_recving` is commented out. Nothing else survives.
-/

namespace Jos

open Prog

/-- Nothing that the environment in the slot `e` starts with tells `k` and `k'` apart, the
generation in its id excepted. -/
structure StartsAlike (e : EnvIdx) (k k' : Kernel) : Prop where
  slot : envx (k.envs e).id = envx (k'.envs e).id
  parentId : (k.envs e).parentId = (k'.envs e).parentId
  tf : (k.envs e).tf = (k'.envs e).tf
  status : k.status e = k'.status e
  type : (k.envs e).type = (k'.envs e).type
  runs : (k.envs e).runs = (k'.envs e).runs
  pgfaultUpcall : (k.envs e).pgfaultUpcall = (k'.envs e).pgfaultUpcall
  ipcRecving : (k.envs e).ipcRecving = (k'.envs e).ipcRecving
  ipcDstva : (k.envs e).ipcDstva = (k'.envs e).ipcDstva
  ipcValue : (k.envs e).ipcValue = (k'.envs e).ipcValue
  ipcFrom : (k.envs e).ipcFrom = (k'.envs e).ipcFrom
  ipcPerm : (k.envs e).ipcPerm = (k'.envs e).ipcPerm
  pgdir : ∃ d d', (k.envs e).pgdir = some d ∧ (k'.envs e).pgdir = some d' ∧
    ∀ i, i < pdx utop → k.phys.word d i = k'.phys.word d' i

variable {m : Machine} {binaries : List Binary} {k₀ k k' k₁ k₂ j₁ j₂ l₁ l₂ : Kernel}
  {L : Layout} {e : EnvIdx} {parentId : Word}

theorem StartsAlike.inbox (h : StartsAlike e k k') : k.inbox e = k'.inbox e := by
  rw [Kernel.inbox, Env.inbox, h.ipcRecving, h.ipcDstva, h.ipcValue, h.ipcFrom, h.ipcPerm]
  rfl

theorem Kernel.Like.inbox (h : k.Like k') (e : EnvIdx) : k'.inbox e = k.inbox e :=
  h.field (f := Env.inbox) (fun _ => rfl) e

theorem MemInv.like (h : MemInv L k) (hl : k.Like k') : MemInv L k' :=
  h.congr hl.phys hl.kernPgdir hl.dirs fun e => by rw [hl.status]

/-- The kernel's own page directory never changes. -/
theorem MemInv.kern_word (h : MemInv L k) (h' : MemInv L k') (i : Idx) :
    k'.phys.word k'.kernPgdir i = k.phys.word k.kernPgdir i := by
  rw [h.kern, h'.kern]
  refine Phys.word_congr _ ?_
  rw [h.phys.tables.frozen L.kern L.kern_reserved, h'.phys.tables.frozen L.kern L.kern_reserved]

/-- The user half of a new address space is that of the kernel's directory. -/
theorem MemInv.envAlloc_words (h : MemInv L k)
    (run : envAlloc parentId k = .ret (.ok e) k') :
    ∃ d, (k'.envs e).pgdir = some d ∧
      ∀ i, i < pdx utop → k'.phys.word d i = k.phys.word k.kernPgdir i := by
  obtain ⟨d, -, -, howned, rfl⟩ := h.envAlloc_ret run
  refine ⟨d, by simp [Kernel.created], fun i hi => Phys.newDir_word ?_ ?_⟩
  · rintro rfl
    exact L.kern_reserved (h.kern ▸ howned)
  · rintro rfl
    exact absurd hi (by decide)

/-- Two environments that follow in the same slot after any two histories start alike
exactly if these left the same `env_ipc_*` fields behind. -/
theorem env_alloc_clean_iff (booted : Booted m binaries k₀)
    (run₁ : Run SafeStep k₀ k₁) (run₂ : Run SafeStep k₀ k₂)
    (call₁ : k₁.Like j₁) (call₂ : k₂.Like j₂)
    (alloc₁ : envAlloc parentId j₁ = .ret (.ok e) l₁)
    (alloc₂ : envAlloc parentId j₂ = .ret (.ok e) l₂) :
    StartsAlike e l₁ l₂ ↔ k₁.inbox e = k₂.inbox e := by
  obtain ⟨L₁, -, h₀, h₁, -⟩ := booted.run run₁
  obtain ⟨L₂, -, h₀', h₂, -⟩ := booted.run run₂
  have hinbox₁ : l₁.inbox e = k₁.inbox e :=
    (congrFun (envAlloc_keepsInbox.ret alloc₁) e).trans (call₁.inbox e)
  have hinbox₂ : l₂.inbox e = k₂.inbox e :=
    (congrFun (envAlloc_keepsInbox.ret alloc₂) e).trans (call₂.inbox e)
  rw [← hinbox₁, ← hinbox₂]
  constructor
  · exact StartsAlike.inbox
  · intro hinbox
    obtain ⟨d₁, hd₁, hword₁⟩ := (h₁.like call₁).envAlloc_words alloc₁
    obtain ⟨d₂, hd₂, hword₂⟩ := (h₂.like call₂).envAlloc_words alloc₂
    obtain ⟨f₁, -, -, -, rfl⟩ := (h₁.like call₁).envAlloc_ret alloc₁
    obtain ⟨f₂, -, -, -, rfl⟩ := (h₂.like call₂).envAlloc_ret alloc₂
    simp only [Kernel.inbox, Env.inbox, Inbox.mk.injEq] at hinbox
    obtain ⟨recving, dstva, value, sender, perm⟩ := hinbox
    refine ⟨?_, ?_, ?_, ?_, ?_, ?_, ?_, recving, dstva, value, sender, perm, d₁, d₂, hd₁, hd₂,
      fun i hi => ?_⟩
    · simp [Kernel.created, envx_nextEnvId]
    · simp [Kernel.created]
    · simp [Kernel.created]
    · simp [Kernel.created, Kernel.status]
    · simp [Kernel.created]
    · simp [Kernel.created]
    · simp [Kernel.created]
    · rw [hword₁ i hi, hword₂ i hi, h₀.kern_word (h₁.like call₁), h₀'.kern_word (h₂.like call₂)]

section Occupants

theorem Kernel.Like.released (h : k.Like k') (e : EnvIdx) :
    (k.released e).Like (k'.released e) := by
  have hcore : Env.core { k'.envs e with pgdir := none, status := .free, link := k'.envFreeList } =
      Env.core { k.envs e with pgdir := none, status := .free, link := k.envFreeList } := by
    rw [h.envFreeList]
    exact congrArg (fun env : Env => { env with
      pgdir := none, status := .free, link := k.envFreeList }) (h.envs e)
  have hlike := h.setEnv (e := e) hcore
  exact ⟨hlike.phys, hlike.kernPgdir, hlike.envs, rfl, hlike.cpus⟩

variable {d d' n : Nat} {st : EnvStatus}

/-- The parent destroys a child that has nothing mapped and is not running. -/
theorem Family.freesBare (h : Family d d' n st k) (hmem : MemInv L k) (live : st ≠ .free)
    (idle : st ≠ .running) (bare : ∀ i, i < pdx utop → k.phys.word d' i &&& pteP = 0) :
    ∃ k', Step k (.trap 0 (callFrame .envDestroy 0x1001 0 0 0 0) 0 0) k' ∧
      ({ k.released 1 with phys := k.phys.drop d' } : Kernel).Like k' := by
  let tf := callFrame .envDestroy 0x1001 0 0 0 0
  have h₁ : Family d d' n st (k.setTf 0 tf) := h.setTf
  have hown : (k.setTf 0 tf).curenv 0 ≠ some 1 := by
    rw [h₁.parent.own]
    decide
  have htarget : k.phys.target k.dirs (.dir 1) = some d' := h.pgdir
  have howned := hmem.phys.tables.dir_owned (e := 1) h.pgdir
  have hlink := hmem.phys.counts.link_of_not_listed howned
    (hmem.phys.counts.not_listed_of_ref (hmem.phys.counts.ref_ne_zero howned htarget))
  have hfree : envFree 0 1 (k.setTf 0 tf) = .ret ()
      { (k.setTf 0 tf).released 1 with phys := k.phys.drop d' } := by
    rw [envFree_empty h₁.pgdir (fun i => ?_) (hmem.phys.lt_npages howned) hmem.phys.npages_le
      hlink, if_neg hown]
    · rfl
    · by_cases hi : i < pdx utop
      · exact .inl (bare i hi)
      · exact .inr hi
  have hdestroy : envDestroy 0 1 (k.setTf 0 tf) = .ret ()
      { (k.setTf 0 tf).released 1 with phys := k.phys.drop d' } := by
    rw [envDestroy, get_bind, if_neg (fun hr => idle (h₁.child.symm.trans hr.1)),
      bind_ret _ hfree]
    exact congrFun (when_neg _ hown) _
  refine (h.destroys live hdestroy ?_).imp fun k' hk => ⟨hk.1, .trans ?_ hk.2⟩
  · have hzero : ((k.setTf 0 tf).released 1).envs 0 = (k.setTf 0 tf).envs 0 :=
      Kernel.released_envs_of_ne (by decide)
    exact ⟨h₁.parent.unlocked, h₁.parent.cpu, (congrArg Env.status hzero).trans h₁.parent.running,
      (congrArg Env.pgdir hzero).trans h₁.parent.pgdir⟩
  · have hlike : (k.released 1).Like ((k.setTf 0 tf).released 1) := (Kernel.Like.setTf k 0 tf).released 1
    exact ⟨rfl, hlike.kernPgdir, hlike.envs, hlike.envFreeList, hlike.cpus⟩

/-- The slot and the page directory of such a child are the next ones to be used. -/
theorem Family.recycles (h : Family d d' n st k) (hmem : MemInv L k) (live : st ≠ .free)
    (running : st ≠ .running) (idle : ∀ c, c ≠ 0 → k.curenv c ≠ some 1)
    (bare : ∀ i, i < pdx utop → k.phys.word d' i &&& pteP = 0) (hlast : k.phys.ref d' = 1) :
    ∃ k', SafeStep k (.trap 0 (callFrame .envDestroy 0x1001 0 0 0 0) 0 0) ∧
      Step k (.trap 0 (callFrame .envDestroy 0x1001 0 0 0 0) 0 0) k' ∧ k'.envFreeList = some 1 ∧
      k'.phys.pageFreeList = some d' ∧ k'.inbox 1 = k.inbox 1 := by
  have hsafe : SafeStep k (.trap 0 (callFrame .envDestroy 0x1001 0 0 0 0) 0 0) := by
    refine .destroy (callFrame_calls _ _ _ _ _ _) fun cur e enters target ⟨c, hc, hruns⟩ => ?_
    obtain rfl : 0 = cur := Option.some.inj (h.parent.own.symm.trans enters.1)
    obtain rfl : 1 = e := Option.some.inj ((h.target live true).symm.trans target)
    exact absurd hruns.2 (idle c hc)
  obtain ⟨k', hstep, hlike⟩ := h.freesBare hmem live running bare
  refine ⟨k', hsafe, hstep, hlike.envFreeList, ?_, ?_⟩
  · have hzero : (k.phys.setRef d' (k.phys.ref d' - 1)).ref d' = 0 := by
      rw [Phys.setRef_ref_self, hlast]
      decide
    rw [hlike.phys]
    change (k.phys.drop d').pageFreeList = some d'
    rw [Phys.drop, if_pos hzero]
  · rw [hlike.inbox]
    have hsame : (k.setEnv 1 { k.envs 1 with
        pgdir := none, status := .free, link := k.envFreeList }).inbox = k.inbox :=
      Kernel.inbox_setEnv rfl
    exact congrFun hsame 1

/-- Other system calls than the two of the message system leave all messages alone. -/
theorem Kernel.Executes.keepsInbox {c : Nat} {tf : Trapframe} {cr2 input : Word} {call : SysCall}
    (h : k.Executes c e d) (hstep : Step k (.trap c tf cr2 input) k') (hcall : tf.Calls call)
    (hsend : call ≠ .ipcTrySend) (hrecv : call ≠ .ipcRecv) : k'.inbox = k.inbox := by
  have hmode : k.mode c = .user := h.mode
  cases hstep.ipcStep (fun hparked => by simp [Event.cpu, hmode] at hparked) with
  | quiet _ _ same => exact same
  | send sends => exact absurd (hcall.unique sends.call) hsend
  | receive receives => exact absurd (hcall.unique receives.call) hrecv

/-- The directory that a fork leaves to the child is empty and has one reference. -/
theorem Phys.newDir_bare (hmem : MemInv L k) (head : k.phys.pageFreeList = some d') :
    (∀ i, i < pdx utop → (k.phys.newDir k.kernPgdir d').word d' i &&& pteP = 0) ∧
      (k.phys.newDir k.kernPgdir d').ref d' = 1 := by
  have howned := (hmem.phys.alloc head true).2.1.owned
  have hlisted : k.phys.Listed d' := by
    rw [Phys.Listed, head]
    exact .here d'
  refine ⟨fun i hi => ?_, ?_⟩
  · rw [hmem.kern, Phys.newDir_word]
    · rw [Phys.word_congr _ (hmem.phys.tables.frozen L.kern L.kern_reserved)]
      exact L.kern_empty i hi
    · rintro rfl
      exact L.kern_reserved howned
    · rintro rfl
      exact absurd hi (by decide)
  · have hzero := (hmem.phys.counts.ref_of_listed hlisted).2
    change ((k.phys.alloc d' true).setRef d' ((k.phys.alloc d' true).ref d' + 1)).ref d' = 1
    rw [Phys.setRef_ref_self]
    have htake : (k.phys.take d').ref = k.phys.ref := Phys.setLink_ref _ _
    change (k.phys.take d').ref d' + 1 = 1
    rw [htake, hzero]
    decide

end Occupants

/-- The first environment forks. -/
theorem qemu_forks : ∃ k₀ k₁ k₂ d d', Booted qemu [intProgram] k₀ ∧ Run SafeStep k₀ k₁ ∧
    Run SafeStep k₁ k₂ ∧ Family d d' 1 .notRunnable k₂ ∧ k₁.envFreeList = some 1 ∧
    k₁.phys.pageFreeList = some d' ∧ k₂.inbox = k₁.inbox ∧ (k₁.envs 1).ipcRecving = false ∧
    (∀ i, i < pdx utop → k₂.phys.word d' i &&& pteP = 0) ∧ k₂.phys.ref d' = 1 := by
  obtain ⟨k₀, k₁, d, L, hbooted, hrun, hruns, -, hmem⟩ := qemu_runs
  obtain ⟨d', k₂, hfork, hfamily, -, -, -, hpage, hphys⟩ := hruns.forks hmem
  have hcall := callFrame_calls .exofork 0 0 0 0 0
  have hsafe : SafeStep k₁ (.trap 0 (callFrame .exofork 0 0 0 0 0) 0 0) :=
    .of_calls fun call hc => by rw [hc.unique hcall]; decide
  refine ⟨k₀, k₁, k₂, d, d', hbooted, hrun, .single ⟨_, hsafe, hfork⟩, hfamily, hruns.slots, hpage,
    hruns.executes.keepsInbox hfork hcall (by decide) (by decide),
    congrArg Env.ipcRecving (hruns.others 1 (by decide)), ?_⟩
  rw [hphys]
  exact Phys.newDir_bare hmem hpage

/-- `env_alloc` after a run in which the slot 1 and the page `d` come next. -/
theorem Booted.allocs {d : Nat} (booted : Booted m binaries k₀) (run : Run SafeStep k₀ k)
    (slot : k.envFreeList = some 1) (page : k.phys.pageFreeList = some d) :
    ∃ k', envAlloc 0x1000 k = .ret (.ok 1) k' := by
  obtain ⟨L, -, -, hmem, -⟩ := booted.run run
  exact ⟨_, envAlloc_run 0x1000 slot page
    (hmem.phys.lt_npages (hmem.phys.alloc page true).2.1.owned) hmem.phys.npages_le⟩

/-- A child that is destroyed before it ran leaves nothing behind. -/
theorem env_alloc_clean_iff_unborn : ∃ k₀ k₁ k₂ l₁ l₂ d, Booted qemu [intProgram] k₀ ∧
    Run SafeStep k₀ k₁ ∧ Run SafeStep k₀ k₂ ∧ k₁.phys.pageFreeList = some d ∧
    k₂.phys.pageFreeList = some d ∧ envAlloc 0x1000 k₁ = .ret (.ok 1) l₁ ∧
    envAlloc 0x1000 k₂ = .ret (.ok 1) l₂ ∧ StartsAlike 1 l₁ l₂ := by
  obtain ⟨k₀, k₁, k, d, d', hbooted, hrun₁, hrun, hfamily, hslot₁, hpage₁, hinbox, -, hbare,
    href⟩ := qemu_forks
  obtain ⟨L, -, -, hmem, -⟩ := hbooted.run (hrun₁.trans hrun)
  obtain ⟨k₂, hsafe, hstep, hslot₂, hpage₂, hkept⟩ := hfamily.recycles hmem (by decide) (by decide)
    (fun c hc => by rw [(hfamily.cpus c (by omega)).1]; simp) hbare href
  have hrun₂ := (hrun₁.trans hrun).tail ⟨_, hsafe, hstep⟩
  obtain ⟨l₁, halloc₁⟩ := hbooted.allocs hrun₁ hslot₁ hpage₁
  obtain ⟨l₂, halloc₂⟩ := hbooted.allocs hrun₂ hslot₂ hpage₂
  exact ⟨k₀, k₁, k₂, l₁, l₂, d', hbooted, hrun₁, hrun₂, hpage₁, hpage₂, halloc₁, halloc₂,
    (env_alloc_clean_iff hbooted hrun₁ hrun₂ (.refl k₁) (.refl k₂) halloc₁ halloc₂).mpr
      ((congrFun hinbox 1).symm.trans hkept.symm)⟩

/-- A child that is destroyed while it waits for a message: the next one is taken to wait,
too. -/
theorem env_alloc_receiving : ∃ k₀ k₁ k₂ l₁ l₂ d, Booted qemu [intProgram] k₀ ∧
    Run SafeStep k₀ k₁ ∧ Run SafeStep k₀ k₂ ∧ k₁.phys.pageFreeList = some d ∧
    k₂.phys.pageFreeList = some d ∧ envAlloc 0x1000 k₁ = .ret (.ok 1) l₁ ∧
    envAlloc 0x1000 k₂ = .ret (.ok 1) l₂ ∧ (l₁.envs 1).ipcRecving = false ∧
    (l₂.envs 1).ipcRecving = true ∧ ¬ StartsAlike 1 l₁ l₂ := by
  obtain ⟨k₀, k₁, k, d, d', hbooted, hrun₁, hrun, hfamily, hslot₁, hpage₁, -, hclear, hbare,
    href⟩ := qemu_forks
  -- the child is made runnable, CPU 1 executes it, and it waits
  obtain ⟨k₃, hset, hlike⟩ :=
    hfamily.setsStatus (by decide) (show statusArg 2 = some .runnable by decide)
  obtain ⟨hstart, hchild, hfamily'⟩ := (hfamily.setStatus.like hlike).starts (by decide) (by decide)
  obtain ⟨k₄, hrecv, hfamily₄, hphys, -, hflag, -, hidle, -⟩ :=
    hfamily'.receives (by decide) hchild utop (by decide)
  have hsafe₁ : SafeStep k (.trap 0 (callFrame .envSetStatus 0x1001 2 0 0 0) 0 0) := by
    refine .setStatus (callFrame_calls _ _ _ _ _ _) fun _ e _ _ ⟨c, hc, hruns⟩ => ?_
    have hnone := (hfamily.cpus c (by omega)).1
    rw [hruns.2] at hnone
    simp at hnone
  have hcall := callFrame_calls .ipcRecv utop 0 0 0 0
  have hsafe₂ : SafeStep (k₃.ran 1 1 d') (.trap 1 (callFrame .ipcRecv utop 0 0 0 0) 0 0) :=
    .of_calls fun call hc => by rw [hc.unique hcall]; decide
  have hrun₄ : Run SafeStep k₀ k₄ := (((hrun₁.trans hrun).tail ⟨_, hsafe₁, hset⟩).tail
    ⟨_, .start k₃ 1, hstart⟩).tail ⟨_, hsafe₂, hrecv⟩
  have hphys₄ : k₄.phys = k.phys := by
    rw [hphys, Kernel.ran_phys.1, hlike.phys]
    rfl
  rw [← hphys₄] at hbare href
  obtain ⟨L, -, -, hmem, -⟩ := hbooted.run hrun₄
  obtain ⟨k₂, hsafe, hstep, hslot₂, hpage₂, hkept⟩ := hfamily₄.recycles hmem (by decide) (by decide)
    (fun c hc => by
      by_cases h1 : c = 1
      · rw [h1, hidle]
        simp
      · rw [(hfamily₄.cpus c (by omega)).1]
        simp) hbare href
  have hrun₂ := hrun₄.tail ⟨_, hsafe, hstep⟩
  obtain ⟨l₁, halloc₁⟩ := hbooted.allocs hrun₁ hslot₁ hpage₁
  obtain ⟨l₂, halloc₂⟩ := hbooted.allocs hrun₂ hslot₂ hpage₂
  have hrecving₁ : (l₁.envs 1).ipcRecving = false :=
    (congrArg Inbox.recving (congrFun (envAlloc_keepsInbox.ret halloc₁) 1)).trans hclear
  have hrecving₂ : (l₂.envs 1).ipcRecving = true :=
    (congrArg Inbox.recving ((congrFun (envAlloc_keepsInbox.ret halloc₂) 1).trans hkept)).trans hflag
  refine ⟨k₀, k₁, k₂, l₁, l₂, d', hbooted, hrun₁, hrun₂, hpage₁, hpage₂, halloc₁, halloc₂,
    hrecving₁, hrecving₂, fun alike => ?_⟩
  have heq := alike.ipcRecving
  rw [hrecving₁, hrecving₂] at heq
  simp at heq

end Jos
