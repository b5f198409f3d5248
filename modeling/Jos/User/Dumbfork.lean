import Jos.User.ForkPages

/-!
# The plain `fork` (`user/dumbfork.c`)

`dumbfork` copies each page of the program and the page of the stack at once. It needs no page
fault handler, and no page is shared afterwards. It runs without interruption here, and what it
writes to its own stack is left out.
-/

namespace Jos

open Prog

/-- `UTEMP`. -/
def utemp : Word := 0x400000

namespace Dumbfork

section Program

variable (c : Nat) (cur : EnvIdx)

/-- `duppage` of `dumbfork`: the parent reaches the new page at `UTEMP`. -/
def duppage (dstenv addr : Word) : User Unit := do
  let r ← call (sysPageAlloc cur dstenv addr (pteP ||| pteU ||| pteW))
  check r
  let r ← call (sysPageMap cur dstenv addr 0 utemp (pteP ||| pteU ||| pteW))
  check r
  memmove c utemp addr pgsize
  let r ← call (sysPageUnmap cur 0 utemp)
  check r

/-- The iterations of the loop from `UTEXT` up to `end`. -/
def programPages (endAddr : Word) : Nat := (endAddr.toNat - utext.toNat + 4095) / 4096

/-- `dumbfork` in the parent. `end` is the end of the program, and `&addr` is on the stack. -/
def dumbfork (endAddr addr : Word) : User Word := do
  let envid ← call (sysExofork cur)
  check envid
  if envid = 0 then pure 0
  else do
    forRange (programPages endAddr) fun i => duppage c cur envid (utext + BitVec.ofNat 32 (4096 * i))
    duppage c cur envid (rounddown addr)
    let r ← call (sysEnvSetStatus cur envid 2)
    check r
    pure envid

end Program

variable {L : Layout} {k k₀ k' : Kernel} {c d f n : Nat} {cur child : EnvIdx} {i j : Idx}
  {childId va endAddr stack : Word}

abbrev utempPde : Idx := pdx utemp

abbrev utempPte : Idx := ptx utemp

/-- User code of the environment may read the page. -/
def UserReads (k : Kernel) (cur : EnvIdx) (i j : Idx) : Prop :=
  (∃ f, k.phys.target k.dirs (.pte cur i j) = some f) ∧ UserPte (k.pte cur i j) false

/-- The child has got a copy of the page `f` of the parent. -/
structure Dupped (L : Layout) (k : Kernel) (cur child : EnvIdx) (i j : Idx) (f : Nat) (k' : Kernel) :
    Prop where
  ends : MemInv.Ends L k k'
  old : k.phys.target k.dirs (.pte cur i j) = some f
  copy : ∃ g, k.phys.Listed g ∧ g < 1048576 ∧ k'.pte child i j = mkPte g stackPerm ∧
    ∀ off < 4096, k'.phys.mem g off = k.phys.mem f off
  temp : k'.pte cur utempPde utempPte = 0
  rest : ∀ e i' j', ¬ (e = child ∧ i' = i ∧ j' = j) → ¬ (e = cur ∧ i' = utempPde ∧ j' = utempPte) →
    k'.pte e i' j' = k.pte e i' j'
  mem : ∀ e i' j' p, ¬ (e = child ∧ i' = i ∧ j' = j) →
    ¬ (e = cur ∧ i' = utempPde ∧ j' = utempPte) → k.phys.target k.dirs (.pte e i' j') = some p →
    k'.phys.mem p = k.phys.mem p
  free : ∀ n, k.phys.FreePages (n + 3) → k'.phys.FreePages n

theorem load_denied (hcr3 : (k.cpus c).cr3 = d) (h : ∀ f, ¬ k.phys.UserPage d va f false) :
    load c va k = .exit (.fault va) k := by
  refine load_fault hcr3 ?_
  rintro ⟨pde, pte, walk, hpde, hpte⟩
  exact h _ ⟨pde, pte, walk, rfl, hpde, hpte, fun hw => absurd hw (by decide)⟩

/-- The first byte cannot be loaded. -/
theorem memmove_unreadable (hcr3 : (k.cpus c).cr3 = d) (h : ∀ f, ¬ k.phys.UserPage d va f false)
    {dst : Word} {n : Nat} (hn : 0 < n) : memmove c dst va n k = .exit (.fault va) k := by
  obtain ⟨n, rfl⟩ := Nat.exists_eq_add_of_lt hn
  rw [Nat.zero_add]
  refine forRange_exit ?_ n
  have hzero : va + BitVec.ofNat 32 0 = va := BitVec.add_zero va
  rw [hzero, bind_exit _ (load_denied hcr3 h)]

theorem duppage_spec (h : InUser L c cur d k) (hc : k.HasChild cur child childId) (hva : vaOk va)
    (hne : ¬ (pdx va = utempPde ∧ ptx va = utempPte)) :
    wp (duppage c cur childId va)
      (fun _ k' => ∃ f, Dupped L k cur child (pdx va) (ptx va) f k')
      (fun _ _ => ¬ (k.phys.FreePages 3 ∧ UserReads k cur (pdx va) (ptx va))) (fun _ => False) k := by
  have htemp : vaOk utemp := by decide
  have hperm : permOk stackPerm := by decide
  have hperms : pteP ||| pteU ||| pteW = stackPerm := by decide
  have hparent : ¬ (cur = child ∧ pdx va = pdx va ∧ ptx va = ptx va) :=
    fun heq => hc.ne heq.1.symm
  have hother : ∀ e, ¬ (e = cur ∧ pdx va = utempPde ∧ ptx va = utempPte) := fun e heq => hne heq.2
  -- a new page for the child
  obtain ⟨r, k₁, hrun, hres⟩ := h.mem.sysPageAlloc_total hc.used hc.target hva hperm
  rw [duppage, hperms, wp_bind, wp_ret (call_ret hrun), wp_bind, wp_check]
  obtain ⟨rfl, hroom⟩ | ⟨rfl, ⟨g, hlisted, hg, -, hedit⟩, hless⟩ := hres
  · refine ⟨fun _ hable => hroom (hable.1.mono (by decide)), fun hneg => ?_⟩
    exact absurd hneg (by decide)
  refine ⟨fun hneg => absurd hneg (by decide), fun _ => ?_⟩
  have h₁ := hedit.ends.inUser h
  have hc₁ := hedit.ends.hasChild hc
  have hsole := hedit.sole h.mem hlisted hg (by decide)
  have hpage₁ : k₁.pageAt child va = some g := by
    refine Kernel.mem_mappings.mp ?_
    rw [hsole]
    exact Set.mem_singleton _
  -- at `UTEMP` the parent maps it, too
  have hzero : k₁.envid2env cur 0 true = some cur := by
    rw [Kernel.envid2env, if_pos rfl]
  obtain ⟨r, k₂, hrun₂, hres₂⟩ := h₁.mem.sysPageMap_total hc₁.target hzero ⟨hc₁.used, h₁.used⟩
    ⟨hva, htemp⟩ hperm hpage₁ (fun _ => by
      change k₁.pte child (pdx va) (ptx va) &&& pteW ≠ 0
      rw [hedit.self]
      exact (stackPerm_user g).2 rfl) (.inr (h₁.mem.ref_of_sole hsole))
  rw [wp_bind, wp_ret (call_ret hrun₂), wp_bind, wp_check]
  obtain ⟨rfl, hroom⟩ | ⟨rfl, hedit₂, hless₂⟩ := hres₂
  · refine ⟨fun _ hable => hroom (hless 1 hable.1), fun hneg => ?_⟩
    exact absurd hneg (by decide)
  refine ⟨fun hneg => absurd hneg (by decide), fun _ => ?_⟩
  have h₂ := hedit₂.ends.inUser h₁
  have htemp₂ : k₂.pageAt cur utemp = some g := by
    change entryFrame (k₂.pte cur utempPde utempPte) = some g
    rw [hedit₂.self, entryFrame_mkPte hg (by decide)]
  have hwrite₂ : UserPte (k₂.entryAt cur utemp) true := by
    change UserPte (k₂.pte cur utempPde utempPte) true
    rw [hedit₂.self]
    exact stackPerm_user g
  have hold₂ : k₂.pte cur (pdx va) (ptx va) = k.pte cur (pdx va) (ptx va) := by
    rw [hedit₂.rest _ _ _ (hother cur), hedit.rest _ _ _ hparent]
  have hpage₂ : k₂.pageAt cur va = k.pageAt cur va := congrArg entryFrame hold₂
  have hentry₂ : k₂.entryAt cur va = k.entryAt cur va := hold₂
  by_cases hread : UserReads k cur (pdx va) (ptx va)
  swap
  · have hdenied : ∀ f, ¬ k₂.phys.UserPage d va f false := by
      intro f hf
      rw [h₂.userPage_iff hva.1, hpage₂, hentry₂] at hf
      exact hread ⟨⟨f, hf.1⟩, hf.2⟩
    rw [wp_bind, wp_exit_eq (memmove_unreadable h₂.cr3 hdenied (by decide))]
    exact fun hable => hread hable.2
  obtain ⟨⟨f, hf⟩, hpte⟩ := hread
  have hfg : f ≠ g := by
    rintro rfl
    exact h.mem.phys.listed_fresh hlisted _ hf
  obtain ⟨k₃, hrun₃, hcopied⟩ := h₂.memmove_page ⟨hva, htemp⟩ (hpage₂.trans hf) (hentry₂ ▸ hpte)
    htemp₂ hwrite₂ hfg
  rw [wp_bind, wp_ret hrun₃]
  have h₃ := hcopied.ends.inUser h₂
  have hzero₃ : k₃.envid2env cur 0 true = some cur := by
    rw [Kernel.envid2env, if_pos rfl]
  obtain ⟨k₄, hrun₄, hedit₄, hfree₄⟩ := h₃.mem.sysPageUnmap_total h₃.used hzero₃ htemp
    ((hcopied.target cur _ _).trans htemp₂)
  rw [wp_bind, wp_ret (call_ret hrun₄), wp_check]
  refine ⟨fun hneg => absurd hneg (by decide), fun _ => ⟨f, ?_⟩⟩
  have hmem₄ : ∀ {e i j p}, k₂.phys.target k₂.dirs (.pte e i j) = some p →
      k₄.phys.mem p = k₃.phys.mem p := fun hp =>
    hedit₄.mem _ _ _ _ ((hcopied.target _ _ _).trans hp)
  have hf₁ : k₁.phys.target k₁.dirs (.pte cur (pdx va) (ptx va)) = some f :=
    (hedit.target hparent).trans hf
  refine ⟨((hedit.ends.trans hedit₂.ends).trans hcopied.ends).trans hedit₄.ends, hf,
    ⟨g, hlisted, hg, ?_, fun off hoff => ?_⟩, hedit₄.self, ?_, ?_,
    fun n hn => hfree₄ n (hcopied.free n (hless₂ n (hless (n + 1) hn)))⟩
  · rw [hedit₄.rest _ _ _ (hother child), hcopied.pte, hedit₂.rest _ _ _ (hother child), hedit.self]
  · rw [hmem₄ ((hedit₂.target (hother child)).trans hpage₁), hcopied.bytes off hoff,
      hedit₂.mem _ _ _ _ hf₁, hedit.mem _ _ _ _ hf]
  · intro e i j hne₁ hne₂
    rw [hedit₄.rest e i j hne₂, hcopied.pte, hedit₂.rest e i j hne₂, hedit.rest e i j hne₁]
  · intro e i j p hne₁ hne₂ hp
    have hp₁ := (hedit.target hne₁).trans hp
    have hpg : p ≠ g := by
      rintro rfl
      exact h.mem.phys.listed_fresh hlisted _ hp
    rw [hmem₄ ((hedit₂.target hne₂).trans hp₁), hcopied.mem p hpg, hedit₂.mem e i j p hp₁,
      hedit.mem e i j p hp]

/-! ### Several pages -/

open Classical in
/-- Where the mappings come from: the pages `S` of the child are new. -/
noncomputable def copySource (child : EnvIdx) (S : Set (Idx × Idx)) (x : EnvIdx × Idx × Idx) :
    Option (EnvIdx × Idx × Idx) := if x.1 = child ∧ x.2 ∈ S then none else some x

variable {S : Set (Idx × Idx)} {e : EnvIdx}

theorem copySource_new {x : Idx × Idx} (hx : x ∈ S) : copySource child S (child, x) = none := by
  unfold copySource
  exact if_pos ⟨rfl, hx⟩

theorem copySource_rest {x : EnvIdx × Idx × Idx} (hx : ¬ (x.1 = child ∧ x.2 ∈ S)) :
    copySource child S x = some x := by
  unfold copySource
  exact if_neg hx

theorem copySource_insert :
    Function.update (copySource child S) (child, i, j) none = copySource child (insert (i, j) S) := by
  funext x
  by_cases hx : x = (child, i, j)
  · subst hx
    rw [Function.update_self, copySource_new (Set.mem_insert _ _)]
  · rw [Function.update_of_ne hx]
    by_cases hS : x.1 = child ∧ x.2 ∈ S
    · obtain ⟨e, y⟩ := x
      obtain ⟨rfl, hy⟩ := hS
      rw [copySource_new hy, copySource_new (Set.mem_insert_of_mem _ hy)]
    · rw [copySource_rest hS, copySource_rest]
      rintro ⟨rfl, hmem⟩
      obtain heq | hmem := hmem
      · exact hx (Prod.ext rfl heq)
      · exact hS ⟨rfl, hmem⟩

namespace Dupped

theorem shares (h : Dupped L k cur child i j f k') (hk : MemInv L k) :
    Frames.Shares (Function.update some (child, i, j) none) k.frames k'.frames := by
  obtain ⟨g, hlisted, hg, hentry, -⟩ := h.copy
  have hnone : entryFrame 0 = none := entryFrame_zero
  have hframe : k'.frames.frame (child, i, j) = some g :=
    (congrArg entryFrame hentry).trans (entryFrame_mkPte hg (by decide))
  have hold : ∀ x p, x ≠ (child, i, j) → k'.frames.frame x = some p → k.frames.frame x = some p := by
    rintro ⟨e, i', j'⟩ p hx hp
    have hx' : ¬ (e = child ∧ i' = i ∧ j' = j) := by simpa using hx
    by_cases ht : e = cur ∧ i' = utempPde ∧ j' = utempPte
    · obtain ⟨rfl, rfl, rfl⟩ := ht
      change entryFrame (k'.pte e utempPde utempPte) = some p at hp
      rw [h.temp, hnone] at hp
      simp at hp
    · exact (congrArg entryFrame (h.rest e i' j' hx' ht)).symm.trans hp
  intro x p hp
  by_cases hx : x = (child, i, j)
  · subst hx
    refine .inr ⟨Function.update_self .., fun y hy => ?_⟩
    by_contra hne
    obtain rfl : p = g := Option.some.inj (hp.symm.trans hframe)
    exact hk.phys.listed_fresh hlisted (.pte y.1 y.2.1 y.2.2) (hold y p hne hy)
  · exact .inl ⟨x, Function.update_of_ne hx .., hold x p hx hp⟩

theorem view_self (h : Dupped L k cur child i j f k') :
    k'.frames.view (child, i, j) = k.frames.view (cur, i, j) := by
  obtain ⟨g, -, hg, hentry, hbytes⟩ := h.copy
  have hnew : k'.frames.frame (child, i, j) = some g :=
    (congrArg entryFrame hentry).trans (entryFrame_mkPte hg (by decide))
  have hold : k.frames.frame (cur, i, j) = some f := h.old
  rw [Frames.view, Frames.view, hnew, hold, Option.map_some, Option.map_some]
  exact congrArg some (funext fun off => hbytes off off.isLt)

theorem view_rest (h : Dupped L k cur child i j f k') {x : EnvIdx × Idx × Idx}
    (hx : x ≠ (child, i, j)) (ht : x ≠ (cur, utempPde, utempPte)) :
    k'.frames.view x = k.frames.view x := by
  obtain ⟨e, i', j'⟩ := x
  have hx' : ¬ (e = child ∧ i' = i ∧ j' = j) := by simpa using hx
  have ht' : ¬ (e = cur ∧ i' = utempPde ∧ j' = utempPte) := by simpa using ht
  refine Frames.view_congr (congrArg entryFrame (h.rest e i' j' hx' ht')) fun p hp => ?_
  exact funext fun off => congrFun (h.mem e i' j' p hx' ht' hp) off

end Dupped

/-- From `k₀` to `k` the child has got copies of the pages `S` of the parent. -/
structure Copies (L : Layout) (k₀ : Kernel) (cur child : EnvIdx) (S : Set (Idx × Idx)) (k : Kernel) :
    Prop where
  ends : MemInv.Ends L k₀ k
  own : ∀ x ∈ S, ∃ g < 1048576, k.pte child x.1 x.2 = mkPte g stackPerm
  temp : S.Nonempty → k.pte cur utempPde utempPte = 0
  view : ∀ x ∈ S, k.frames.view (child, x) = k₀.frames.view (cur, x)
  shares : Frames.Shares (copySource child S) k₀.frames k.frames
  rest : ∀ x : EnvIdx × Idx × Idx, ¬ (x.1 = child ∧ x.2 ∈ S) → x ≠ (cur, utempPde, utempPte) →
    k.pte x.1 x.2.1 x.2.2 = k₀.pte x.1 x.2.1 x.2.2 ∧ k.frames.view x = k₀.frames.view x

namespace Copies

theorem init (h : MemInv L k₀) : Copies L k₀ cur child ∅ k₀ := by
  refine ⟨.refl h, fun x hx => hx.elim, fun hS => hS.elim fun _ hx => hx.elim,
    fun x hx => hx.elim, ?_, fun _ _ _ => ⟨rfl, rfl⟩⟩
  have hsource : copySource child ∅ = some := funext fun x => copySource_rest fun hx => hx.2.elim
  rw [hsource]
  exact .refl _

theorem next (h : Copies L k₀ cur child S k) (hk : MemInv L k) (hne : child ≠ cur)
    (hij : (i, j) ≠ (utempPde, utempPte)) (hdup : Dupped L k cur child i j f k') :
    Copies L k₀ cur child (insert (i, j) S) k' := by
  have htemp : ∀ {x : Idx × Idx}, (child, x) ≠ (cur, utempPde, utempPte) := fun heq =>
    hne (Prod.mk.inj heq).1
  have hparent : (cur, i, j) ≠ (cur, utempPde, utempPte) := fun heq => hij (Prod.mk.inj heq).2
  refine ⟨h.ends.trans hdup.ends, fun x hx => ?_, fun _ => hdup.temp, fun x hx => ?_, ?_,
    fun x hx ht => ?_⟩
  · by_cases hnew : x = (i, j)
    · obtain ⟨g, -, hg, hentry, -⟩ := hdup.copy
      subst hnew
      exact ⟨g, hg, hentry⟩
    · obtain ⟨g, hg, hentry⟩ := h.own x (hx.resolve_left hnew)
      refine ⟨g, hg, ?_⟩
      rw [hdup.rest child x.1 x.2 (fun heq => hnew (Prod.ext heq.2.1 heq.2.2))
        fun heq => hne heq.1, hentry]
  · by_cases hnew : x = (i, j)
    · subst hnew
      rw [hdup.view_self]
      exact (h.rest (cur, i, j) (fun heq => hne heq.1.symm) hparent).2
    · have hold : (child, x) ≠ (child, i, j) := fun heq => hnew (Prod.mk.inj heq).2
      rw [hdup.view_rest hold htemp, h.view x (hx.resolve_left hnew)]
  · rw [← copySource_insert]
    exact h.shares.insert (hdup.shares hk)
  · have hnew : x ≠ (child, i, j) := by
      rintro rfl
      exact hx ⟨rfl, Set.mem_insert _ _⟩
    have hold : ¬ (x.1 = child ∧ x.2 ∈ S) := fun hS => hx ⟨hS.1, Set.mem_insert_of_mem _ hS.2⟩
    obtain ⟨hpte, hview⟩ := h.rest x hold ht
    refine ⟨?_, (hdup.view_rest hnew ht).trans hview⟩
    rw [hdup.rest _ _ _ (fun heq => hnew (Prod.ext heq.1 (Prod.ext heq.2.1 heq.2.2)))
      (fun heq => ht (Prod.ext heq.1 (Prod.ext heq.2.1 heq.2.2))), hpte]

end Copies

/-! ### The whole -/

/-- The pages that `dumbfork` copies. -/
def CopiedPages (endAddr addr : Word) : Set (Idx × Idx) :=
  insert (pdx addr, ptx addr) {x | InLoop (programPages endAddr) x.1 x.2}

theorem stackPage_copied (endAddr addr : Word) : (pdx addr, ptx addr) ∈ CopiedPages endAddr addr :=
  Set.mem_insert _ _

theorem programPage_copied {addr : Word} (h : InLoop (programPages endAddr) i j) :
    (i, j) ∈ CopiedPages endAddr addr := Set.mem_insert_of_mem _ h

/-- The program ends below the exception stack, and the stack is not at `UTEMP`. -/
structure Placed (endAddr addr : Word) : Prop where
  program : programPages endAddr ≤ loopPages
  stack : addr < utop
  temp : ¬ (pdx addr = utempPde ∧ ptx addr = utempPte)

/-- There are the pages and the slot that `dumbfork` needs, and it can read what it copies. -/
structure Able (k : Kernel) (cur : EnvIdx) (endAddr addr : Word) : Prop where
  room : k.phys.FreePages (3 * programPages endAddr + 4)
  slot : k.envFreeList ≠ none
  reads : ∀ i j, (i, j) ∈ CopiedPages endAddr addr → UserReads k cur i j

theorem programPage_addr (hn : n < loopPages) :
    vaOk (utext + BitVec.ofNat 32 (4096 * n)) ∧
      pdx (utext + BitVec.ofNat 32 (4096 * n)) = loopPde n ∧
      ptx (utext + BitVec.ofNat 32 (4096 * n)) = loopPte n := by
  rw [loopPages, pgnum_utext, pgnum_uxstack] at hn
  have htext : utext.toNat = 8388608 := by decide
  have htop : utop.toNat = 4005560320 := by decide
  have hva : (utext + BitVec.ofNat 32 (4096 * n)).toNat = 8388608 + 4096 * n := by
    rw [BitVec.toNat_add, BitVec.toNat_ofNat, htext]
    omega
  have hpdx : (pdx (utext + BitVec.ofNat 32 (4096 * n))).val = (2048 + n) / 1024 := by
    rw [pdx_val, hva]
    omega
  have hptx : (ptx (utext + BitVec.ofNat 32 (4096 * n))).val = (2048 + n) % 1024 := by
    rw [ptx_val, hva]
    omega
  refine ⟨⟨?_, ?_⟩, Fin.ext ?_, Fin.ext ?_⟩
  · rw [BitVec.lt_def, hva, htop]
    omega
  · rw [pgoff_eq, hva]
    omega
  · rw [hpdx, loopPde, pgnum_utext, Fin.val_ofNat]
    omega
  · rw [hptx, loopPte, pgnum_utext, Fin.val_ofNat]
    omega

theorem inLoop_insert (hn : n < loopPages) :
    insert (loopPde n, loopPte n) {x : Idx × Idx | InLoop n x.1 x.2} =
      {x | InLoop (n + 1) x.1 x.2} := by
  ext ⟨i, j⟩
  rw [Set.mem_insert_iff, Prod.mk.injEq, Set.mem_ofPred_eq, Set.mem_ofPred_eq, inLoop_succ hn]
  exact or_comm

theorem programPage_ne_temp (hn : n < loopPages) :
    ¬ (loopPde n = utempPde ∧ loopPte n = utempPte) := by
  rintro ⟨hpde, hpte⟩
  have hpage := (loopPage_iff hn).mpr ⟨rfl, rfl⟩
  rw [hpde, hpte, pgnum_utext] at hpage
  have htemp : pageNumber utempPde utempPte = 1024 := by decide
  omega

namespace Placed

variable {addr : Word}

theorem temp_not_copied (h : Placed endAddr addr) :
    (utempPde, utempPte) ∉ CopiedPages endAddr addr := by
  rintro (heq | hin)
  · exact h.temp ⟨(Prod.mk.inj heq).1.symm, (Prod.mk.inj heq).2.symm⟩
  · have hlow : pgnum utext ≤ pageNumber utempPde utempPte := hin.1
    exact absurd hlow (by decide)

theorem below (h : Placed endAddr addr) {x : Idx × Idx} (hx : x ∈ CopiedPages endAddr addr) :
    x.1.val < userPdes := by
  obtain rfl | hin := hx
  · exact (pdx_lt_iff addr).mpr h.stack
  · refine forkPage_below (j := x.2) ⟨hin.1, ?_⟩
    have hlast := hin.2
    have hle := h.program
    omega

end Placed

/-- What the child may need for its pages is still readable. -/
theorem Copies.reads (h : Copies L k₀ cur child S k) (hne : child ≠ cur)
    (hij : (i, j) ≠ (utempPde, utempPte)) (hread : UserReads k₀ cur i j) : UserReads k cur i j := by
  have hpte : k.pte cur i j = k₀.pte cur i j :=
    (h.rest (cur, i, j) (fun heq => hne heq.1.symm) fun heq => hij (Prod.mk.inj heq).2).1
  rw [UserReads, Kernel.target_pte, hpte]
  exact hread

/-- One more page. -/
theorem Copies.duppage_spec (h : Copies L k₀ cur child S k) (h₀ : InUser L c cur d k₀)
    (hc : k₀.HasChild cur child childId) (hva : vaOk va)
    (hne : ¬ (pdx va = utempPde ∧ ptx va = utempPte)) :
    wp (duppage c cur childId va)
      (fun _ k' => Copies L k₀ cur child (insert (pdx va, ptx va) S) k' ∧
        ∀ m, k.phys.FreePages (m + 3) → k'.phys.FreePages m)
      (fun _ _ => ¬ (k.phys.FreePages 3 ∧ UserReads k₀ cur (pdx va) (ptx va)))
      (fun _ => False) k := by
  have hu := h.ends.inUser h₀
  have htemp : (pdx va, ptx va) ≠ (utempPde, utempPte) := fun heq =>
    hne ⟨(Prod.mk.inj heq).1, (Prod.mk.inj heq).2⟩
  refine wp_mono (Dumbfork.duppage_spec hu (h.ends.hasChild hc) hva hne) ?_ ?_ fun _ hf => hf
  · rintro - k' ⟨f, hdup⟩
    exact ⟨h.next hu.mem hc.ne htemp hdup, hdup.free⟩
  · exact fun _ _ hunable hable => hunable ⟨hable.1, h.reads hc.ne htemp hable.2⟩

/-- From `k` to `k'` the environment `cur` has made a child with copies of its pages. -/
structure Made (L : Layout) (k : Kernel) (cur : EnvIdx) (endAddr addr childId : Word)
    (k' : Kernel) : Prop where
  mem : MemInv L k'
  cpus : k'.cpus = k.cpus
  head : k.envFreeList = some (envx childId)
  new : k.status (envx childId) = .free
  runnable : k'.status (envx childId) = .runnable
  id : (k'.envs (envx childId)).id = childId
  envs : ∀ e, e ≠ envx childId → k'.envs e = k.envs e
  ne : envx childId ≠ cur
  own : ∀ x ∈ CopiedPages endAddr addr, ∃ g < 1048576,
    k'.pte (envx childId) x.1 x.2 = mkPte g stackPerm
  bare : ∀ x ∉ CopiedPages endAddr addr, k'.pte (envx childId) x.1 x.2 = 0
  temp : k'.pte cur utempPde utempPte = 0
  view : ∀ x ∈ CopiedPages endAddr addr, k'.frames.view (envx childId, x) = k.frames.view (cur, x)
  shares : Frames.Shares (copySource (envx childId) (CopiedPages endAddr addr)) k.frames k'.frames
  rest : ∀ x : EnvIdx × Idx × Idx, x.1 ≠ envx childId → x ≠ (cur, utempPde, utempPte) →
    k'.pte x.1 x.2.1 x.2.2 = k.pte x.1 x.2.1 x.2.2 ∧ k'.frames.view x = k.frames.view x

theorem rounddown_page (addr : Word) :
    pdx (rounddown addr) = pdx addr ∧ ptx (rounddown addr) = ptx addr :=
  ⟨pdx_rounddown addr, ptx_rounddown addr⟩

/-- What the copies after `sys_exofork` amount to. -/
theorem made_of_steps {k₁ k₂ : Kernel} {endAddr addr : Word} (h : MemInv L k)
    (hmade : ChildMade L k cur childId k₁)
    (hcopies : Copies L k₁ cur (envx childId) (CopiedPages endAddr addr) k₂) (h₂ : MemInv L k₂)
    (hset : k₂.Sets (envx childId) k' ∧ k'.status (envx childId) = .runnable) :
    Made L k cur endAddr addr childId k' := by
  have henvs : k₂.envs = k₁.envs ∧ k₂.cpus = k₁.cpus := by rw [hcopies.ends.1]; exact ⟨rfl, rfl⟩
  have hframes : k'.frames = k₂.frames := by
    rw [Kernel.frames, hset.1.same.phys, hset.1.same.dirs]
    rfl
  have hframe₁ : k₁.frames.frame = k.frames.frame := funext fun x =>
    congrArg entryFrame (hmade.pte x.1 x.2.1 x.2.2)
  have hview₁ : ∀ x, k₁.frames.view x = k.frames.view x := fun x =>
    Frames.view_congr (congrFun hframe₁ x) fun p hp => funext fun off =>
      congrFun (hmade.contents x.1 x.2.1 x.2.2 p hp) off
  refine ⟨hset.1.same.memInv h₂, ?_, hmade.head, hmade.new, hset.2, ?_, fun e he => ?_,
    hmade.hasChild.ne, fun x hx => ?_, fun x hx => ?_, ?_, fun x hx => ?_, ?_, fun x hx ht => ?_⟩
  · rw [hset.1.cpus, henvs.2, hmade.cpus]
  · rw [hset.1.same.id, henvs.1, hmade.id]
  · rw [hset.1.others e he, henvs.1, hmade.envs e he]
  · rw [hset.1.same.pte]
    exact hcopies.own x hx
  · have hbare : k₁.pte (envx childId) x.1 x.2 = 0 := by
      rw [hmade.pte]
      exact Phys.pteAt_of_noDir ((h.live _).mp hmade.new)
    rw [hset.1.same.pte, ← hbare]
    refine (hcopies.rest (envx childId, x) (fun hS => hx hS.2) fun heq => ?_).1
    exact hmade.hasChild.ne (Prod.mk.inj heq).1
  · rw [hset.1.same.pte]
    exact hcopies.temp ⟨_, stackPage_copied endAddr addr⟩
  · rw [hframes, hcopies.view x hx, hview₁]
  · rw [hframes]
    intro x p hp
    rw [← hframe₁]
    exact hcopies.shares x p hp
  · obtain ⟨hpte, hview⟩ := hcopies.rest x (fun hS => hx hS.1) ht
    rw [hset.1.same.pte, hframes, hpte, hview, hmade.pte, hview₁]
    exact ⟨rfl, rfl⟩

/-- The loop over the pages of the program. -/
theorem programLoop_spec (h : InUser L c cur d k) (hc : k.HasChild cur child childId) {N : Nat}
    (hN : N ≤ loopPages) :
    wp (forRange N fun i => duppage c cur childId (utext + BitVec.ofNat 32 (4096 * i)))
      (fun _ k' => Copies L k cur child {x | InLoop N x.1 x.2} k' ∧
        ∀ m, k.phys.FreePages (m + 3 * N) → k'.phys.FreePages m)
      (fun _ _ => ¬ (k.phys.FreePages (3 * N) ∧ ∀ i j, InLoop N i j → UserReads k cur i j))
      (fun _ => False) k := by
  refine wp_forRange (fun n k' => Copies L k cur child {x | InLoop n x.1 x.2} k' ∧
    ∀ m, k.phys.FreePages (m + 3 * n) → k'.phys.FreePages m) (fun n k' hn hk' => ?_)
    ⟨?_, fun m hm => hm⟩
  · obtain ⟨hcopies, hfree⟩ := hk'
    have hn' : n < loopPages := Nat.lt_of_lt_of_le hn hN
    obtain ⟨hva, hpdx, hptx⟩ := programPage_addr hn'
    have htemp := programPage_ne_temp hn'
    rw [← hpdx, ← hptx] at htemp
    refine wp_mono (hcopies.duppage_spec h hc hva htemp) (fun _ k'' hk'' => ⟨?_, fun m hm => ?_⟩)
      (fun _ _ hunable hable => hunable ⟨hfree 3 (hable.1.mono (by omega)), ?_⟩) fun _ hf => hf
    · rw [← inLoop_insert hn', ← hpdx, ← hptx]
      exact hk''.1
    · exact hk''.2 m (hfree _ (hm.mono (by omega)))
    · refine hable.2 _ _ ?_
      rw [hpdx, hptx]
      have hpage := (loopPage_iff hn').mpr ⟨rfl, rfl⟩
      rw [InLoop]
      omega
  · have hempty : {x : Idx × Idx | InLoop 0 x.1 x.2} = ∅ := by
      refine Set.eq_empty_of_forall_notMem fun x hx => ?_
      rw [Set.mem_ofPred_eq, InLoop] at hx
      omega
    rw [hempty]
    exact .init h.mem

/-- `dumbfork` succeeds wherever it has the pages and the slot for it, and may read its pages. -/
theorem dumbfork_spec (h : InUser L c cur d k) (slots : k.SlotsFree) {addr : Word}
    (placed : Placed endAddr addr) :
    wp (dumbfork c cur endAddr addr)
      (fun childId k' => Made L k cur endAddr addr childId k')
      (fun _ _ => ¬ Able k cur endAddr addr) (fun _ => False) k := by
  rw [dumbfork]
  obtain ⟨r, hrun, hneg, hunable⟩ | ⟨childId, k₁, hrun, hpos, hzero, h₁, hmade⟩ :=
    sysExofork_total h slots
  · rw [wp_bind, wp_ret (call_ret hrun), wp_bind, wp_check]
    refine ⟨fun _ hable => hunable ⟨hable.slot, hable.room.mono (by omega)⟩, fun hpos => ?_⟩
    rw [hneg] at hpos
    exact absurd hpos (by decide)
  rw [wp_bind, wp_ret (call_ret hrun), wp_bind, wp_check]
  refine ⟨fun hneg => absurd (hneg.symm.trans hpos) (by decide), fun _ => ?_⟩
  have hc := hmade.hasChild
  have hreads : Able k cur endAddr addr → ∀ i j, (i, j) ∈ CopiedPages endAddr addr →
      UserReads k₁ cur i j := by
    intro hable i j hij
    rw [UserReads, Kernel.target_pte, hmade.pte]
    exact hable.reads i j hij
  have hfree : Able k cur endAddr addr → k₁.phys.FreePages (3 + 3 * programPages endAddr) ∧
      k₁.phys.FreePages (3 * programPages endAddr) := fun hable =>
    ⟨hmade.free _ (hable.room.mono (by omega)), hmade.free _ (hable.room.mono (by omega))⟩
  rw [if_neg hzero, wp_bind]
  have hprogram : Able k cur endAddr addr → ∀ i j, InLoop (programPages endAddr) i j →
      UserReads k₁ cur i j := fun hable i j hin => hreads hable i j (programPage_copied hin)
  refine wp_mono (programLoop_spec h₁ hc placed.program) (fun _ k₂ hk₂ => ?_)
    (fun _ _ hunable hable => hunable ⟨(hfree hable).2, hprogram hable⟩) fun _ hf => hf
  obtain ⟨hcopies, hfree₂⟩ := hk₂
  -- the page of the stack
  obtain ⟨hpdx, hptx⟩ := rounddown_page addr
  have htemp := placed.temp
  rw [← hpdx, ← hptx] at htemp
  rw [wp_bind]
  refine wp_mono (hcopies.duppage_spec h₁ hc (vaOk_rounddown placed.stack) htemp) (fun _ k₃ hk₃ => ?_)
    (fun _ _ hunable hable => hunable ⟨hfree₂ 3 (hfree hable).1, ?_⟩) fun _ hf => hf
  rotate_left
  · rw [hpdx, hptx]
    exact hreads hable _ _ (stackPage_copied endAddr addr)
  obtain ⟨hcopies₃, -⟩ := hk₃
  rw [hpdx, hptx] at hcopies₃
  have h₃ := hcopies₃.ends.inUser h₁
  have hc₃ := hcopies₃.ends.hasChild hc
  obtain ⟨k₄, hrun₄, hset, hstatus, -⟩ := sysEnvSetStatus_total
    (show statusArg 2 = some .runnable by decide) hc₃.target hc₃.used
  rw [wp_bind, wp_ret (call_ret hrun₄), wp_bind, wp_check]
  refine ⟨fun hneg => absurd hneg (by decide), fun _ => ?_⟩
  rw [wp_pure]
  exact made_of_steps h.mem hmade hcopies₃ h₃.mem ⟨hset, hstatus⟩

theorem Able.returns {addr : Word} (able : Able k cur endAddr addr) (h : InUser L c cur d k)
    (slots : k.SlotsFree) (placed : Placed endAddr addr) :
    ∃ childId k', dumbfork c cur endAddr addr k = .ret childId k' ∧
      Made L k cur endAddr addr childId k' := by
  have hspec := dumbfork_spec h slots placed
  cases hrun : dumbfork c cur endAddr addr k with
  | ret childId k' =>
      rw [wp_ret hrun] at hspec
      exact ⟨childId, k', rfl, hspec⟩
  | exit why k' =>
      rw [wp_exit_eq hrun] at hspec
      exact absurd able hspec
  | panic why =>
      rw [wp_panic_eq hrun] at hspec
      exact hspec.elim

end Dumbfork

end Jos
