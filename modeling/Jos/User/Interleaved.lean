import Jos.User.ForkParts

/-!
# The parent writes while it forks

At every part of `fork` the pages that the loop has come to are read-only for both, and each
page that the parent writes in place is its own. So what the child has of a page is what the page
held when the loop came to it.
-/

namespace Jos

open Prog

variable {L : Layout} {k k' k'' : Kernel} {c c' d f n : Nat} {cur e : EnvIdx} {i j : Idx}
  {va childId : Word} {code : ForkCode} {v : EnvIdx → Word → Option Byte} {as : List ForkAct}

/-! ### No page gets too many references -/

/-- The pages from the `n`th iteration on at which the environment has `f` mapped. -/
def Kernel.restMappings (k : Kernel) (cur : EnvIdx) (n f : Nat) : Set (Idx × Idx) :=
  {x | (cur, x.1, x.2) ∈ k.mappings f ∧ InLoop loopPages x.1 x.2 ∧ ¬ InLoop n x.1 x.2}

/-- From the `n`th iteration on no page gets a 65536th reference. -/
def Kernel.FitsFrom (k : Kernel) (cur : EnvIdx) (n : Nat) : Prop :=
  ∀ f, (k.mappings f).ncard + (k.restMappings cur n f).ncard ≤ 65535

theorem Kernel.LoopFits.fitsFrom (h : k.LoopFits cur) : k.FitsFrom cur 0 := by
  intro f
  have hsub : k.restMappings cur 0 f ⊆ k.loopMappings cur loopPages f := fun x hx => ⟨hx.1, hx.2.1⟩
  have hle := Set.ncard_le_ncard hsub (Set.toFinite _)
  have hmax := h f
  omega

namespace Kernel.FitsFrom

/-- Fewer mappings. -/
theorem of_subset {n' : Nat} (h : k.FitsFrom cur n) (hn : ∀ i j, InLoop n i j → InLoop n' i j)
    (maps : k'.mappings f ⊆ k.mappings f) :
    (k'.mappings f).ncard + (k'.restMappings cur n' f).ncard ≤ 65535 := by
  have hsub : k'.restMappings cur n' f ⊆ k.restMappings cur n f := fun x hx =>
    ⟨maps hx.1, hx.2.1, fun hin => hx.2.2 (hn _ _ hin)⟩
  have hle := Set.ncard_le_ncard maps (Set.toFinite _)
  have hle' := Set.ncard_le_ncard hsub (Set.toFinite _)
  have hmax := h f
  omega

theorem copies (h : k.FitsFrom cur n) (hcopies : k.Copies cur k') : k'.FitsFrom cur n := by
  intro f
  obtain hsub | ⟨x, hx⟩ := hcopies.frames f
  · exact h.of_subset (fun _ _ hin => hin) hsub
  · have hsub : k'.restMappings cur n f ⊆ {x.2} := fun y hy => by
      have heq := Set.mem_singleton_iff.mp (hx hy.1)
      rw [Set.mem_singleton_iff, ← heq]
    have hle := Set.ncard_le_ncard hx (Set.toFinite _)
    have hle' := Set.ncard_le_ncard hsub (Set.toFinite _)
    rw [Set.ncard_singleton] at hle hle'
    omega

theorem skip (h : k.FitsFrom cur n) (hn : n < loopPages) : k.FitsFrom cur (n + 1) := fun _ =>
  h.of_subset (fun _ _ hin => (inLoop_succ hn).mpr (.inl hin)) Set.Subset.rfl

/-- The next page can get another reference. -/
theorem room (h : k.FitsFrom cur n) (mem : MemInv L k) (hn : n < loopPages)
    (hf : k.phys.target k.dirs (.pte cur (loopPde n) (loopPte n)) = some f) :
    k.phys.ref f ≠ 65535 := by
  intro hfull
  have hmap := Kernel.mem_mappings.mpr hf
  have hcount := (mem.countsExact mem).mapped f ⟨_, hmap⟩
  have hrest : (loopPde n, loopPte n) ∈ k.restMappings cur n f :=
    ⟨hmap, loopPage_inLoop hn, not_inLoop_self hn⟩
  have hpos := (Set.ncard_pos (Set.toFinite _)).mpr ⟨_, hrest⟩
  have hmax := h f
  rw [hfull] at hcount
  have hval : (65535 : BitVec 16).toNat = 65535 := rfl
  omega

end Kernel.FitsFrom

/-- Nobody but the child has another page than before. -/
theorem Dupped.target {child : EnvIdx} (h : Dupped L k cur child i j k')
    (present : k.pte cur i j &&& pteP ≠ 0) {i' j' : Idx} (hne : ¬ (e = child ∧ i' = i ∧ j' = j)) :
    k'.phys.target k'.dirs (.pte e i' j') = k.phys.target k.dirs (.pte e i' j') := by
  rw [Kernel.target_pte, Kernel.target_pte]
  by_cases hself : e = cur ∧ i' = i ∧ j' = j
  · obtain ⟨rfl, rfl, rfl⟩ := hself
    rw [h.shared, entryFrame_parentPte present, entryFrame, if_pos present]
  · rw [h.rest]
    rintro ⟨hcur | hchild, hij⟩
    · exact hself ⟨hcur, hij⟩
    · exact hne ⟨hchild, hij⟩

theorem Dupped.childTarget {child : EnvIdx} (h : Dupped L k cur child i j k')
    (present : k.pte cur i j &&& pteP ≠ 0) :
    k'.phys.target k'.dirs (.pte child i j) = k.phys.target k.dirs (.pte cur i j) := by
  rw [Kernel.target_pte, h.copy, entryFrame_childPte, Kernel.pte_present present]

theorem Kernel.FitsFrom.page {child : EnvIdx} (h : k.FitsFrom cur n) (hn : n < loopPages)
    (hdup : Dupped L k cur child (loopPde n) (loopPte n) k')
    (present : k.pte cur (loopPde n) (loopPte n) &&& pteP ≠ 0) (hne : child ≠ cur) :
    k'.FitsFrom cur (n + 1) := by
  intro f
  by_cases hf : k.phys.target k.dirs (.pte cur (loopPde n) (loopPte n)) = some f
  · have hmap := Kernel.mem_mappings.mpr hf
    have hsub : k'.mappings f ⊆ insert (child, loopPde n, loopPte n) (k.mappings f) := by
      rintro ⟨e, i, j⟩ hx
      by_cases hslot : e = child ∧ i = loopPde n ∧ j = loopPte n
      · obtain ⟨rfl, rfl, rfl⟩ := hslot
        exact Set.mem_insert _ _
      · refine Set.mem_insert_of_mem _ (Kernel.mem_mappings.mpr ?_)
        rw [← hdup.target present hslot]
        exact Kernel.mem_mappings.mp hx
    have hless : k'.restMappings cur (n + 1) f ⊂ k.restMappings cur n f := by
      refine (Set.ssubset_iff_of_subset ?_).mpr ⟨(loopPde n, loopPte n),
        ⟨hmap, loopPage_inLoop hn, not_inLoop_self hn⟩, fun hx => hx.2.2 ?_⟩
      · rintro ⟨i, j⟩ ⟨hx, hin, hout⟩
        refine ⟨Kernel.mem_mappings.mpr ?_, hin, fun hno => hout ((inLoop_succ hn).mpr (.inl hno))⟩
        rw [← hdup.target present fun heq => hne heq.1.symm]
        exact Kernel.mem_mappings.mp hx
      · exact (inLoop_succ hn).mpr (.inr ⟨rfl, rfl⟩)
    have hle := (Set.ncard_le_ncard hsub (Set.toFinite _)).trans (Set.ncard_insert_le _ _)
    have hlt := Set.ncard_lt_ncard hless (Set.toFinite _)
    have hmax := h f
    omega
  · refine h.of_subset (fun _ _ hin => (inLoop_succ hn).mpr (.inl hin)) ?_
    rintro ⟨e, i, j⟩ hx
    rw [Kernel.mem_mappings] at hx ⊢
    have hslot : ¬ (e = child ∧ i = loopPde n ∧ j = loopPte n) := by
      rintro ⟨rfl, rfl, rfl⟩
      rw [hdup.childTarget present] at hx
      exact hf hx
    rwa [hdup.target present hslot] at hx

/-! ### Before a part -/

/-- The parent, a family of one. Its memory is that of `v`. -/
structure Solo (L : Layout) (code : ForkCode) (c : Nat) (cur : EnvIdx) (d : Nat)
    (v : EnvIdx → Word → Option Byte) (k : Kernel) : Prop where
  family : CowFamily L code.entry {cur} k
  inUser : InUser L c cur d k
  reads : code.Readable k cur
  sees : ∀ va, ForkPage va → k.viewAt cur va = v cur va

/-- An act of `e` on its own memory. -/
def ForkAct.IsOf (e : EnvIdx) (a : ForkAct) : Prop :=
  (∀ e' va, ¬ a.CopiesTo e' va) ∧ ∀ e' va, e' ≠ e → a.byte e' va = none

/-- What has happened before a part: the parent has written its memory, and `as` says what. -/
structure Waited (L : Layout) (code : ForkCode) (cur : EnvIdx) (d : Nat) (k : Kernel)
    (as : List ForkAct) (c' : Nat) (k' : Kernel) : Prop where
  family : CowFamily L code.entry {cur} k'
  inUser : InUser L c' cur d k'
  access : k.KeepsAccess {cur} k'
  view : ∀ e va, e ≠ cur ∨ ForkPage va → k'.viewAt e va = ForkAct.runs k.viewAt as e va
  pte : ∀ e i j, e ≠ cur → k'.pte e i j = k.pte e i j
  copies : k.Copies cur k'
  same : ({ k with phys := k'.phys } : Kernel).SameMaps k'
  upcalls : ∀ e, (k'.envs e).pgfaultUpcall = (k.envs e).pgfaultUpcall
  own : ∀ a ∈ as, a.IsOf cur

theorem ForkAct.runs_own (h : ∀ a ∈ as, a.IsOf cur) :
    runs v as e va = (lastWrite e va as).or (v e va) :=
  runs_byte fun a ha => (h a ha).1 e va

theorem ForkAct.lastWrite_none (h : ∀ a ∈ as, a.byte e va = none) : lastWrite e va as = none := by
  induction as using List.reverseRecOn with
  | nil => rfl
  | append_singleton as a ih =>
      rw [lastWrite_concat, h a (List.mem_append_right _ (List.mem_singleton_self a)),
        ih fun x hx => h x (List.mem_append_left _ hx)]
      rfl

/-- The others are as they were. -/
theorem ForkAct.lastWrite_other (h : ∀ a ∈ as, a.IsOf cur) (he : e ≠ cur) :
    lastWrite e va as = none :=
  lastWrite_none fun a ha => (h a ha).2 e va he

theorem Kernel.accesses_own {r : Registers} {b : Byte} :
    ∀ a ∈ (k.accesses cur r va b).map ForkAct.access, a.IsOf cur := by
  have hstore : (ForkAct.access (.store cur va b)).IsOf cur :=
    ⟨fun _ _ h => h, fun e' va' he => if_neg fun heq => he heq.1.symm⟩
  have hupcall : ∀ a w, (ForkAct.access (.upcall cur a w)).IsOf cur := fun a w =>
    ⟨fun _ _ h => h, fun e' va' he => if_neg fun heq => he heq.1.symm⟩
  rw [Kernel.accesses]
  intro a ha
  split at ha
  · obtain rfl := List.mem_singleton.mp ha
    exact hstore
  · obtain rfl | ha := List.mem_cons.mp ha
    · exact hupcall _ _
    · obtain rfl := List.mem_singleton.mp ha
      exact hstore

section

variable {mode : Stores}

theorem Meanwhile.waited (step : Meanwhile code cur mode c k as c' k') (h : Solo L code c cur d v k)
    (hup : code.entry ≠ 0) : Waited L code cur d k as c' k' := by
  have hmember : cur ∈ ({cur} : Set EnvIdx) := Set.mem_singleton cur
  cases step with
  | switch same upcall executes =>
      rename_i d'
      have hframes : k'.frames = k.frames := by
        rw [Kernel.frames, same.phys, same.dirs]
        rfl
      have hd : d' = d := by
        have hdir := executes.pgdir
        rw [same.pgdir] at hdir
        exact Option.some.inj (hdir.symm.trans h.inUser.dir)
      have hfamily := h.family.sameMaps same fun e _ => upcall e
      refine ⟨hfamily, hfamily.inUser hmember (hd ▸ executes), .of_pte same.pte, fun e va _ => ?_,
        fun e i j _ => same.pte e i j, .of_pte same.pte, ?_, upcall, fun _ ha => by simp at ha⟩
      · rw [Kernel.viewAt_eq, hframes, ← Kernel.viewAt_eq]
        rfl
      · rw [same.phys]
        exact same
  | store executes page stack noFault run =>
      rename_i d' n f r va b
      have hd : d' = d := Option.some.inj (executes.pgdir.symm.trans h.inUser.dir)
      rw [hd] at executes
      have hstored := h.family.cowStore_ret hmember executes hup stack h.reads page run
      refine ⟨hstored.family, hstored.family.inUser hmember hstored.executes, hstored.access,
        fun e a ha => ?_, hstored.pte, hstored.copies, hstored.like.sameMaps, fun e => ?_,
        Kernel.accesses_own⟩
      · rw [ForkAct.runs_access]
        exact hstored.view e a ha
      · exact hstored.like.field (fun _ => rfl) e

/-- A store that is no page fault leaves the entries as they are. -/
theorem Meanwhile.pte_inPlace (step : Meanwhile code cur .inPlace c k as c' k')
    (h : Solo L code c cur d v k) (e : EnvIdx) (i j : Idx) : k'.pte e i j = k.pte e i j := by
  cases step with
  | switch same => exact same.pte e i j
  | store executes page stack noFault run =>
      have hmember : cur ∈ ({cur} : Set EnvIdx) := Set.mem_singleton cur
      obtain ⟨hp, hw⟩ := noFault rfl
      obtain ⟨k₁, hstore, hran, -⟩ := h.family.put hmember executes
        (h.family.owns_fork hmember page hp hw) _
      rw [cowStore, retry_ret hstore] at run
      obtain ⟨-, rfl⟩ := Outcome.ret.inj run
      exact hran.pte e i j (.inr rfl)

end

namespace Waited

variable (h : Waited L code cur d k as c' k')

include h

theorem solo (hk : Solo L code c cur d v k) : Solo L code c' cur d (ForkAct.runs v as) k' := by
  refine ⟨h.family, h.inUser, fun i hi => ⟨(hk.reads i hi).1, ?_⟩, fun va hva => ?_⟩
  · exact (h.access cur (Set.mem_singleton cur) _ (hk.reads i hi).1).2 (hk.reads i hi).2
  · rw [h.view cur va (.inr hva), ForkAct.runs_own h.own, ForkAct.runs_own h.own, hk.sees va hva]

/-- A page of the loop is as it was, or it was marked and can be written still. -/
theorem kept (hu : InUser L c cur d k) (hin : InLoop loopPages i j) :
    k'.pte cur i j = k.pte cur i j ∨ (k.pte cur i j &&& pteP ≠ 0 ∧ k.pte cur i j &&& pteCow ≠ 0) ∧
      k'.pte cur i j &&& pteP ≠ 0 ∧ (k'.pte cur i j &&& pteW ≠ 0 ∨ k'.pte cur i j &&& pteCow ≠ 0) := by
  refine (h.copies.marked i j hin).imp_right fun hcow => ?_
  have hentry : ∀ k : Kernel, k.entryAt cur (pgaddr i j) = k.pte cur i j := fun k => by
    rw [Kernel.entryAt, pdx_pgaddr, ptx_pgaddr, Kernel.pte]
  have hva : ForkPage (pgaddr i j) := by
    rw [ForkPage, pdx_pgaddr, ptx_pgaddr]
    exact hin
  rw [← hentry] at hcow
  obtain ⟨f, hf⟩ := hu.page_of_cow hcow
  have hp := Kernel.entry_present hf
  have hw := (h.access cur (Set.mem_singleton cur) _ hva).1 ⟨hp, .inr hcow⟩
  rw [Kernel.Writable, hentry] at hw
  rw [hentry] at hp hcow
  exact ⟨⟨hp, hcow⟩, hw⟩

theorem present_iff (hu : InUser L c cur d k) (hin : InLoop loopPages i j) :
    k'.pte cur i j &&& pteP ≠ 0 ↔ k.pte cur i j &&& pteP ≠ 0 := by
  obtain hsame | ⟨⟨hp, -⟩, hp', -⟩ := h.kept hu hin
  · rw [hsame]
  · exact ⟨fun _ => hp, fun _ => hp'⟩

/-- What `duppage` makes of a page does not change. -/
theorem duppagePerm (hu : InUser L c cur d k) (hin : InLoop loopPages i j) :
    Jos.duppagePerm (k'.pte cur i j) = Jos.duppagePerm (k.pte cur i j) := by
  obtain hsame | ⟨⟨-, hcow⟩, -, hw⟩ := h.kept hu hin
  · rw [hsame]
  · rw [Jos.duppagePerm, Jos.duppagePerm, if_pos hw, if_pos (.inr hcow)]

end Waited

/-! ### The pages of the child -/

/-- The child has been made, and the loop has come to the first `n` pages. The memories are those of
`v`. The entry of the child for its exception stack is left open. -/
structure Sharing (L : Layout) (code : ForkCode) (c : Nat) (cur : EnvIdx) (d : Nat) (childId : Word)
    (n : Nat) (v : EnvIdx → Word → Option Byte) (k : Kernel) : Prop
    extends Solo L code c cur d v k where
  bound : n ≤ loopPages
  hasChild : k.HasChild cur (envx childId) childId
  id : envx (k.envs (envx childId)).id = envx childId
  copied : ∀ va, ForkPage va → k.viewAt (envx childId) va = v (envx childId) va
  pages : ∀ i j, InLoop n i j → k.pte cur i j &&& pteP ≠ 0 →
    k.pte (envx childId) i j &&& pteP ≠ 0 ∧ k.pte (envx childId) i j &&& pteU ≠ 0 ∧
      k.pte (envx childId) i j &&& pteW = 0
  bare : ∀ i j, ¬ (InLoop n i j ∧ k.pte cur i j &&& pteP ≠ 0) →
    ¬ (i = stackPde ∧ j = stackPte) → k.pte (envx childId) i j = 0

theorem inLoop_mono {m : Nat} (hm : n ≤ m) (h : InLoop n i j) : InLoop m i j := by
  rw [InLoop] at h ⊢
  omega

/-- What is seen at `va` if neither the frame nor its bytes change. -/
theorem Kernel.viewAt_same {e' : EnvIdx}
    (frame : k'.phys.target k'.dirs (.pte e' (pdx va) (ptx va)) =
      k.phys.target k.dirs (.pte e (pdx va) (ptx va)))
    (mem : ∀ f, k.phys.target k.dirs (.pte e (pdx va) (ptx va)) = some f →
      k'.phys.mem f = k.phys.mem f) : k'.viewAt e' va = k.viewAt e va :=
  Kernel.viewAt_congr (Frames.view_congr frame fun f hf => funext fun off =>
    congrFun (mem f hf) off)

namespace Sharing

/-- What happens before a part keeps it. -/
theorem waited (h : Sharing L code c cur d childId n v k) (hw : Waited L code cur d k as c' k') :
    Sharing L code c' cur d childId n (ForkAct.runs v as) k' := by
  have hpte := fun i j => hw.pte (envx childId) i j h.hasChild.ne
  have hpresent : ∀ {i j}, InLoop n i j →
      (k'.pte cur i j &&& pteP ≠ 0 ↔ k.pte cur i j &&& pteP ≠ 0) := fun hin =>
    hw.present_iff h.inUser (inLoop_mono h.bound hin)
  have hchild : ({ k with phys := k'.phys } : Kernel).HasChild cur (envx childId) childId :=
    ⟨h.hasChild.ne, h.hasChild.used, h.hasChild.target⟩
  refine ⟨hw.solo h.toSolo, h.bound, hw.same.hasChild hchild, ?_, fun va hva => ?_,
    fun i j hin hp => ?_, fun i j hno hs => ?_⟩
  · rw [hw.same.id]
    exact h.id
  · rw [hw.view _ va (.inl h.hasChild.ne), ForkAct.runs_own hw.own, ForkAct.runs_own hw.own,
      h.copied va hva]
  · rw [hpte]
    exact h.pages i j hin ((hpresent hin).mp hp)
  · rw [hpte]
    exact h.bare i j (fun hin => hno ⟨hin.1, (hpresent hin.1).mpr hin.2⟩) hs

/-- A page that the parent does not have. -/
theorem skip (h : Sharing L code c cur d childId n v k) (hn : n < loopPages)
    (absent : k.pte cur (loopPde n) (loopPte n) &&& pteP = 0) :
    Sharing L code c cur d childId (n + 1) v k := by
  have hsame : ∀ {i j}, k.pte cur i j &&& pteP ≠ 0 → InLoop (n + 1) i j → InLoop n i j := by
    intro i j hp hin
    obtain hin | ⟨rfl, rfl⟩ := (inLoop_succ hn).mp hin
    · exact hin
    · exact absurd absent hp
  exact ⟨h.toSolo, hn, h.hasChild, h.id, h.copied, fun i j hin hp => h.pages i j (hsame hp hin) hp,
    fun i j hno => h.bare i j fun hin => hno ⟨(inLoop_succ hn).mpr (.inl hin.1), hin.2⟩⟩

/-- The exception stack of the parent is not shared. -/
theorem stack_not_loopPage (hn : n < loopPages) :
    ¬ (stackPde = loopPde n ∧ stackPte = loopPte n) := by
  rintro ⟨hi, hj⟩
  exact stack_not_inLoop (hi.symm ▸ hj.symm ▸ loopPage_inLoop hn)

section

variable (h : Sharing L code c cur d childId n v k) (hn : n < loopPages)
  (present : k.pte cur (loopPde n) (loopPte n) &&& pteP ≠ 0)
  (hdup : Dupped L k cur (envx childId) (loopPde n) (loopPte n) k')

include h hn present hdup

/-- The page that is shared now is not written in place, and the others are as they were. -/
theorem soleDupped (hplace : k'.InPlace cur i j) : k'.frames.Sole (cur, i, j) := by
  have hslot : ¬ (i = loopPde n ∧ j = loopPte n) := by
    rintro ⟨rfl, rfl⟩
    obtain ⟨-, hw⟩ | hs := hplace
    · rw [hdup.shared] at hw
      exact hw sharedPte_readonly.1
    · exact stack_not_loopPage hn ⟨hs.1.symm, hs.2.symm⟩
  rw [Kernel.InPlace, hdup.rest cur i j fun heq => hslot heq.2] at hplace
  have hsole := h.family.sole cur (Set.mem_singleton cur) i j hplace
  rintro f ⟨e', i', j'⟩ hx hy
  have hx₀ : k.frames.frame (cur, i, j) = some f :=
    (hdup.target present fun heq => h.hasChild.ne heq.1.symm).symm.trans hx
  by_cases hchild : e' = envx childId ∧ i' = loopPde n ∧ j' = loopPte n
  · obtain ⟨rfl, rfl, rfl⟩ := hchild
    have hy₀ := hsole f (cur, loopPde n, loopPte n) hx₀ ((hdup.childTarget present).symm.trans hy)
    obtain ⟨hi, hj⟩ := Prod.mk.inj (Prod.mk.inj hy₀).2
    exact absurd ⟨hi.symm, hj.symm⟩ hslot
  · exact hsole f (e', i', j') hx₀ ((hdup.target present hchild).symm.trans hy)

theorem familyDupped : CowFamily L code.entry {cur} k' := by
  have hrest : ∀ i j, ¬ (i = loopPde n ∧ j = loopPte n) → k'.pte cur i j = k.pte cur i j :=
    fun i j hne => hdup.rest cur i j fun heq => hne heq.2
  have henvs : k'.envs = k.envs := by rw [hdup.ends.1]
  have hfamily := h.family
  have hmember : cur ∈ ({cur} : Set EnvIdx) := Set.mem_singleton cur
  refine ⟨hdup.ends.memInv hfamily.mem, by rw [hdup.ends.1]; exact hfamily.slots, ?_, ?_, ?_, ?_, ?_,
    ?_⟩
  all_goals
    intro e he
    obtain rfl := Set.mem_singleton_iff.mp he
  · rw [Kernel.status, henvs]
    exact hfamily.used e hmember
  · rw [henvs]
    exact hfamily.ids e hmember
  · rw [henvs]
    exact hfamily.upcall e hmember
  · obtain ⟨⟨g, hg⟩, hpte⟩ := hfamily.stack e hmember
    have hentry : k'.entryAt e uxstack = k.entryAt e uxstack := hrest _ _ (stack_not_loopPage hn)
    exact ⟨⟨g, (congrArg entryFrame hentry).trans hg⟩, by rwa [hentry]⟩
  · intro i j hij hp hw
    by_cases hslot : i = loopPde n ∧ j = loopPte n
    · obtain ⟨rfl, rfl⟩ := hslot
      rw [hdup.shared] at hw ⊢
      exact parentPte_user (hw.resolve_left fun hno => hno sharedPte_readonly.1)
    · rw [hrest i j hslot] at hp hw ⊢
      exact hfamily.user e hmember i j hij hp hw
  · exact fun i j hplace => h.soleDupped hn present hdup hplace

/-- The parent, after the page has been shared. -/
theorem soloDupped : Solo L code c cur d v k' := by
  have hcur : ∀ {i j}, ¬ (cur = envx childId ∧ i = loopPde n ∧ j = loopPte n) := fun heq =>
    h.hasChild.ne heq.1.symm
  refine ⟨h.familyDupped hn present hdup, hdup.ends.inUser h.inUser,
    fun i hi => ⟨(h.reads i hi).1, ?_⟩, fun va hva => ?_⟩
  · obtain ⟨hp, hu⟩ := (h.reads i hi).2
    change k'.pte cur _ _ &&& pteP ≠ 0 ∧ k'.pte cur _ _ &&& pteU ≠ 0
    by_cases hslot : pdx (code.handler + BitVec.ofNat 32 i) = loopPde n ∧
        ptx (code.handler + BitVec.ofNat 32 i) = loopPte n
    · rw [Kernel.entryAt, hslot.1, hslot.2] at hu
      rw [hslot.1, hslot.2, hdup.shared]
      exact ⟨(sharedPte_iff present).2.2.1, parentPte_reads hu⟩
    · rw [hdup.rest cur _ _ fun heq => hslot heq.2]
      exact ⟨hp, hu⟩
  · rw [← h.sees va hva]
    exact Kernel.viewAt_same (hdup.target present hcur) fun f hf => hdup.mem _ _ _ f hcur hf

end

theorem dupped (h : Sharing L code c cur d childId n v k) (hn : n < loopPages)
    (present : k.pte cur (loopPde n) (loopPte n) &&& pteP ≠ 0)
    (hdup : Dupped L k cur (envx childId) (loopPde n) (loopPte n) k')
    (held : Word → Option Byte) : Sharing L code c cur d childId (n + 1)
      (ForkAct.run v (.page cur (envx childId) (loopPde n) (loopPte n) held)) k' := by
  have hne : cur ≠ envx childId := h.hasChild.ne.symm
  have hsolo := h.soloDupped hn present hdup
  have hother : ∀ {e i j}, ¬ (i = loopPde n ∧ j = loopPte n) → k'.pte e i j = k.pte e i j :=
    fun hslot => hdup.rest _ _ _ fun heq => hslot heq.2
  refine ⟨⟨hsolo.family, hsolo.inUser, hsolo.reads, fun va hva => ?_⟩, hn,
    hdup.ends.hasChild h.hasChild, ?_, fun va hva => ?_, fun i j hin hp => ?_,
    fun i j hno hs => ?_⟩
  · rw [hsolo.sees va hva, ForkAct.run, Function.update_of_ne hne]
  · rw [hdup.ends.1]
    exact h.id
  · rw [ForkAct.run, Function.update_self]
    by_cases hslot : pdx va = loopPde n ∧ ptx va = loopPte n
    · rw [if_pos hslot, ← h.sees va hva]
      refine Kernel.viewAt_same ?_ fun f hf => hdup.mem _ _ _ f (fun heq => hne heq.1) hf
      rw [hslot.1, hslot.2]
      exact hdup.childTarget present
    · rw [if_neg hslot, ← h.copied va hva]
      have hnot : ¬ (envx childId = envx childId ∧ pdx va = loopPde n ∧ ptx va = loopPte n) :=
        fun heq => hslot heq.2
      exact Kernel.viewAt_same (hdup.target present hnot) fun f hf => hdup.mem _ _ _ f hnot hf
  · by_cases hslot : i = loopPde n ∧ j = loopPte n
    · obtain ⟨rfl, rfl⟩ := hslot
      rw [hdup.copy]
      exact ⟨(sharedPte_iff present).2.2.2, childPte_user _, sharedPte_readonly.2⟩
    · rw [hother hslot] at hp ⊢
      exact h.pages i j (((inLoop_succ hn).mp hin).resolve_right hslot) hp
  · have hslot : ¬ (i = loopPde n ∧ j = loopPte n) := by
      rintro ⟨rfl, rfl⟩
      refine hno ⟨(inLoop_succ hn).mpr (.inr ⟨rfl, rfl⟩), ?_⟩
      rw [hdup.shared]
      exact (sharedPte_iff present).2.2.1
    rw [hother hslot] at hno ⊢
    exact h.bare i j (fun hin => hno ⟨(inLoop_succ hn).mpr (.inl hin.1), hin.2⟩) hs

end Sharing

/-- `sys_exofork` makes a child without memory. -/
theorem Solo.childMade (h : Solo L code c cur d v k) (hu : InUser L c cur d k')
    (hmade : ChildMade L k cur childId k') (empty : ∀ va, v (envx childId) va = none) :
    Sharing L code c cur d childId 0 v k' := by
  have hmember : cur ∈ ({cur} : Set EnvIdx) := Set.mem_singleton cur
  have hnone : entryFrame 0 = none := entryFrame_zero
  have henvs : k'.envs cur = k.envs cur := hmade.envs cur hmade.hasChild.ne.symm
  have hbare : ∀ i j, k'.pte (envx childId) i j = 0 := fun i j =>
    (hmade.pte _ i j).trans (Phys.pteAt_of_noDir ((h.family.mem.live _).mp hmade.new))
  have hfamily : CowFamily L code.entry {cur} k' := by
    refine h.family.congr hu.mem hmade.slots hmade.pte (fun e he => ?_) (fun e he => ?_)
      fun e he => ?_
    all_goals obtain rfl := Set.mem_singleton_iff.mp he
    · rw [Kernel.status, henvs, Kernel.status]
    · rw [henvs]
    · rw [henvs]
  refine ⟨⟨hfamily, hu, fun i hi => ⟨(h.reads i hi).1, ?_⟩, fun va hva => ?_⟩, Nat.zero_le _,
    hmade.hasChild, congrArg envx hmade.id, fun va hva => ?_, fun i j hin => ?_,
    fun i j _ _ => hbare i j⟩
  · exact (Kernel.access_of_entry (hmade.pte cur _ _)).2 (h.reads i hi).2
  · rw [← h.sees va hva]
    exact Kernel.viewAt_same (congrArg entryFrame (hmade.pte cur _ _)) fun f hf =>
      hmade.contents _ _ _ f hf
  · have hpage : k'.pageAt (envx childId) va = none := (congrArg entryFrame (hbare _ _)).trans hnone
    rw [empty, Kernel.viewAt, hpage]
    rfl
  · rw [InLoop] at hin
    omega

/-! ### The exception stack of the child -/

/-- The slots that the last part of `fork` changes: the exception stack of the child, and `PFTEMP`. -/
def setUpSlots (cur child : EnvIdx) : Set (EnvIdx × Idx × Idx) :=
  {(child, stackPde, stackPte), (cur, tempPde, tempPte)}

theorem setUpSlots_cases {child : EnvIdx} {x : EnvIdx × Idx × Idx} (h : x ∈ setUpSlots cur child) :
    x = (child, stackPde, stackPte) ∨ x = (cur, tempPde, tempPte) := h

/-- A page that the parent writes in place is not in these slots. -/
theorem InPlace.not_setUp {child : EnvIdx} (h : k.InPlace cur i j) (hne : child ≠ cur) :
    (cur, i, j) ∉ setUpSlots cur child := by
  intro hx
  obtain hx | hx := setUpSlots_cases hx
  · exact hne (Prod.mk.inj hx).1.symm
  · obtain ⟨rfl, rfl⟩ := Prod.mk.inj (Prod.mk.inj hx).2
    obtain ⟨hin, -⟩ | ⟨hs, -⟩ := h
    · exact temp_not_inLoop hin
    · exact stack_ne_temp hs.symm

/-- From `k` to `k'` some of these slots have got other entries, of pages that are mapped nowhere
else, and the bytes of the pages in the loop are the same. -/
structure SetsUp (L : Layout) (k : Kernel) (cur child : EnvIdx) (k' : Kernel) : Prop where
  ends : MemInv.Ends L k k'
  rest : ∀ e i j, k'.pte e i j = k.pte e i j ∨ (e, i, j) ∈ setUpSlots cur child ∧
    ∀ f, k'.frames.frame (e, i, j) = some f → k.mappings f ⊆ setUpSlots cur child
  mem : ∀ e i j f, InLoop loopPages i j → k.phys.target k.dirs (.pte e i j) = some f →
    e = cur ∨ e = child → k'.phys.mem f = k.phys.mem f

namespace SetsUp

variable {child : EnvIdx}

theorem pte (h : SetsUp L k cur child k') (hx : (e, i, j) ∉ setUpSlots cur child) :
    k'.pte e i j = k.pte e i j := (h.rest e i j).resolve_right fun hno => hx hno.1

theorem loop (h : SetsUp L k cur child k') (hin : InLoop loopPages i j) :
    k'.pte e i j = k.pte e i j := by
  refine h.pte fun hx => ?_
  obtain hx | hx := setUpSlots_cases hx
  all_goals obtain ⟨rfl, rfl⟩ := Prod.mk.inj (Prod.mk.inj hx).2
  · exact stack_not_inLoop hin
  · exact temp_not_inLoop hin

theorem view (h : SetsUp L k cur child k') (he : e = cur ∨ e = child) (hva : ForkPage va) :
    k'.viewAt e va = k.viewAt e va :=
  Kernel.viewAt_same (congrArg entryFrame (h.loop hva)) fun f hf => h.mem e _ _ f hva hf he

/-- The family of the parent stays. -/
theorem family (h : SetsUp L k cur child k') (hk : CowFamily L code.entry {cur} k)
    (hne : child ≠ cur) : CowFamily L code.entry {cur} k' := by
  have henvs : k'.envs = k.envs := by rw [h.ends.1]
  refine ⟨h.ends.memInv hk.mem, ?_, fun e he => ?_, fun e he => ?_, fun e he => ?_, fun e he => ?_,
    fun e he i j hin hp hw => ?_, fun e he i j hplace => ?_⟩
  · rw [h.ends.1]
    exact hk.slots
  · rw [Kernel.status, henvs]
    exact hk.used e he
  · rw [henvs]
    exact hk.ids e he
  · rw [henvs]
    exact hk.upcall e he
  · obtain rfl := Set.mem_singleton_iff.mp he
    obtain ⟨⟨g, hg⟩, hpte⟩ := hk.stack e he
    have hentry : k'.entryAt e uxstack = k.entryAt e uxstack :=
      h.pte (InPlace.not_setUp (k := k) (.inr ⟨rfl, rfl⟩) hne)
    exact ⟨⟨g, (congrArg entryFrame hentry).trans hg⟩, by rwa [hentry]⟩
  · rw [h.loop hin] at hp hw ⊢
    exact hk.user e he i j hin hp hw
  · obtain rfl := Set.mem_singleton_iff.mp he
    have hplace₀ : k.InPlace e i j := by
      obtain ⟨hin, hw⟩ | hs := hplace
      · rw [h.loop hin] at hw
        exact .inl ⟨hin, hw⟩
      · exact .inr hs
    have hslot := InPlace.not_setUp hplace₀ hne
    rintro f ⟨e', i', j'⟩ hx hy
    have hx₀ : k.frames.frame (e, i, j) = some f := (congrArg entryFrame (h.pte hslot)).symm.trans hx
    obtain hsame | ⟨-, hnew⟩ := h.rest e' i' j'
    · exact hk.sole e he i j hplace₀ f (e', i', j') hx₀ ((congrArg entryFrame hsame).symm.trans hy)
    · exact absurd (hnew f hy (Kernel.mem_mappings.mpr hx₀)) hslot

end SetsUp

theorem Sharing.setUp (h : Sharing L code c cur d childId n v k)
    (hset : SetsUp L k cur (envx childId) k') : Sharing L code c cur d childId n v k' := by
  have hchild : ∀ {i j}, ¬ (i = stackPde ∧ j = stackPte) →
      (envx childId, i, j) ∉ setUpSlots cur (envx childId) := by
    intro i j hs hx
    obtain hx | hx := setUpSlots_cases hx
    · exact hs (Prod.mk.inj (Prod.mk.inj hx).2)
    · exact h.hasChild.ne (Prod.mk.inj hx).1
  have hloop : ∀ {e i j}, InLoop n i j → k'.pte e i j = k.pte e i j := fun hin =>
    hset.loop (inLoop_mono h.bound hin)
  refine ⟨⟨hset.family h.family h.hasChild.ne, hset.ends.inUser h.inUser,
    fun i hi => ⟨(h.reads i hi).1, ?_⟩, fun va hva => ?_⟩, h.bound, hset.ends.hasChild h.hasChild, ?_,
    fun va hva => ?_, fun i j hin hp => ?_, fun i j hno hs => ?_⟩
  · exact (Kernel.access_of_entry (hset.loop (h.reads i hi).1)).2 (h.reads i hi).2
  · rw [hset.view (.inl rfl) hva, h.sees va hva]
  · rw [hset.ends.1]
    exact h.id
  · rw [hset.view (.inr rfl) hva, h.copied va hva]
  · rw [hloop hin] at hp ⊢
    exact h.pages i j hin hp
  · rw [hset.pte (hchild hs)]
    refine h.bare i j (fun hin => hno ⟨hin.1, ?_⟩) hs
    rw [hloop hin.1]
    exact hin.2

/-- The exception stack of the child is the page `g`, which is mapped in the slots `T` only. -/
structure Kernel.NewStack (k : Kernel) (child : EnvIdx) (T : Set (EnvIdx × Idx × Idx)) (g : Nat) :
    Prop where
  entry : k.pte child stackPde stackPte = mkPte g stackPerm
  lt : g < 1048576
  only : k.mappings g ⊆ T

namespace Kernel.NewStack

variable {child : EnvIdx} {T : Set (EnvIdx × Idx × Idx)} {g : Nat}

theorem mem (h : k.NewStack child T g) : (child, stackPde, stackPte) ∈ k.mappings g := by
  rw [Kernel.mem_mappings, Kernel.target_pte, h.entry]
  exact entryFrame_mkPte h.lt (by decide)

theorem waited (h : k.NewStack child T g) (hw : Waited L code cur d k as c' k')
    (hne : child ≠ cur) : k'.NewStack child T g := by
  have hentry : k'.pte child stackPde stackPte = mkPte g stackPerm :=
    (hw.pte child _ _ hne).trans h.entry
  refine ⟨hentry, h.lt, ?_⟩
  obtain hsub | ⟨x, hx⟩ := hw.copies.frames g
  · exact hsub.trans h.only
  · have hmem : (child, stackPde, stackPte) ∈ k'.mappings g := by
      rw [Kernel.mem_mappings, Kernel.target_pte, hentry]
      exact entryFrame_mkPte h.lt (by decide)
    obtain rfl := Set.mem_singleton_iff.mp (hx hmem)
    exact hx.trans (Set.singleton_subset_iff.mpr (h.only h.mem))

theorem ownStack (h : k.NewStack child {(child, stackPde, stackPte)} g) : k.OwnStack child := by
  have hentry : k.entryAt child uxstack = mkPte g stackPerm := h.entry
  have hframe : entryFrame (mkPte g stackPerm) = some g := entryFrame_mkPte h.lt (by decide)
  refine ⟨⟨⟨g, (congrArg entryFrame hentry).trans hframe⟩, by rw [hentry]; exact stackPerm_user g⟩,
    fun f y hf hy => ?_⟩
  change entryFrame (k.entryAt child uxstack) = some f at hf
  rw [hentry, hframe] at hf
  obtain rfl := Option.some.inj hf
  exact h.only (Kernel.mem_mappings.mpr hy)

end Kernel.NewStack

theorem checked_ret {m : KM Word} (run : checked m k = .ret () k') :
    ∃ r, m k = .ret r k' ∧ r.slt 0 = false := by
  obtain ⟨r, k₁, hcall, hcheck⟩ := bind_eq_ret run
  rw [check] at hcheck
  split at hcheck
  · cases hcheck
  · rename_i hpos
    obtain ⟨-, rfl⟩ := Outcome.ret.inj hcheck
    rw [call] at hcall
    split at hcall
    · rename_i hm
      obtain ⟨rfl, rfl⟩ := Outcome.ret.inj hcall
      exact ⟨_, hm, by simpa using hpos⟩
    · cases hcall
    · cases hcall

theorem eNoMem_negative : ¬ (-eNoMem : Word).slt 0 = false := by decide

/-- An edit in one of the slots, of a page that is mapped in them at most. -/
theorem MemInv.Edited.setsUp {child : EnvIdx} {w : Word} (h : Edited L k e i j w k')
    (hslot : (e, i, j) ∈ setUpSlots cur child)
    (hw : ∀ f, entryFrame w = some f → k.mappings f ⊆ setUpSlots cur child) :
    SetsUp L k cur child k' := by
  refine ⟨h.ends, fun e' i' j' => ?_, fun e' i' j' f _ hf _ => h.mem e' i' j' f hf⟩
  by_cases hself : e' = e ∧ i' = i ∧ j' = j
  · obtain ⟨rfl, rfl, rfl⟩ := hself
    refine .inr ⟨hslot, fun f hf => hw f ?_⟩
    rw [← h.self]
    exact hf
  · exact .inl (h.rest e' i' j' hself)

namespace Sharing

section

variable {g : Nat} {id : Word} (h : Sharing L code c cur d childId n v k)

include h

theorem allocStack
    (run : checked (sysPageAlloc cur childId uxstack stackPerm) k = .ret () k') :
    Sharing L code c cur d childId n v k' ∧
      ∃ g, k'.NewStack (envx childId) {(envx childId, stackPde, stackPte)} g := by
  obtain ⟨r, hcall, hpos⟩ := checked_ret run
  obtain ⟨r', k₁, hrun, hres⟩ := h.family.mem.sysPageAlloc_total h.hasChild.used h.hasChild.target
    (show vaOk uxstack by decide) (show permOk stackPerm by decide)
  obtain ⟨rfl, rfl⟩ := Outcome.ret.inj (hcall.symm.trans hrun)
  obtain ⟨rfl, -⟩ | ⟨-, ⟨g, hlisted, hg, -, hedit⟩, -⟩ := hres
  · exact absurd hpos eNoMem_negative
  have hsole := hedit.sole h.family.mem hlisted hg (by decide)
  refine ⟨h.setUp (hedit.setsUp (.inl rfl) fun f hf => ?_), g, hedit.self, hg, hsole.le⟩
  rw [entryFrame_mkPte hg (by decide)] at hf
  obtain rfl := Option.some.inj hf
  exact fun x hx => absurd (Kernel.mem_mappings.mp hx) (h.family.mem.phys.listed_fresh hlisted _)

theorem mapStack (hid : id = (k.envs cur).id)
    (hnew : k.NewStack (envx childId) {(envx childId, stackPde, stackPte)} g)
    (run : checked (sysPageMap cur childId uxstack id pftemp stackPerm) k = .ret () k') :
    Sharing L code c cur d childId n v k' ∧
      k'.NewStack (envx childId) (setUpSlots cur (envx childId)) g ∧
      k'.pte cur tempPde tempPte = mkPte g stackPerm := by
  subst hid
  obtain ⟨r, hcall, hpos⟩ := checked_ret run
  have hpage : k.pageAt (envx childId) uxstack = some g := Kernel.mem_mappings.mp hnew.mem
  have hsole : k.mappings g = {(envx childId, stackPde, stackPte)} :=
    hnew.only.antisymm (Set.singleton_subset_iff.mpr hnew.mem)
  obtain ⟨r', k₁, hrun, hres⟩ := h.family.mem.sysPageMap_total h.hasChild.target h.inUser.self
    ⟨h.hasChild.used, h.inUser.used⟩ (show vaOk uxstack ∧ vaOk pftemp by decide)
    (show permOk stackPerm by decide) hpage (fun _ => by
      change k.pte (envx childId) stackPde stackPte &&& pteW ≠ 0
      rw [hnew.entry]
      exact (stackPerm_user g).2 rfl) (.inr (h.family.mem.ref_of_sole hsole))
  obtain ⟨rfl, rfl⟩ := Outcome.ret.inj (hcall.symm.trans hrun)
  obtain ⟨rfl, -⟩ | ⟨-, hedit, -⟩ := hres
  · exact absurd hpos eNoMem_negative
  have hsub : k.mappings g ⊆ setUpSlots cur (envx childId) :=
    hnew.only.trans (Set.singleton_subset_iff.mpr (.inl rfl))
  have hother : ¬ (envx childId = cur ∧ stackPde = tempPde ∧ stackPte = tempPte) := fun heq =>
    h.hasChild.ne heq.1
  refine ⟨h.setUp (hedit.setsUp (.inr rfl) fun f hf => ?_),
    ⟨(hedit.rest _ _ _ hother).trans hnew.entry, hnew.lt, ?_⟩, hedit.self⟩
  · rw [entryFrame_mkPte hnew.lt (by decide)] at hf
    obtain rfl := Option.some.inj hf
    exact hsub
  · rintro ⟨e, i, j⟩ hx
    by_cases hself : e = cur ∧ i = tempPde ∧ j = tempPte
    · obtain ⟨rfl, rfl, rfl⟩ := hself
      exact .inr rfl
    · refine hsub (Kernel.mem_mappings.mpr ?_)
      rw [← hedit.target hself]
      exact Kernel.mem_mappings.mp hx

/-- The exception stack of the parent gets other bytes. -/
theorem copyStack (hnew : k.NewStack (envx childId) (setUpSlots cur (envx childId)) g)
    (htemp : k.pte cur tempPde tempPte = mkPte g stackPerm)
    (run : memmove c uxstack pftemp pgsize k = .ret () k') :
    Sharing L code c cur d childId n v k' ∧
      k'.NewStack (envx childId) (setUpSlots cur (envx childId)) g ∧
      k'.pte cur tempPde tempPte = mkPte g stackPerm := by
  have hmember : cur ∈ ({cur} : Set EnvIdx) := Set.mem_singleton cur
  have hplace : k.InPlace cur stackPde stackPte := .inr ⟨rfl, rfl⟩
  obtain ⟨⟨g₀, hg₀⟩, hwrite⟩ := h.family.stack cur hmember
  have hsole := h.family.sole cur hmember _ _ hplace
  have hframe : k.pageAt cur pftemp = some g := by
    change entryFrame (k.pte cur tempPde tempPte) = some g
    rw [htemp, entryFrame_mkPte hnew.lt (by decide)]
  have hread : UserPte (k.entryAt cur pftemp) false := by
    change UserPte (k.pte cur tempPde tempPte) false
    rw [htemp]
    exact ⟨(stackPerm_user g).1, fun hno => absurd hno (by decide)⟩
  have hne : g ≠ g₀ := by
    rintro rfl
    exact InPlace.not_setUp hplace h.hasChild.ne (hnew.only (Kernel.mem_mappings.mpr hg₀))
  obtain ⟨k₁, hrun, hcopied⟩ := h.inUser.memmove_page (show vaOk pftemp ∧ vaOk uxstack by decide)
    hframe hread hg₀ hwrite hne
  obtain ⟨-, rfl⟩ := Outcome.ret.inj (run.symm.trans hrun)
  refine ⟨h.setUp ⟨hcopied.ends, fun e i j => .inl (hcopied.pte e i j), fun e i j f hin hf _ => ?_⟩,
    ⟨(hcopied.pte _ _ _).trans hnew.entry, hnew.lt, ?_⟩, (hcopied.pte _ _ _).trans htemp⟩
  · refine hcopied.mem f ?_
    rintro rfl
    obtain ⟨rfl, rfl⟩ := Prod.mk.inj (Prod.mk.inj (hsole f (e, i, j) hg₀ hf)).2
    exact stack_not_inLoop hin
  · rw [Kernel.mappings_congr hcopied.pte]
    exact hnew.only

theorem unmapStack (hid : id = (k.envs cur).id)
    (hnew : k.NewStack (envx childId) (setUpSlots cur (envx childId)) g)
    (htemp : k.pte cur tempPde tempPte = mkPte g stackPerm)
    (run : checked (sysPageUnmap cur id pftemp) k = .ret () k') :
    Sharing L code c cur d childId n v k' ∧
      k'.NewStack (envx childId) {(envx childId, stackPde, stackPte)} g := by
  subst hid
  have hnone : entryFrame 0 = none := entryFrame_zero
  obtain ⟨r, hcall, -⟩ := checked_ret run
  have hframe : k.pageAt cur pftemp = some g := by
    change entryFrame (k.pte cur tempPde tempPte) = some g
    rw [htemp, entryFrame_mkPte hnew.lt (by decide)]
  obtain ⟨k₁, hrun, hedit, -⟩ := h.family.mem.sysPageUnmap_total h.inUser.used h.inUser.self
    (show vaOk pftemp by decide) hframe
  obtain ⟨-, rfl⟩ := Outcome.ret.inj (hcall.symm.trans hrun)
  have hother : ¬ (envx childId = cur ∧ stackPde = tempPde ∧ stackPte = tempPte) := fun heq =>
    h.hasChild.ne heq.1
  refine ⟨h.setUp (hedit.setsUp (.inr rfl) fun f hf => ?_),
    (hedit.rest _ _ _ hother).trans hnew.entry, hnew.lt, ?_⟩
  · rw [hnone] at hf
    simp at hf
  · rintro ⟨e, i, j⟩ hx
    rw [Kernel.mem_mappings] at hx
    have hself : ¬ (e = cur ∧ i = tempPde ∧ j = tempPte) := by
      rintro ⟨rfl, rfl, rfl⟩
      rw [Kernel.target_pte, hedit.self, hnone] at hx
      simp at hx
    rw [hedit.target hself] at hx
    obtain hslot | hslot := setUpSlots_cases (hnew.only (Kernel.mem_mappings.mpr hx))
    · exact hslot
    · obtain ⟨rfl, hij⟩ := Prod.mk.inj hslot
      exact absurd ⟨rfl, Prod.mk.inj hij⟩ hself

/-- The child gets its upcall, or it becomes runnable. -/
theorem sets (hsets : k.Sets (envx childId) k') : Sharing L code c cur d childId n v k' := by
  have hsame := hsets.same
  have hview : ∀ e va, k'.viewAt e va = k.viewAt e va := fun e va =>
    Kernel.viewAt_same (congrArg entryFrame (hsame.pte e _ _)) fun f _ => by rw [hsame.phys]
  have hfamily : CowFamily L code.entry {cur} k' := h.family.sameMaps hsame fun e he => by
    rw [Set.mem_singleton_iff.mp he, hsets.others cur h.hasChild.ne.symm]
  refine ⟨⟨hfamily, hsame.inUser hsets.cpus h.inUser, fun i hi => ⟨(h.reads i hi).1, ?_⟩,
    fun va hva => (hview cur va).trans (h.sees va hva)⟩, h.bound, hsame.hasChild h.hasChild, ?_,
    fun va hva => (hview _ va).trans (h.copied va hva), fun i j hin hp => ?_, fun i j hno hs => ?_⟩
  · exact (Kernel.access_of_entry (hsame.pte cur _ _)).2 (h.reads i hi).2
  · rw [hsame.id]
    exact h.id
  · rw [hsame.pte] at hp ⊢
    exact h.pages i j hin hp
  · rw [hsame.pte] at hno ⊢
    exact h.bare i j hno hs

end

end Sharing

theorem Kernel.NewStack.sets {child : EnvIdx} {T : Set (EnvIdx × Idx × Idx)} {g : Nat}
    (h : k.NewStack child T g) (hsets : k.Sets e k') : k'.NewStack child T g := by
  refine ⟨(hsets.same.pte _ _ _).trans h.entry, h.lt, ?_⟩
  rw [Kernel.mappings_congr hsets.same.pte]
  exact h.only

/-- The parent and the child are a family now, and see the memories of `v`. -/
theorem Sharing.private {g : Nat} (h : Sharing L code c cur d childId loopPages v k)
    (hnew : k.NewStack (envx childId) {(envx childId, stackPde, stackPte)} g)
    (upcall : (k.envs (envx childId)).pgfaultUpcall = code.entry) :
    Private L code ∅ v {envx childId, cur} k := by
  have hparent : ∀ {e}, e ∈ ({envx childId, cur} : Set EnvIdx) → e ≠ envx childId →
      e ∈ ({cur} : Set EnvIdx) := fun he hne => Set.mem_of_mem_insert_of_ne he hne
  have hzero : (0 : Word) &&& pteP = 0 ∧ (0 : Word) &&& pteW = 0 := by decide
  have hreadonly : ∀ i j, InLoop loopPages i j → k.pte (envx childId) i j &&& pteW = 0 ∧
      (k.pte (envx childId) i j &&& pteP ≠ 0 → k.pte (envx childId) i j &&& pteU ≠ 0) := by
    intro i j hin
    by_cases hp : k.pte cur i j &&& pteP ≠ 0
    · exact ⟨(h.pages i j hin hp).2.2, fun _ => (h.pages i j hin hp).2.1⟩
    · have hs : ¬ (i = stackPde ∧ j = stackPte) := by
        rintro ⟨rfl, rfl⟩
        exact stack_not_inLoop hin
      rw [h.bare i j (fun hno => hp hno.2) hs]
      exact ⟨hzero.2, fun hno => absurd hzero.1 hno⟩
  have hfamily : CowFamily L code.entry {envx childId, cur} k := by
    refine ⟨h.family.mem, h.family.slots, fun e he => ?_, fun e he => ?_, fun e he => ?_,
      fun e he => ?_, fun e he i j hin hp hw => ?_, fun e he i j hplace => ?_⟩
    all_goals by_cases hchild : e = envx childId
    · exact hchild ▸ h.hasChild.used
    · exact h.family.used e (hparent he hchild)
    · exact hchild ▸ h.id
    · exact h.family.ids e (hparent he hchild)
    · exact hchild ▸ upcall
    · exact h.family.upcall e (hparent he hchild)
    · exact hchild ▸ hnew.ownStack.stack
    · exact h.family.stack e (hparent he hchild)
    · subst hchild
      exact (hreadonly i j hin).2 hp
    · exact h.family.user e (hparent he hchild) i j hin hp hw
    · subst hchild
      obtain ⟨hin, hw⟩ | ⟨rfl, rfl⟩ := hplace
      · exact absurd (hreadonly i j hin).1 hw
      · exact hnew.ownStack.sole
    · exact h.family.sole e (hparent he hchild) i j hplace
  refine ⟨hfamily, fun e he va hva => ?_, fun e _ va hno => hno.elim, fun e he i hi => ?_⟩
  · by_cases hchild : e = envx childId
    · exact hchild ▸ h.copied va hva
    · exact Set.mem_singleton_iff.mp (hparent he hchild) ▸ h.sees va hva
  · by_cases hchild : e = envx childId
    · obtain ⟨hpage, hread⟩ := h.reads i hi
      obtain ⟨hp, hu, -⟩ := h.pages _ _ hpage hread.1
      exact ⟨hpage, hchild ▸ ⟨hp, hu⟩⟩
    · exact Set.mem_singleton_iff.mp (hparent he hchild) ▸ h.reads i hi

end Jos
