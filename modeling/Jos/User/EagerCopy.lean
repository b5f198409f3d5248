import Jos.User.Interleaved

/-!
# `fork` is as good as a copy page by page

The run of `fork` among the stores of the parent, part by part, and the runs of the family after it.
Each of the two has what it would have if the loop of `fork` copied every page when it comes to it,
as `dumbfork` does.
-/

namespace Jos

open Prog

variable {L : Layout} {k k' k₀ k₁ : Kernel} {c c' d n : Nat} {cur e : EnvIdx} {i j : Idx}
  {va childId : Word} {code : ForkCode} {v₀ : EnvIdx → Word → Option Byte} {es : List ForkAct}
  {as : List Access}

/-- In `es` the loop has come to the page of `va`. Since then the child has at `va` what the page held
there, and so has the parent, if it has not written there. -/
def Duplicated (v₀ : EnvIdx → Word → Option Byte) (cur child : EnvIdx) (es : List ForkAct)
    (va : Word) : Prop :=
  ∃ before held since, es = before ++ .page cur child (pdx va) (ptx va) held :: since ∧
    ForkAct.runs v₀ es child va = held va ∧
    ForkAct.runs v₀ es cur va = (ForkAct.lastWrite cur va since).or (held va)

theorem Duplicated.own {child : EnvIdx} (h : Duplicated v₀ cur child es va) (hne : child ≠ cur)
    {as : List ForkAct} (own : ∀ a ∈ as, a.IsOf cur) : Duplicated v₀ cur child (es ++ as) va := by
  obtain ⟨before, held, since, rfl, hchild, hparent⟩ := h
  refine ⟨before, held, since ++ as, by simp, ?_, ?_⟩
  · rw [ForkAct.runs_append, ForkAct.runs_own own, ForkAct.lastWrite_other own hne, hchild,
      Option.none_or]
  · rw [ForkAct.runs_append, ForkAct.runs_own own, hparent, ForkAct.lastWrite_append,
      Option.or_assoc]

/-- The loop comes to another page. -/
theorem Duplicated.next {child : EnvIdx} (h : Duplicated v₀ cur child es va)
    (hother : ¬ (pdx va = i ∧ ptx va = j)) (held : Word → Option Byte) :
    Duplicated v₀ cur child (es ++ [.page cur child i j held]) va := by
  have hcopies : ∀ e, ¬ (ForkAct.page cur child i j held).CopiesTo e va := fun e heq => hother heq.2
  obtain ⟨before, held', since, rfl, hchild, hparent⟩ := h
  refine ⟨before, held', since ++ [.page cur child i j held], by simp, ?_, ?_⟩
  · rw [ForkAct.runs_append]
    exact (ForkAct.run_byte (hcopies _)).trans hchild
  · rw [ForkAct.runs_append, ForkAct.lastWrite_concat]
    exact (ForkAct.run_byte (hcopies _)).trans hparent

theorem ForkAct.runs_page_of_ne {child : EnvIdx} (hne : child ≠ cur) (held : Word → Option Byte) :
    runs v₀ (es ++ [.page cur child i j held]) cur = runs v₀ es cur := by
  rw [runs_append]
  exact Function.update_of_ne hne.symm _ _

theorem Duplicated.page {child : EnvIdx} (hne : child ≠ cur) (hslot : pdx va = i ∧ ptx va = j)
    {held : Word → Option Byte} (hheld : ForkAct.runs v₀ es cur va = held va) :
    Duplicated v₀ cur child (es ++ [.page cur child i j held]) va := by
  refine ⟨es, held, [], by rw [hslot.1, hslot.2], ?_, ?_⟩
  · rw [ForkAct.runs_append, ← hheld]
    exact (congrFun (Function.update_self ..) va).trans (if_pos hslot)
  · rw [ForkAct.runs_page_of_ne hne]
    exact hheld

/-- In the middle of `fork`, with the list of what has happened. -/
structure InFork (L : Layout) (code : ForkCode) (cur : EnvIdx) (d : Nat) (childId : Word)
    (v₀ : EnvIdx → Word → Option Byte) (n : Nat) (c : Nat) (es : List ForkAct) (k : Kernel) :
    Prop where
  sharing : Sharing L code c cur d childId n (ForkAct.runs v₀ es) k
  mapped : ∀ va, v₀ cur va ≠ none → ForkAct.runs v₀ es cur va ≠ none
  duplicated : ∀ va, ForkPage va → InLoop n (pdx va) (ptx va) → v₀ cur va ≠ none →
    Duplicated v₀ cur (envx childId) es va

namespace InFork

variable (h : InFork L code cur d childId v₀ n c es k)

include h

theorem waited {as : List ForkAct} (hw : Waited L code cur d k as c' k') :
    InFork L code cur d childId v₀ n c' (es ++ as) k' := by
  refine ⟨?_, fun va hva hnone => h.mapped va hva ?_, fun va hva hin hmapped =>
    (h.duplicated va hva hin hmapped).own h.sharing.hasChild.ne hw.own⟩
  · rw [ForkAct.runs_append]
    exact h.sharing.waited hw
  · rw [ForkAct.runs_append, ForkAct.runs_own hw.own] at hnone
    exact (Option.or_eq_none_iff.mp hnone).2

theorem skip (hn : n < loopPages) (absent : k.pte cur (loopPde n) (loopPte n) &&& pteP = 0) :
    InFork L code cur d childId v₀ (n + 1) c es k := by
  refine ⟨h.sharing.skip hn absent, h.mapped, fun va hva hin hmapped => ?_⟩
  obtain hin | ⟨hi, hj⟩ := (inLoop_succ hn).mp hin
  · exact h.duplicated va hva hin hmapped
  · have hpage : k.pageAt cur va = none := by
      change entryFrame (k.entryAt cur va) = none
      rw [Kernel.entryAt, hi, hj]
      exact if_neg (not_not.mpr absent)
    refine absurd ?_ (h.mapped va hmapped)
    rw [← h.sharing.sees va hva, Kernel.viewAt, hpage]
    rfl

theorem dupped (hn : n < loopPages) (present : k.pte cur (loopPde n) (loopPte n) &&& pteP ≠ 0)
    (hdup : Dupped L k cur (envx childId) (loopPde n) (loopPte n) k') :
    InFork L code cur d childId v₀ (n + 1) c
      (es ++ [.page cur (envx childId) (loopPde n) (loopPte n) (k.viewAt cur)]) k' := by
  have hne := h.sharing.hasChild.ne
  refine ⟨?_, fun va hva => ?_, fun va hva hin hmapped => ?_⟩
  · rw [ForkAct.runs_append]
    exact h.sharing.dupped hn present hdup (k.viewAt cur)
  · rw [ForkAct.runs_page_of_ne hne]
    exact h.mapped va hva
  · by_cases hslot : pdx va = loopPde n ∧ ptx va = loopPte n
    · exact .page hne hslot (h.sharing.sees va hva).symm
    · exact (h.duplicated va hva (((inLoop_succ hn).mp hin).resolve_right hslot) hmapped).next
        hslot _

/-- The calls after the loop do not change what is seen. -/
theorem call (sharing : Sharing L code c cur d childId n (ForkAct.runs v₀ es) k') :
    InFork L code cur d childId v₀ n c es k' := ⟨sharing, h.mapped, h.duplicated⟩

end InFork

/-! ### The parts -/

section Parts

variable {mode : Stores}

/-- What the stores of the parent and the switches keep stands before a part. -/
theorem stable_of_waited {P : Nat → List ForkAct → Kernel → Prop} (hup : code.entry ≠ 0)
    (solo : ∀ c es k, P c es k → Solo L code c cur d (ForkAct.runs v₀ es) k)
    (keep : ∀ c es k as c' k', P c es k → Waited L code cur d k as c' k' →
      (mode = .inPlace → ∀ e i j, k'.pte e i j = k.pte e i j) → P c' (es ++ as) k') :
    Parts.Stable (Meanwhile code cur) mode P := by
  intro c es k as c' k' hp hstep
  have hsolo := solo c es k hp
  refine keep c es k as c' k' hp (hstep.waited hsolo hup) fun hmode => ?_
  subst hmode
  exact hstep.pte_inPlace hsolo

/-- A part that adds nothing to the list. -/
theorem meets_silent {α : Type} {P : Nat → List ForkAct → Kernel → Prop}
    {Q : α → Nat → List ForkAct → Kernel → Prop} {m : Nat → User α}
    (stable : Parts.Stable (Meanwhile code cur) mode P)
    (body : ∀ c es k a k', P c es k → m c k = .ret a k' → Q a c es k') :
    Parts.Meets (Meanwhile code cur) P (.step mode m fun _ => []) Q := by
  refine .step stable fun c es k a k' hp hrun => ?_
  rw [List.append_nil]
  exact body c es k a k' hp hrun

theorem sysGetenvid_ret {id : Word} (run : Jos.call (sysGetenvid cur) k = .ret id k') :
    id = (k.envs cur).id ∧ k' = k := by
  obtain ⟨hid, hk⟩ := Outcome.ret.inj (sysGetenvid_run.symm.trans run)
  exact ⟨hid.symm, hk.symm⟩

/-- A table that is not there has no entries. -/
theorem InUser.uvpdEntry_ret (h : InUser L c cur d k) (hi : i.val < userPdes) {pde : Word}
    (run : Jos.uvpdEntry c i k = .ret pde k') :
    k' = k ∧ (pde &&& pteP = 0 → k.pte cur i j &&& pteP = 0) := by
  obtain ⟨rfl, rfl⟩ := Outcome.ret.inj ((h.uvpdEntry i).symm.trans run)
  refine ⟨rfl, fun hp => ?_⟩
  have htable : k.phys.target k.dirs (.pde cur i) = none := by
    rw [Phys.target, Phys.pdeAt_of_dir h.dir hi]
    exact if_neg (not_not.mpr hp)
  rw [Kernel.pte, Phys.pteAt_of_none htable]
  rfl

theorem InUser.uvptEntry_ret (h : InUser L c cur d k) (hi : i.val < userPdes) {pte : Word}
    (run : Jos.uvptEntry c (pageNumber i j) k = .ret pte k') : pte = k.pte cur i j ∧ k' = k := by
  cases htable : k.phys.target k.dirs (.pde cur i) with
  | some t =>
      obtain ⟨rfl, rfl⟩ := Outcome.ret.inj ((h.uvptEntry htable).symm.trans run)
      exact ⟨rfl, rfl⟩
  | none =>
      have hij : pageNumber i j < 1048576 := by
        rw [pageNumber]
        omega
      have hpdx : pdx (BitVec.ofNat 32 (pageNumber i j) * 4096) = i := by
        apply Fin.ext
        rw [pdx_val, pn_toNat hij, pageNumber]
        omega
      have hdenied : ¬ k.phys.HasTable d (BitVec.ofNat 32 (pageNumber i j) * 4096) := by
        rw [Phys.HasTable, hpdx]
        rintro ⟨hp, -⟩
        rw [Phys.target, Phys.pdeAt_of_dir h.dir hi, entryFrame, if_pos hp] at htable
        simp at htable
      rw [uvptEntry_fault h.cr3 h.selfMap hij hdenied] at run
      cases run

/-- In the loop. -/
def LoopAt (L : Layout) (code : ForkCode) (cur : EnvIdx) (d : Nat) (childId : Word)
    (v₀ : EnvIdx → Word → Option Byte) (n c : Nat) (es : List ForkAct) (k : Kernel) : Prop :=
  InFork L code cur d childId v₀ n c es k ∧ k.FitsFrom cur n

/-- The page of the iteration is there. -/
def PageAt (L : Layout) (code : ForkCode) (cur : EnvIdx) (d : Nat) (childId : Word)
    (v₀ : EnvIdx → Word → Option Byte) (n c : Nat) (es : List ForkAct) (k : Kernel) : Prop :=
  LoopAt L code cur d childId v₀ n c es k ∧ k.pte cur (loopPde n) (loopPte n) &&& pteP ≠ 0

section Loop

variable {as : List ForkAct}

theorem LoopAt.waited (h : LoopAt L code cur d childId v₀ n c es k)
    (hw : Waited L code cur d k as c' k') : LoopAt L code cur d childId v₀ n c' (es ++ as) k' :=
  ⟨h.1.waited hw, h.2.copies hw.copies⟩

theorem PageAt.waited (hn : n < loopPages) (h : PageAt L code cur d childId v₀ n c es k)
    (hw : Waited L code cur d k as c' k') : PageAt L code cur d childId v₀ n c' (es ++ as) k' :=
  ⟨h.1.waited hw, (hw.present_iff h.1.1.sharing.inUser (loopPage_inLoop hn)).mpr h.2⟩

theorem LoopAt.skip (hn : n < loopPages) (h : LoopAt L code cur d childId v₀ n c es k)
    (absent : k.pte cur (loopPde n) (loopPte n) &&& pteP = 0) :
    LoopAt L code cur d childId v₀ (n + 1) c es k := ⟨h.1.skip hn absent, h.2.skip hn⟩

/-- The two mappings. -/
theorem PageAt.remapped (hn : n < loopPages) (h : PageAt L code cur d childId v₀ n c es k)
    (run : remap cur (k.envs cur).id (pgaddr (loopPde n) (loopPte n)) childId
      (Jos.duppagePerm (k.pte cur (loopPde n) (loopPte n))) k = .ret () k') :
    LoopAt L code cur d childId v₀ (n + 1) c
      (es ++ [.page cur (envx childId) (loopPde n) (loopPte n) (k.viewAt cur)]) k' := by
  obtain ⟨⟨hfork, hfits⟩, present⟩ := h
  have hf := Kernel.pte_present present
  have hspec := remap_spec hfork.sharing.inUser hfork.sharing.hasChild hf
    (hfits.room hfork.sharing.family.mem hn hf)
  rw [wp_ret run] at hspec
  exact ⟨hfork.dupped hn present hspec, hfits.page hn hspec present hfork.sharing.hasChild.ne⟩

theorem duppage_meets (hup : code.entry ≠ 0) (hn : n < loopPages) :
    Parts.Meets (Meanwhile code cur) (PageAt L code cur d childId v₀ n)
      (duppageParts cur childId (pageNumber (loopPde n) (loopPte n)))
      fun _ => LoopAt L code cur d childId v₀ (n + 1) := by
  have hin := loopPage_inLoop hn
  have hpde := forkPage_below hin
  -- the entry that has been read may be old, but says the same about the page
  let read (pte : Word) (c : Nat) (es : List ForkAct) (k : Kernel) : Prop :=
    PageAt L code cur d childId v₀ n c es k ∧
      Jos.duppagePerm pte = Jos.duppagePerm (k.pte cur (loopPde n) (loopPte n))
  have hread : ∀ {pte c es k as c' k'}, read pte c es k → Waited L code cur d k as c' k' →
      read pte c' (es ++ as) k' := fun h hw => ⟨PageAt.waited hn h.1 hw,
    h.2.trans (hw.duppagePerm h.1.1.1.sharing.inUser hin).symm⟩
  rw [duppageParts]
  refine .bind (Q := read) (meets_silent (stable_of_waited hup
    (fun _ _ _ h => h.1.1.sharing.toSolo) fun _ _ _ _ _ _ h hw _ => h.waited hn hw)
    fun c es k pte k' h hrun => ?_) fun pte => ?_
  · obtain ⟨rfl, rfl⟩ := h.1.1.sharing.inUser.uvptEntry_ret hpde hrun
    exact ⟨h, rfl⟩
  refine .bind (Q := fun id c es k => read pte c es k ∧ id = (k.envs cur).id)
    (meets_silent (stable_of_waited hup (fun _ _ _ h => h.1.1.1.sharing.toSolo)
      fun _ _ _ _ _ _ h hw _ => hread h hw) fun c es k id k' h hrun => ?_) fun id => ?_
  · obtain ⟨rfl, rfl⟩ := sysGetenvid_ret hrun
    exact ⟨h, rfl⟩
  refine .step (stable_of_waited hup (fun _ _ _ h => h.1.1.1.1.sharing.toSolo)
    fun _ _ _ _ _ _ h hw _ => ⟨hread h.1 hw, h.2.trans (hw.same.id cur).symm⟩)
    fun c es k _ k' h hrun => ?_
  obtain ⟨⟨hpage, hperm⟩, rfl⟩ := h
  rw [pgaddr_ofNat, hperm] at hrun
  rw [pgaddr_ofNat, pdx_pgaddr, ptx_pgaddr]
  exact hpage.remapped hn hrun

theorem dupPresent_meets (hup : code.entry ≠ 0) (hn : n < loopPages) :
    Parts.Meets (Meanwhile code cur) (LoopAt L code cur d childId v₀ n)
      (dupPresentParts cur childId (pgnum utext + n))
      fun _ => LoopAt L code cur d childId v₀ (n + 1) := by
  have hpde := forkPage_below (loopPage_inLoop hn)
  have hpage := (loopPage_iff (i := loopPde n) (j := loopPte n) hn).mpr ⟨rfl, rfl⟩
  have hdir : pageNumber (loopPde n) (loopPte n) / 1024 = (loopPde n).val := by
    have hlt := (loopPte n).isLt
    rw [pageNumber]
    omega
  have hstable : Parts.Stable (Meanwhile code cur) .any (LoopAt L code cur d childId v₀ n) :=
    stable_of_waited hup (fun _ _ _ h => h.1.sharing.toSolo) fun _ _ _ _ _ _ h hw _ => h.waited hw
  rw [← hpage, dupPresentParts, hdir]
  refine .bind (Q := fun pde c es k => (pde &&& pteP ≠ 0 → LoopAt L code cur d childId v₀ n c es k) ∧
    (pde &&& pteP = 0 → LoopAt L code cur d childId v₀ (n + 1) c es k))
    (meets_silent hstable fun c es k pde k' h hrun => ?_) fun pde => ?_
  · obtain ⟨rfl, habsent⟩ := h.1.sharing.inUser.uvpdEntry_ret (j := loopPte n) hpde hrun
    exact ⟨fun _ => h, fun hp => h.skip hn (habsent hp)⟩
  refine .ite (fun hp => ?_) fun hp => .pure fun _ _ _ h => h.2 (not_not.mp hp)
  refine .bind (Q := fun pte c es k => (pte &&& pteP ≠ 0 → PageAt L code cur d childId v₀ n c es k) ∧
    (pte &&& pteP = 0 → LoopAt L code cur d childId v₀ (n + 1) c es k))
    (.mono (meets_silent hstable fun c es k pte k' h hrun => ?_) (fun _ _ _ h => h.1 hp)
      fun _ _ _ _ h => h) fun pte => ?_
  · obtain ⟨rfl, rfl⟩ := h.1.sharing.inUser.uvptEntry_ret hpde hrun
    exact ⟨fun hp => ⟨h, hp⟩, fun hp => h.skip hn hp⟩
  refine .ite (fun hp => ?_) fun hp => .pure fun _ _ _ h => h.2 (not_not.mp hp)
  exact .mono (duppage_meets hup hn) (fun _ _ _ h => h.1 hp) fun _ _ _ _ h => h

theorem dupPages_meets (hup : code.entry ≠ 0) :
    Parts.Meets (Meanwhile code cur) (LoopAt L code cur d childId v₀ 0)
      (dupPagesParts cur childId) fun _ => LoopAt L code cur d childId v₀ loopPages :=
  .forRange fun _ hn => dupPresent_meets hup hn

end Loop

section Tail

/-- After the loop, with the exception stack of the child in the slots `T`. -/
def StackAt (L : Layout) (code : ForkCode) (cur : EnvIdx) (d : Nat) (childId : Word)
    (v₀ : EnvIdx → Word → Option Byte) (T : Set (EnvIdx × Idx × Idx)) (g c : Nat)
    (es : List ForkAct) (k : Kernel) : Prop :=
  InFork L code cur d childId v₀ loopPages c es k ∧ k.NewStack (envx childId) T g

/-- It is at `PFTEMP`, too. -/
def TempAt (L : Layout) (code : ForkCode) (cur : EnvIdx) (d : Nat) (childId : Word)
    (v₀ : EnvIdx → Word → Option Byte) (g c : Nat) (es : List ForkAct) (k : Kernel) : Prop :=
  StackAt L code cur d childId v₀ (setUpSlots cur (envx childId)) g c es k ∧
    k.pte cur tempPde tempPte = mkPte g stackPerm

variable {as : List ForkAct} {T : Set (EnvIdx × Idx × Idx)} {g : Nat}

theorem StackAt.waited (h : StackAt L code cur d childId v₀ T g c es k)
    (hw : Waited L code cur d k as c' k') : StackAt L code cur d childId v₀ T g c' (es ++ as) k' :=
  ⟨h.1.waited hw, h.2.waited hw h.1.sharing.hasChild.ne⟩

theorem TempAt.waited (h : TempAt L code cur d childId v₀ g c es k)
    (hw : Waited L code cur d k as c' k') (pte : ∀ e i j, k'.pte e i j = k.pte e i j) :
    TempAt L code cur d childId v₀ g c' (es ++ as) k' :=
  ⟨h.1.waited hw, (pte cur _ _).trans h.2⟩

/-- The exception stack of the child has no other mapping. -/
def ReadyAt (L : Layout) (code : ForkCode) (cur : EnvIdx) (d : Nat) (childId : Word)
    (v₀ : EnvIdx → Word → Option Byte) (c : Nat) (es : List ForkAct) (k : Kernel) : Prop :=
  ∃ g, StackAt L code cur d childId v₀ {(envx childId, stackPde, stackPte)} g c es k

theorem ReadyAt.waited (h : ReadyAt L code cur d childId v₀ c es k)
    (hw : Waited L code cur d k as c' k') : ReadyAt L code cur d childId v₀ c' (es ++ as) k' :=
  h.imp fun _ hg => hg.waited hw

theorem ReadyAt.solo (h : ReadyAt L code cur d childId v₀ c es k) :
    Solo L code c cur d (ForkAct.runs v₀ es) k := by
  obtain ⟨g, hg⟩ := h
  exact hg.1.sharing.toSolo

/-- It is at `PFTEMP`, whatever its page is. -/
def CopyAt (L : Layout) (code : ForkCode) (cur : EnvIdx) (d : Nat) (childId : Word)
    (v₀ : EnvIdx → Word → Option Byte) (c : Nat) (es : List ForkAct) (k : Kernel) : Prop :=
  ∃ g, TempAt L code cur d childId v₀ g c es k

theorem CopyAt.waited (h : CopyAt L code cur d childId v₀ c es k)
    (hw : Waited L code cur d k as c' k') (pte : ∀ e i j, k'.pte e i j = k.pte e i j) :
    CopyAt L code cur d childId v₀ c' (es ++ as) k' :=
  h.imp fun _ hg => hg.waited hw pte

theorem CopyAt.solo (h : CopyAt L code cur d childId v₀ c es k) :
    Solo L code c cur d (ForkAct.runs v₀ es) k := by
  obtain ⟨g, hg⟩ := h
  exact hg.1.1.sharing.toSolo

theorem copyStack_meets (hup : code.entry ≠ 0) :
    Parts.Meets (Meanwhile code cur) (InFork L code cur d childId v₀ loopPages)
      (copyStackParts cur childId) fun _ => ReadyAt L code cur d childId v₀ := by
  rw [copyStackParts]
  -- a page for the child
  refine .bind (Q := fun _ => ReadyAt L code cur d childId v₀) (meets_silent (stable_of_waited hup
    (fun _ _ _ h => h.sharing.toSolo) fun _ _ _ _ _ _ h hw _ => h.waited hw)
    fun c es k _ k' h hrun => ?_) fun _ => ?_
  · obtain ⟨hsharing, g, hnew⟩ := h.sharing.allocStack hrun
    exact ⟨g, h.call hsharing, hnew⟩
  refine .bind (Q := fun id c es k => ReadyAt L code cur d childId v₀ c es k ∧ id = (k.envs cur).id)
    (meets_silent (stable_of_waited hup (fun _ _ _ h => h.solo) fun _ _ _ _ _ _ h hw _ =>
      h.waited hw) fun c es k id k' h hrun => ?_) fun id => ?_
  · obtain ⟨rfl, rfl⟩ := sysGetenvid_ret hrun
    exact ⟨h, rfl⟩
  -- the parent maps it
  refine .bind (Q := fun _ => CopyAt L code cur d childId v₀) (meets_silent (stable_of_waited hup
    (fun _ _ _ h => h.1.solo) fun _ _ _ _ _ _ h hw _ =>
      ⟨h.1.waited hw, h.2.trans (hw.same.id cur).symm⟩) fun c es k _ k' h hrun => ?_) fun _ => ?_
  · obtain ⟨⟨g, hfork, hnew⟩, hid⟩ := h
    obtain ⟨hsharing, hnew', htemp⟩ := hfork.sharing.mapStack hid hnew hrun
    exact ⟨g, ⟨hfork.call hsharing, hnew'⟩, htemp⟩
  have hstable : Parts.Stable (Meanwhile code cur) .inPlace (CopyAt L code cur d childId v₀) :=
    stable_of_waited hup (fun _ _ _ h => h.solo) fun _ _ _ _ _ _ h hw hpte => h.waited hw (hpte rfl)
  refine .bind (Q := fun _ => CopyAt L code cur d childId v₀) (meets_silent hstable
    fun c es k _ k' h hrun => ?_) fun _ => ?_
  · obtain ⟨g, ⟨hfork, hnew⟩, htemp⟩ := h
    obtain ⟨hsharing, hnew', htemp'⟩ := hfork.sharing.copyStack hnew htemp hrun
    exact ⟨g, ⟨hfork.call hsharing, hnew'⟩, htemp'⟩
  refine .bind (Q := fun id c es k => CopyAt L code cur d childId v₀ c es k ∧ id = (k.envs cur).id)
    (meets_silent hstable fun c es k id k' h hrun => ?_) fun id => ?_
  · obtain ⟨rfl, rfl⟩ := sysGetenvid_ret hrun
    exact ⟨h, rfl⟩
  -- and gives it up
  refine meets_silent (stable_of_waited hup (fun _ _ _ h => h.1.solo) fun _ _ _ _ _ _ h hw hpte =>
    ⟨h.1.waited hw (hpte rfl), h.2.trans (hw.same.id cur).symm⟩) fun c es k _ k' h hrun => ?_
  obtain ⟨⟨g, ⟨hfork, hnew⟩, htemp⟩, hid⟩ := h
  obtain ⟨hsharing, hnew'⟩ := hfork.sharing.unmapStack hid hnew htemp hrun
  exact ⟨g, hfork.call hsharing, hnew'⟩

/-- The child has a slot of its own and a copy of the pages. -/
def ForkDone (L : Layout) (code : ForkCode) (cur : EnvIdx) (v₀ : EnvIdx → Word → Option Byte)
    (childId : Word) (es : List ForkAct) (k : Kernel) : Prop :=
  Private L code ∅ (ForkAct.runs v₀ es) {envx childId, cur} k ∧ envx childId ≠ cur ∧
    ∀ va, ForkPage va → v₀ cur va ≠ none → Duplicated v₀ cur (envx childId) es va

/-- The last calls. -/
theorem finish_meets (hup : code.entry ≠ 0) :
    Parts.Meets (Meanwhile code cur) (ReadyAt L code cur d childId v₀) (do
      part fun _ => checked (sysEnvSetPgfaultUpcall cur childId code.entry)
      part fun _ => checked (sysEnvSetStatus cur childId 2)
      pure childId) fun childId _ => ForkDone L code cur v₀ childId := by
  refine .bind (Q := fun _ c es k => ReadyAt L code cur d childId v₀ c es k ∧
    (k.envs (envx childId)).pgfaultUpcall = code.entry) (meets_silent (stable_of_waited hup
    (fun _ _ _ h => h.solo) fun _ _ _ _ _ _ h hw _ => h.waited hw)
    fun c es k _ k' h hrun => ?_) fun _ => ?_
  · obtain ⟨g, hfork, hnew⟩ := h
    obtain ⟨r, hcall, -⟩ := checked_ret hrun
    obtain ⟨k₁, hset, hsets, -, hupcall⟩ := sysEnvSetPgfaultUpcall_total code.entry
      hfork.sharing.hasChild.target hfork.sharing.hasChild.used
    obtain ⟨-, rfl⟩ := Outcome.ret.inj (hcall.symm.trans hset)
    exact ⟨⟨g, hfork.call (hfork.sharing.sets hsets), hnew.sets hsets⟩, hupcall⟩
  refine .bind (Q := fun _ _ => ForkDone L code cur v₀ childId) (meets_silent (stable_of_waited hup
    (fun _ _ _ h => h.1.solo) fun _ _ _ _ _ _ h hw _ =>
      ⟨h.1.waited hw, (hw.upcalls _).trans h.2⟩) fun c es k _ k' h hrun => ?_) fun _ =>
        .pure fun _ _ _ h => h
  obtain ⟨⟨g, hfork, hnew⟩, hupcall⟩ := h
  obtain ⟨r, hcall, -⟩ := checked_ret hrun
  obtain ⟨k₁, hset, hsets, -, hsame⟩ := sysEnvSetStatus_total
    (show statusArg 2 = some .runnable by decide) hfork.sharing.hasChild.target
    hfork.sharing.hasChild.used
  obtain ⟨-, rfl⟩ := Outcome.ret.inj (hcall.symm.trans hset)
  exact ⟨(hfork.sharing.sets hsets).private (hnew.sets hsets) (hsame.trans hupcall),
    hfork.sharing.hasChild.ne, fun va hva hmapped => hfork.duplicated va hva hva hmapped⟩

end Tail

/-- `fork`, from a parent that has its handler. -/
theorem forkParts_meets (hup : code.entry ≠ 0) :
    Parts.Meets (Meanwhile code cur) (fun c es k => Solo L code c cur d (ForkAct.runs v₀ es) k ∧
        k.FitsFrom cur 0 ∧ (∀ va, v₀ cur va ≠ none → ForkAct.runs v₀ es cur va ≠ none) ∧
        ∀ e, e ≠ cur → ∀ va, ForkAct.runs v₀ es e va = none)
      (forkParts cur code.entry) fun childId _ => ForkDone L code cur v₀ childId := by
  rw [forkParts]
  refine .bind (Q := fun childId c es k => childId ≠ 0 ∧ LoopAt L code cur d childId v₀ 0 c es k)
    (meets_silent (stable_of_waited hup (fun _ _ _ h => h.1)
      fun c es k as c' k' h hw _ => ?_) fun c es k childId k' h hrun => ?_) fun childId => ?_
  · obtain ⟨hsolo, hfits, hmapped, hempty⟩ := h
    refine ⟨?_, hfits.copies hw.copies, fun va hva hnone => hmapped va hva ?_, fun e he va => ?_⟩
    · rw [ForkAct.runs_append]
      exact hw.solo hsolo
    · rw [ForkAct.runs_append, ForkAct.runs_own hw.own] at hnone
      exact (Option.or_eq_none_iff.mp hnone).2
    · rw [ForkAct.runs_append, ForkAct.runs_own hw.own, ForkAct.lastWrite_other hw.own he,
        hempty e he va]
      rfl
  · obtain ⟨hsolo, hfits, hmapped, hempty⟩ := h
    obtain ⟨r, k₁, hcall, hrest⟩ := bind_eq_ret hrun
    obtain ⟨u, k₂, hcheck, hret⟩ := bind_eq_ret hrest
    obtain ⟨rfl, rfl⟩ := Outcome.ret.inj hret
    obtain ⟨r', hmk, hneg, -⟩ | ⟨childId', k₃, hmk, hpos, hzero, hu, hmade⟩ :=
      sysExofork_total hsolo.inUser hsolo.family.slots
    · obtain ⟨rfl, rfl⟩ := Outcome.ret.inj ((call_ret hmk).symm.trans hcall)
      rw [check, if_pos hneg] at hcheck
      cases hcheck
    obtain ⟨rfl, rfl⟩ := Outcome.ret.inj ((call_ret hmk).symm.trans hcall)
    rw [check, if_neg (by rw [hpos]; decide)] at hcheck
    obtain ⟨-, rfl⟩ := Outcome.ret.inj hcheck
    have hsharing := hsolo.childMade hu hmade (hempty _ hmade.hasChild.ne)
    refine ⟨hzero, ⟨hsharing, hmapped, fun va _ hin => ?_⟩, fun f => ?_⟩
    · rw [InLoop] at hin
      omega
    · exact hfits.of_subset (fun _ _ hin => hin) (Kernel.mappings_congr hmade.pte f).le
  refine .ite (fun hzero => .pure fun _ _ _ h => absurd hzero h.1) fun _ => ?_
  refine .bind (.mono (dupPages_meets hup) (fun _ _ _ h => h.2) fun _ _ _ _ h => h) fun _ => ?_
  exact .bind (.mono (copyStack_meets hup) (fun _ _ _ h => h.1) fun _ _ _ _ h => h) fun _ =>
    finish_meets hup

end Parts

end Jos
