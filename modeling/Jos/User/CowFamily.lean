import Jos.Base.CopyOnWrite
import Jos.User.CopyPage

/-!
# Copies on write in a family of environments

After `fork` the parent and the child share their pages. Whatever they and their descendants do
from there, each of them sees the memory of its own that a real copy would have given it.
-/

namespace Jos

open Prog

variable {L : Layout} {k k' k'' : Kernel} {c d f g : Nat} {cur e : EnvIdx} {i j : Idx} {va : Word}
  {handler : Word} {G : Set EnvIdx}

/-- The mappings of all environments, and the bytes of the pages. -/
def Kernel.frames (k : Kernel) : Frames (EnvIdx × Idx × Idx) Nat (Fin 4096 → Byte) where
  frame x := k.phys.target k.dirs (.pte x.1 x.2.1 x.2.2)
  content f := fun off => k.phys.mem f off

/-- The byte at `va` in the memory of `e`. -/
def Kernel.viewAt (k : Kernel) (e : EnvIdx) (va : Word) : Option Byte :=
  (k.pageAt e va).map fun f => k.phys.mem f (pgoff va)

theorem Kernel.viewAt_eq : k.viewAt e va =
    (k.frames.view (e, pdx va, ptx va)).map fun m => m ⟨pgoff va, pgoff_lt va⟩ := by
  rw [Kernel.viewAt, Frames.view, Option.map_map]
  rfl

theorem Kernel.viewAt_congr (h : k'.frames.view (e, pdx va, ptx va) =
    k.frames.view (cur, pdx va, ptx va)) : k'.viewAt e va = k.viewAt cur va := by
  rw [viewAt_eq, h, ← viewAt_eq]

/-- The page at `va` is one of those that `fork` duplicates. -/
def ForkPage (va : Word) : Prop := InLoop loopPages (pdx va) (ptx va)

/-- The page may be written, if need be after it has been copied. -/
def Kernel.Writable (k : Kernel) (e : EnvIdx) (va : Word) : Prop :=
  k.entryAt e va &&& pteP ≠ 0 ∧ (k.entryAt e va &&& pteW ≠ 0 ∨ k.entryAt e va &&& pteCow ≠ 0)

/-- The page is there, and user mode may read it. -/
def Kernel.MayRead (k : Kernel) (e : EnvIdx) (va : Word) : Prop :=
  k.entryAt e va &&& pteP ≠ 0 ∧ k.entryAt e va &&& pteU ≠ 0

/-- What the environments of `G` may read and write they still may. -/
def Kernel.KeepsAccess (k : Kernel) (G : Set EnvIdx) (k' : Kernel) : Prop :=
  ∀ e ∈ G, ∀ va, ForkPage va →
    (k.Writable e va → k'.Writable e va) ∧ (k.MayRead e va → k'.MayRead e va)

/-- The entry decides. -/
theorem Kernel.access_of_entry (h : k'.entryAt e va = k.entryAt cur va) :
    (k.Writable cur va → k'.Writable e va) ∧ (k.MayRead cur va → k'.MayRead e va) := by
  unfold Kernel.Writable Kernel.MayRead
  rw [h]
  exact ⟨id, id⟩

theorem Kernel.KeepsAccess.of_pte (pte : ∀ e i j, k'.pte e i j = k.pte e i j) :
    k.KeepsAccess G k' := fun e _ _ _ => Kernel.access_of_entry (pte e _ _)

theorem Kernel.KeepsAccess.trans (h : k.KeepsAccess G k') (h' : k'.KeepsAccess G k'') :
    k.KeepsAccess G k'' := fun e he va hva =>
  ⟨(h' e he va hva).1 ∘ (h e he va hva).1, (h' e he va hva).2 ∘ (h e he va hva).2⟩

/-- The pages of `fork` and the exception stack. -/
def MemberSlot (i j : Idx) : Prop := InLoop loopPages i j ∨ i = stackPde ∧ j = stackPte

/-- A member of a family runs with these pages. -/
def MemberPage (va : Word) : Prop := MemberSlot (pdx va) (ptx va)

/-- What a member of the family writes without a fault. -/
def Kernel.InPlace (k : Kernel) (e : EnvIdx) (i j : Idx) : Prop :=
  InLoop loopPages i j ∧ k.pte e i j &&& pteW ≠ 0 ∨ i = stackPde ∧ j = stackPte

/-- The environments in `G` handle their faults with `pgfault`, and no page that one of them writes
in place is mapped anywhere else. -/
structure CowFamily (L : Layout) (handler : Word) (G : Set EnvIdx) (k : Kernel) : Prop where
  mem : MemInv L k
  slots : k.SlotsFree
  used : ∀ e ∈ G, k.status e ≠ .free
  ids : ∀ e ∈ G, envx (k.envs e).id = e
  upcall : ∀ e ∈ G, (k.envs e).pgfaultUpcall = handler
  stack : ∀ e ∈ G, k.StackWritable e
  user : ∀ e ∈ G, ∀ i j, InLoop loopPages i j → k.pte e i j &&& pteP ≠ 0 →
    k.pte e i j &&& pteW ≠ 0 ∨ k.pte e i j &&& pteCow ≠ 0 → k.pte e i j &&& pteU ≠ 0
  sole : ∀ e ∈ G, ∀ i j, k.InPlace e i j → k.frames.Sole (e, i, j)

/-- A page of its own for the exception stack. -/
structure Kernel.OwnStack (k : Kernel) (e : EnvIdx) : Prop where
  stack : k.StackWritable e
  sole : k.frames.Sole (e, stackPde, stackPte)

/-- `set_pgfault_handler` has been called: there are the exception stack and the upcall. -/
structure Kernel.Handles (k : Kernel) (handler : Word) (e : EnvIdx) : Prop
    extends k.OwnStack e where
  upcall : (k.envs e).pgfaultUpcall = handler

theorem CowFamily.handles (h : CowFamily L handler G k) (he : e ∈ G) : k.Handles handler e :=
  ⟨⟨h.stack e he, h.sole e he _ _ (.inr ⟨rfl, rfl⟩)⟩, h.upcall e he⟩

theorem forkPage_below (h : InLoop loopPages i j) : i.val < userPdes := by
  rw [InLoop, pageNumber, loopPages, pgnum_utext, pgnum_uxstack] at h
  rw [userPdes]
  omega

theorem forkPage_utop (h : ForkPage va) : va < utop := (pdx_lt_iff va).mp (forkPage_below h)

theorem MemInv.setPage_writes (h : MemInv L k)
    (hg : k.phys.target k.dirs (.pte e i j) = some g) (m : Page) :
    MemInv L { k with phys := k.phys.setPage g m } ∧
      k.frames.Writes (e, i, j) (Kernel.frames { k with phys := k.phys.setPage g m }) ∧
      ∀ e i j, Kernel.pte { k with phys := k.phys.setPage g m } e i j = k.pte e i j := by
  have hplain := h.phys.tables.unshared.page_not_structural hg
  have hpte : ∀ e i j, Kernel.pte { k with phys := k.phys.setPage g m } e i j = k.pte e i j := by
    intro e i j
    refine Phys.pteAt_congr fun p hp => k.phys.mem_setPage_of_ne _ ?_
    rintro rfl
    exact hplain hp
  refine ⟨h.of_phys (h.phys.setPage (h.phys.tables.owned _ g hg) hplain m), ⟨?_, ?_⟩, hpte⟩
  · exact funext fun x => congrArg entryFrame (hpte x.1 x.2.1 x.2.2)
  · intro f hf
    have hne : f ≠ g := by
      rintro rfl
      exact hf hg
    funext off
    exact congrFun (k.phys.mem_setPage_of_ne m hne) off

namespace CowFamily

/-- The same mappings. -/
theorem congr (h : CowFamily L handler G k) (mem : MemInv L k') (slots : k'.SlotsFree)
    (pte : ∀ e i j, k'.pte e i j = k.pte e i j)
    (used : ∀ e ∈ G, k'.status e = .free ↔ k.status e = .free)
    (ids : ∀ e ∈ G, (k'.envs e).id = (k.envs e).id)
    (upcall : ∀ e ∈ G, (k'.envs e).pgfaultUpcall = (k.envs e).pgfaultUpcall) :
    CowFamily L handler G k' := by
  have hframe : k'.frames.frame = k.frames.frame := funext fun x =>
    congrArg entryFrame (pte x.1 x.2.1 x.2.2)
  refine ⟨mem, slots, fun e he hf => h.used e he ((used e he).mp hf), fun e he => ?_,
    fun e he => ?_, fun e he => ?_, fun e he i j => ?_, fun e he i j => ?_⟩
  · rw [ids e he, h.ids e he]
  · rw [upcall e he, h.upcall e he]
  · obtain ⟨⟨g, hg⟩, hpte⟩ := h.stack e he
    have hentry : k'.entryAt e uxstack = k.entryAt e uxstack := pte e _ _
    exact ⟨⟨g, (congrFun hframe (e, stackPde, stackPte)).trans hg⟩, by rwa [hentry]⟩
  · rw [pte]
    exact h.user e he i j
  · rw [Kernel.InPlace, pte, Frames.Sole, hframe]
    exact h.sole e he i j

/-- Another environment runs, or the same one with other registers. -/
theorem sameMaps (h : CowFamily L handler G k) (same : k.SameMaps k')
    (upcall : ∀ e ∈ G, (k'.envs e).pgfaultUpcall = (k.envs e).pgfaultUpcall) :
    CowFamily L handler G k' :=
  h.congr (same.memInv h.mem) (same.slotsFree h.slots) same.pte (fun e _ => same.free e)
    (fun e _ => same.id e) upcall

theorem inUser (h : CowFamily L handler G k) (he : cur ∈ G) (hx : k.Executes c cur d) :
    InUser L c cur d k :=
  ⟨h.mem, h.used cur he, hx.pgdir, congrArg Cpu.cr3 hx.cpu, h.ids cur he⟩

/-- New contents of the page at one slot. -/
theorem setPage (h : CowFamily L handler G k)
    (hg : k.phys.target k.dirs (.pte e i j) = some g) (m : Page) :
    CowFamily L handler G { k with phys := k.phys.setPage g m } ∧
      k.frames.Writes (e, i, j) (Kernel.frames { k with phys := k.phys.setPage g m }) ∧
      ∀ e i j, Kernel.pte { k with phys := k.phys.setPage g m } e i j = k.pte e i j := by
  obtain ⟨hmem, hwrites, hpte⟩ := h.mem.setPage_writes hg m
  exact ⟨h.congr hmem h.slots hpte (fun _ _ => Iff.rfl) (fun _ _ => rfl) fun _ _ => rfl, hwrites, hpte⟩

/-- A member has its own copy of a page now, and all see what they saw before. -/
theorem pageCopied (h : CowFamily L handler G k) (he : cur ∈ G) {f' : Nat}
    (hin : InLoop loopPages i j) (hf : k.phys.target k.dirs (.pte cur i j) = some f)
    (hcopy : PageCopied L k cur i j f f' k') :
    CowFamily L handler G k' ∧ k.KeepsAccess G k' ∧ ∀ e i' j', e ≠ cur ∨ MemberSlot i' j' →
      k'.frames.view (e, i', j') = k.frames.view (e, i', j') := by
  classical
  have hstackPage : ¬ (stackPde = i ∧ stackPte = j) := by
    rintro ⟨rfl, rfl⟩
    exact stack_not_inLoop hin
  have hnone : entryFrame 0 = none := entryFrame_zero
  -- the copy takes the place of the old page, and `PFTEMP` is empty again
  have hshares : Frames.Shares (fun x => if x = (cur, i, j) then none else some x) k.frames
      k'.frames := by
    rintro ⟨e, i', j'⟩ p hp
    by_cases hx : (e, i', j') = (cur, i, j)
    · refine .inr ⟨if_pos hx, ?_⟩
      have hpf : p = f' := by
        obtain ⟨rfl, rfl, rfl⟩ : e = cur ∧ i' = i ∧ j' = j := by simpa using hx
        have hown : (e, i', j') ∈ k'.mappings f' := by
          rw [hcopy.sole]
          exact Set.mem_singleton _
        exact Option.some.inj (hp.symm.trans (Kernel.mem_mappings.mp hown))
      rintro ⟨e₁, i₁, j₁⟩ hy
      have hmap : (e₁, i₁, j₁) ∈ k'.mappings f' := Kernel.mem_mappings.mpr (hpf ▸ hy)
      rw [hcopy.sole, Set.mem_singleton_iff] at hmap
      rw [hmap, hx]
    · refine .inl ⟨_, if_neg hx, ?_⟩
      have hx' : ¬ (e = cur ∧ i' = i ∧ j' = j) := by simpa using hx
      by_cases ht : e = cur ∧ i' = tempPde ∧ j' = tempPte
      · obtain ⟨rfl, rfl, rfl⟩ := ht
        change entryFrame (k'.pte e tempPde tempPte) = some p at hp
        rw [hcopy.temp, hnone] at hp
        simp at hp
      · exact (congrArg entryFrame (hcopy.rest e i' j' hx' ht)).symm.trans hp
  have hkept : ∀ e i' j', MemberSlot i' j' →
      ¬ (e = cur ∧ i' = i ∧ j' = j) → ¬ (e = cur ∧ i' = tempPde ∧ j' = tempPte) ∧
        k'.pte e i' j' = k.pte e i' j' := by
    intro e i' j' hplace hx
    have ht : ¬ (e = cur ∧ i' = tempPde ∧ j' = tempPte) := by
      rintro ⟨-, rfl, rfl⟩
      obtain hin' | hs := hplace
      · exact temp_not_inLoop hin'
      · exact stack_ne_temp hs.1.symm
    exact ⟨ht, hcopy.rest e i' j' hx ht⟩
  have hsame : ∀ e, (k'.envs e) = k.envs e := fun e => by rw [hcopy.ends.1]
  refine ⟨⟨hcopy.ends.memInv h.mem, ?_, fun e he => ?_, fun e he => ?_, fun e he => ?_,
    fun e he => ?_, fun e he i' j' hin' hp hw => ?_, fun e he i' j' hplace => ?_⟩,
    fun e he va hva => ?_, fun e i' j' hplace => ?_⟩
  · rw [hcopy.ends.1]
    exact h.slots
  · rw [Kernel.status, hsame]
    exact h.used e he
  · rw [hsame]
    exact h.ids e he
  · rw [hsame]
    exact h.upcall e he
  · obtain ⟨⟨g, hg⟩, hpte⟩ := h.stack e he
    have hsame : k'.entryAt e uxstack = k.entryAt e uxstack :=
      (hkept e _ _ (.inr ⟨rfl, rfl⟩) fun hx => hstackPage hx.2).2
    exact ⟨⟨g, (congrArg entryFrame hsame).trans hg⟩, by rwa [hsame]⟩
  · by_cases hx : e = cur ∧ i' = i ∧ j' = j
    · obtain ⟨rfl, rfl, rfl⟩ := hx
      rw [hcopy.own]
      exact (stackPerm_user f').1
    · have hpte := (hkept e i' j' (.inl hin') hx).2
      rw [hpte] at hp hw ⊢
      exact h.user e he i' j' hin' hp hw
  · by_cases hx : e = cur ∧ i' = i ∧ j' = j
    · exact hshares.sole_new (if_pos (by simpa using hx))
    · refine hshares.sole (if_neg (by simpa using hx)) (fun y hy => ?_) (h.sole e he i' j' ?_)
      · split at hy
        · simp at hy
        · exact Option.some.inj hy
      · obtain ⟨hin', hw⟩ | hs := hplace
        · rw [(hkept e i' j' (.inl hin') hx).2] at hw
          exact .inl ⟨hin', hw⟩
        · exact .inr hs
  · by_cases hx : e = cur ∧ pdx va = i ∧ ptx va = j
    · obtain ⟨rfl, rfl, rfl⟩ := hx
      have hentry : k'.entryAt e va = mkPte f' stackPerm := hcopy.own
      have huser := stackPerm_user f'
      refine ⟨fun _ => ?_, fun _ => ?_⟩
      · rw [Kernel.Writable, hentry]
        exact ⟨mkPte_present _ _, .inl (huser.2 rfl)⟩
      · rw [Kernel.MayRead, hentry]
        exact ⟨mkPte_present _ _, huser.1⟩
    · exact Kernel.access_of_entry (hkept e _ _ (.inl hva) hx).2
  · by_cases hx : e = cur ∧ i' = i ∧ j' = j
    · obtain ⟨rfl, rfl, rfl⟩ := hx
      have hnew : k'.frames.frame (e, i', j') = some f' := by
        refine Kernel.mem_mappings.mp ?_
        rw [hcopy.sole]
        exact Set.mem_singleton _
      have hold : k.frames.frame (e, i', j') = some f := hf
      rw [Frames.view, Frames.view, hnew, hold, Option.map_some, Option.map_some]
      exact congrArg some (funext fun off => hcopy.bytes off off.isLt)
    · have ht : ¬ (e = cur ∧ i' = tempPde ∧ j' = tempPte) := by
        obtain hne | hin' := hplace
        · exact fun ht => hne ht.1
        · exact (hkept e i' j' hin' hx).1
      have hpte := hcopy.rest e i' j' hx ht
      refine Frames.view_congr (congrArg entryFrame hpte) fun p hp => funext fun off => ?_
      exact congrFun (hcopy.mem e i' j' p hx ht hp) off

end CowFamily

/-! ### Memories of their own -/

/-- What the environments do to their memory. -/
inductive Access where
  | store (e : EnvIdx) (va : Word) (b : Byte)
  /-- The word that `_pgfault_upcall` stores below the stack of the program. -/
  | upcall (e : EnvIdx) (va : Word) (w : Word)
  | fork (parent child : EnvIdx)

/-- What it means if nothing is shared: a store changes the memory of one environment, and a child
starts with a copy of the memory of its parent. -/
def Access.run (v : EnvIdx → Word → Option Byte) : Access → EnvIdx → Word → Option Byte
  | .store e va b => Function.update v e (Function.update (v e) va (some b))
  | .upcall e va w => Function.update v e fun a =>
      if Bytes.InWord va a then some (w.extractLsb' (8 * (a - va).toNat) 8) else v e a
  | .fork parent child => Function.update v child (v parent)

/-- On the pages of `fork` each environment of `G` sees the memory that `v` gives it. -/
def Kernel.Sees (k : Kernel) (G : Set EnvIdx) (v : EnvIdx → Word → Option Byte) : Prop :=
  ∀ e ∈ G, ∀ va, ForkPage va → k.viewAt e va = v e va

variable {v : EnvIdx → Word → Option Byte} {b : Byte}

/-- An address is the page and the offset. -/
theorem va_eq_of_page {a : Word} (hpdx : pdx a = pdx va) (hptx : ptx a = ptx va)
    (hoff : pgoff a = pgoff va) : a = va := by
  have hi := congrArg Fin.val hpdx
  have hj := congrArg Fin.val hptx
  rw [pdx_val, pdx_val] at hi
  rw [ptx_val, ptx_val] at hj
  rw [pgoff_eq, pgoff_eq] at hoff
  apply BitVec.eq_of_toNat_eq
  omega

/-- The memories after a list of accesses. -/
def Access.runs (v : EnvIdx → Word → Option Byte) (as : List Access) : EnvIdx → Word → Option Byte :=
  as.foldl Access.run v

/-- What a byte is after a store does not depend on the others before it. -/
theorem Access.run_congr {v v' : EnvIdx → Word → Option Byte} {x : Access} {a : Word}
    (stores : ∀ parent child, x ≠ .fork parent child) (h : v e a = v' e a) :
    x.run v e a = x.run v' e a := by
  cases x with
  | store cur va b =>
      rw [Access.run, Access.run]
      by_cases hecur : e = cur
      · subst hecur
        rw [Function.update_self, Function.update_self]
        by_cases ha : a = va
        · rw [ha, Function.update_self, Function.update_self]
        · rw [Function.update_of_ne ha, Function.update_of_ne ha, h]
      · rw [Function.update_of_ne hecur, Function.update_of_ne hecur, h]
  | upcall cur va w =>
      rw [Access.run, Access.run]
      by_cases hecur : e = cur
      · subst hecur
        rw [Function.update_self, Function.update_self, h]
      · rw [Function.update_of_ne hecur, Function.update_of_ne hecur, h]
  | fork parent child => exact absurd rfl (stores parent child)

theorem Access.runs_congr {v v' : EnvIdx → Word → Option Byte} {as : List Access} {a : Word}
    (stores : ∀ parent child, Access.fork parent child ∉ as) (h : v e a = v' e a) :
    Access.runs v as e a = Access.runs v' as e a := by
  induction as generalizing v v' with
  | nil => exact h
  | cons x as ih =>
      rw [Access.runs, Access.runs, List.foldl_cons, List.foldl_cons]
      refine ih (fun parent child hin => stores parent child (List.mem_cons_of_mem _ hin)) ?_
      exact Access.run_congr (fun parent child heq => stores parent child (heq ▸ List.mem_cons_self)) h

theorem Access.run_store_self : (Access.store cur va b).run v cur va = some b := by
  rw [Access.run, Function.update_self, Function.update_self]

theorem Access.run_store_of_ne {a : Word} (h : ¬ (e = cur ∧ a = va)) :
    (Access.store cur va b).run v e a = v e a := by
  rw [Access.run]
  by_cases hecur : e = cur
  · subst hecur
    rw [Function.update_self, Function.update_of_ne fun ha => h ⟨rfl, ha⟩]
  · rw [Function.update_of_ne hecur]

theorem Access.run_upcall_of_not {a w : Word} (h : ¬ (e = cur ∧ Bytes.InWord va a)) :
    (Access.upcall cur va w).run v e a = v e a := by
  rw [Access.run]
  by_cases hecur : e = cur
  · subst hecur
    rw [Function.update_self, if_neg fun ha => h ⟨rfl, ha⟩]
  · rw [Function.update_of_ne hecur]

theorem Access.run_upcall_self {w : Word} {i : Nat} (hi : i < 4) :
    (Access.upcall cur va w).run v cur (va + BitVec.ofNat 32 i) =
      some (w.extractLsb' (8 * i) 8) := by
  rw [Access.run, Function.update_self, if_pos, Bytes.add_sub_self_nat hi]
  rw [Bytes.InWord, Bytes.add_sub_self_nat hi]
  exact hi

/-- One byte of a page is written: what is seen through its slot, and through one that does not
see the write. -/
theorem Kernel.viewAt_stored {a : Word} (hf : k.pageAt cur va = some f)
    (frame : k'.frames.frame = k.frames.frame)
    (mem : k'.phys.mem f = Function.update (k.phys.mem f) (pgoff va) b)
    (other : (e, pdx a, ptx a) ≠ (cur, pdx va, ptx va) → k'.viewAt e a = k.viewAt e a) :
    k'.viewAt e a = (Access.store cur va b).run k.viewAt e a := by
  rw [Access.run]
  by_cases hslot : (e, pdx a, ptx a) = (cur, pdx va, ptx va)
  · obtain ⟨rfl, hpdx, hptx⟩ : e = cur ∧ pdx a = pdx va ∧ ptx a = ptx va := by simpa using hslot
    have hold : k.pageAt e a = some f := by rw [Kernel.pageAt, hpdx, hptx, ← Kernel.pageAt, hf]
    have hnew : k'.pageAt e a = some f := (congrFun frame (e, pdx a, ptx a)).trans hold
    rw [Function.update_self, Kernel.viewAt, hnew, Option.map_some, mem]
    by_cases hoff : pgoff a = pgoff va
    · rw [va_eq_of_page hpdx hptx hoff, Function.update_self, Function.update_self]
    · have hne : a ≠ va := fun heq => hoff (heq ▸ rfl)
      rw [Function.update_of_ne hoff, Function.update_of_ne hne, Kernel.viewAt, hold,
        Option.map_some]
  · rw [other hslot]
    by_cases hecur : e = cur
    · subst hecur
      have hne : a ≠ va := fun heq => hslot (heq ▸ rfl)
      rw [Function.update_self, Function.update_of_ne hne]
    · rw [Function.update_of_ne hecur]

/-! ### Another child -/

section Fork

variable {childId : Word} {g' p : Nat} {first : Bool}

/-- Who maps the page `p` after a `fork`. -/
theorem Forked.target_cases (h : Forked L k cur first handler childId g g' k')
    (hp : k'.phys.target k'.dirs (.pte e i j) = some p) :
    (e = envx childId ∧ InLoop loopPages i j ∧ k.phys.target k.dirs (.pte cur i j) = some p) ∨
      (e = envx childId ∧ (i = stackPde ∧ j = stackPte) ∧ p = g') ∨
      ((e = cur ∧ i = stackPde ∧ j = stackPte ∧ first = true) ∧ p = g) ∨
      (e ≠ envx childId ∧ ¬ (e = cur ∧ i = stackPde ∧ j = stackPte ∧ first = true) ∧
        k.phys.target k.dirs (.pte e i j) = some p) := by
  have hnone : entryFrame 0 = none := entryFrame_zero
  have hne : cur ≠ envx childId := h.hasChild.ne.symm
  rw [Kernel.target_pte] at hp
  by_cases he : e = envx childId
  · subst he
    by_cases hs : i = stackPde ∧ j = stackPte
    · obtain ⟨rfl, rfl⟩ := hs
      rw [h.childStack.1, entryFrame_mkPte h.childStack.2 (by decide)] at hp
      exact .inr (.inl ⟨rfl, ⟨rfl, rfl⟩, (Option.some.inj hp).symm⟩)
    · by_cases hloop : InLoop loopPages i j ∧ k.pte cur i j &&& pteP ≠ 0
      · rw [(h.shared i j hloop.1 hloop.2).2, entryFrame_childPte] at hp
        exact .inl ⟨rfl, hloop.1, (Kernel.pte_present hloop.2).trans hp⟩
      · rw [h.bare i j hloop hs, hnone] at hp
        simp at hp
  · by_cases hs : e = cur ∧ i = stackPde ∧ j = stackPte ∧ first = true
    · obtain ⟨rfl, rfl, rfl, hfirst⟩ := hs
      exact .inr (.inr (.inl ⟨⟨rfl, rfl, rfl, hfirst⟩, Option.some.inj (hp.symm.trans h.stack)⟩))
    · refine .inr (.inr (.inr ⟨he, hs, ?_⟩))
      by_cases hloop : e = cur ∧ InLoop loopPages i j ∧ k.pte cur i j &&& pteP ≠ 0
      · obtain ⟨rfl, hin, hpresent⟩ := hloop
        rw [(h.shared i j hin hpresent).1, entryFrame_parentPte hpresent] at hp
        exact (Kernel.pte_present hpresent).trans hp
      · by_cases ht : e = cur ∧ i = tempPde ∧ j = tempPte
        · obtain ⟨rfl, rfl, rfl⟩ := ht
          rw [h.temp, hnone] at hp
          simp at hp
        · rwa [h.rest e i j he hloop hs ht] at hp

open Classical in
/-- Where the mappings after a `fork` come from. -/
noncomputable def forkSource (cur child : EnvIdx) (first : Bool) (x : EnvIdx × Idx × Idx) :
    Option (EnvIdx × Idx × Idx) :=
  if x.1 = child then if InLoop loopPages x.2.1 x.2.2 then some (cur, x.2.1, x.2.2) else none
  else if x.1 = cur ∧ x.2.1 = stackPde ∧ x.2.2 = stackPte ∧ first = true then none
  else some x

section Source

variable {child : EnvIdx}

theorem forkSource_child (hin : InLoop loopPages i j) :
    forkSource cur child first (child, i, j) = some (cur, i, j) := by
  unfold forkSource
  exact (if_pos rfl).trans (if_pos hin)

theorem forkSource_childStack :
    forkSource cur child first (child, stackPde, stackPte) = none := by
  unfold forkSource
  exact (if_pos rfl).trans (if_neg stack_not_inLoop)

theorem forkSource_stack (hne : cur ≠ child) :
    forkSource cur child true (cur, stackPde, stackPte) = none := by
  unfold forkSource
  exact (if_neg hne).trans (if_pos ⟨rfl, rfl, rfl, rfl⟩)

theorem forkSource_rest (he : e ≠ child)
    (hs : ¬ (e = cur ∧ i = stackPde ∧ j = stackPte ∧ first = true)) :
    forkSource cur child first (e, i, j) = some (e, i, j) := by
  unfold forkSource
  exact (if_neg he).trans (if_neg hs)

end Source

theorem Forked.shares (h : Forked L k cur first handler childId g g' k') :
    Frames.Shares (forkSource cur (envx childId) first) k.frames k'.frames := by
  have hstack : ∀ {i j}, InLoop loopPages i j → ∀ e,
      ¬ (e = cur ∧ i = stackPde ∧ j = stackPte ∧ first = true) := by
    rintro i j hin e ⟨-, rfl, rfl, -⟩
    exact stack_not_inLoop hin
  rintro ⟨e, i, j⟩ p hp
  obtain ⟨rfl, hin, hold⟩ | ⟨rfl, ⟨rfl, rfl⟩, rfl⟩ | ⟨hs, rfl⟩ | ⟨he, hs, hold⟩ := h.target_cases hp
  · exact .inl ⟨_, forkSource_child hin, hold⟩
  · refine .inr ⟨forkSource_childStack, ?_⟩
    rintro ⟨e, i, j⟩ hy
    obtain ⟨rfl, hin, hold⟩ | ⟨rfl, ⟨rfl, rfl⟩, -⟩ | ⟨-, heq⟩ | ⟨-, hs, hold⟩ := h.target_cases hy
    · exact absurd hold (h.childFresh cur i j (hstack hin cur))
    · rfl
    · exact absurd heq h.ne
    · exact absurd hold (h.childFresh e i j hs)
  · obtain ⟨rfl, rfl, rfl, rfl⟩ := hs
    refine .inr ⟨forkSource_stack h.hasChild.ne.symm, ?_⟩
    rintro ⟨e', i', j'⟩ hy
    obtain ⟨-, -, hold⟩ | ⟨-, -, heq⟩ | ⟨⟨rfl, rfl, rfl, -⟩, -⟩ | ⟨-, -, hold⟩ := h.target_cases hy
    · exact absurd hold (h.fresh rfl _ i' j')
    · exact absurd heq.symm h.ne
    · rfl
    · exact absurd hold (h.fresh rfl e' i' j')
  · exact .inl ⟨_, forkSource_rest he hs, hold⟩

/-- A slot that the fork leaves to its environment. -/
theorem forkSource_once {child : EnvIdx} (he : e ≠ child)
    (hkeep : ¬ (e = cur ∧ InLoop loopPages i j)) {y : EnvIdx × Idx × Idx}
    (hy : forkSource cur child first y = some (e, i, j)) : y = (e, i, j) := by
  obtain ⟨e', i', j'⟩ := y
  unfold forkSource at hy
  dsimp only at hy
  split at hy
  · split at hy
    · rename_i hin
      obtain ⟨rfl, rfl, rfl⟩ : cur = e ∧ i' = i ∧ j' = j := by simpa using hy
      exact absurd ⟨rfl, hin⟩ hkeep
    · simp at hy
  · split at hy
    · simp at hy
    · exact Option.some.inj hy

variable {S : Set EnvIdx}

/-- The entries of the members that the fork leaves alone. -/
theorem Forked.pte_same (h : Forked L k cur first handler childId g g' k')
    (he : e ≠ envx childId)
    (hplace : e ≠ cur ∧ (InLoop loopPages i j ∨ i = stackPde ∧ j = stackPte) ∨
      first = false ∧ i = stackPde ∧ j = stackPte) : k'.pte e i j = k.pte e i j := by
  refine h.rest e i j he ?_ ?_ ?_
  · rintro ⟨rfl, hin, -⟩
    obtain ⟨hne, -⟩ | ⟨-, rfl, rfl⟩ := hplace
    · exact hne rfl
    · exact stack_not_inLoop hin
  · rintro ⟨rfl, -, -, hfirst⟩
    obtain ⟨hne, -⟩ | ⟨hlater, -⟩ := hplace
    · exact hne rfl
    · rw [hfirst] at hlater
      simp at hlater
  · rintro ⟨rfl, rfl, rfl⟩
    obtain ⟨hne, -⟩ | ⟨-, hs, -⟩ := hplace
    · exact hne rfl
    · exact stack_ne_temp hs.symm

theorem Forked.childOwnStack (h : Forked L k cur first handler childId g g' k') :
    k'.OwnStack (envx childId) := by
  have hentry : k'.entryAt (envx childId) uxstack = mkPte g' stackPerm := h.childStack.1
  refine ⟨⟨⟨g', ?_⟩, by rw [hentry]; exact stackPerm_user g'⟩, h.shares.sole_new forkSource_childStack⟩
  exact (congrArg entryFrame hentry).trans (entryFrame_mkPte h.childStack.2 (by decide))

/-- The exception stack of the parent is new, or it is the old one. -/
theorem Forked.ownStack (h : Forked L k cur first handler childId g g' k') (he : e ≠ envx childId)
    (old : ¬ (first = true ∧ e = cur) → k.OwnStack e) : k'.OwnStack e := by
  by_cases hfirst : first = true ∧ e = cur
  · obtain ⟨rfl, rfl⟩ := hfirst
    have hentry : k'.entryAt e uxstack = mkPte g stackPerm := h.own rfl
    exact ⟨⟨⟨g, h.stack⟩, by rw [hentry]; exact stackPerm_user g⟩,
      h.shares.sole_new (forkSource_stack h.hasChild.ne.symm)⟩
  · obtain ⟨⟨⟨f, hf⟩, hpte⟩, hsole⟩ := old hfirst
    have hentry : k'.entryAt e uxstack = k.entryAt e uxstack := by
      refine h.pte_same he ?_
      by_cases hcur : e = cur
      · exact .inr ⟨by simpa [hcur] using hfirst, rfl, rfl⟩
      · exact .inl ⟨hcur, .inr ⟨rfl, rfl⟩⟩
    refine ⟨⟨⟨f, (congrArg entryFrame hentry).trans hf⟩, by rwa [hentry]⟩, ?_⟩
    exact h.shares.sole (forkSource_rest he fun hs => hfirst ⟨hs.2.2.2, hs.1⟩)
      (fun y hy => forkSource_once he (fun hs => stack_not_inLoop hs.2) hy) hsole

/-- The parent and the child after a `fork` are members of the family. -/
theorem Forked.cowFamily (h : Forked L k cur first handler childId g g' k')
    (hS : CowFamily L handler S k) (used : k.status cur ≠ .free) (id : envx (k.envs cur).id = cur)
    (later : first = false → k.Handles handler cur) :
    CowFamily L handler (insert (envx childId) (insert cur S)) k' := by
  have hnone : entryFrame 0 = none := entryFrame_zero
  have hchildId : (k'.envs (envx childId)).id = childId ∨ childId = 0 := by
    have htarget := h.hasChild.target
    rw [Kernel.envid2env] at htarget
    by_cases hzero : childId = 0
    · exact .inr hzero
    · rw [if_neg hzero] at htarget
      dsimp only at htarget
      by_contra hno
      rw [not_or] at hno
      rw [if_pos (.inr hno.1)] at htarget
      simp at htarget
  have hold : ∀ e ∈ insert cur S, e ≠ envx childId ∧ k.status e ≠ .free ∧ envx (k.envs e).id = e := by
    intro e he
    have hprop : k.status e ≠ .free ∧ envx (k.envs e).id = e := by
      obtain rfl | he := Set.mem_insert_iff.mp he
      · exact ⟨used, id⟩
      · exact ⟨hS.used e he, hS.ids e he⟩
    refine ⟨?_, hprop⟩
    rintro rfl
    exact hprop.1 h.new
  have hstack : ∀ {i j}, InLoop loopPages i j → ¬ (i = stackPde ∧ j = stackPte) := by
    rintro i j hin ⟨rfl, rfl⟩
    exact stack_not_inLoop hin
  -- an older member, or the parent at a later fork
  have hhandles : ∀ e ∈ insert cur S, ¬ (first = true ∧ e = cur) → k.Handles handler e := by
    intro e he hno
    obtain rfl | he := Set.mem_insert_iff.mp he
    · exact later (by simpa using hno)
    · exact hS.handles he
  have hown : ∀ e ∈ insert (envx childId) (insert cur S), k'.OwnStack e := by
    intro e he
    obtain rfl | he := Set.mem_insert_iff.mp he
    · exact h.childOwnStack
    · exact h.ownStack (hold e he).1 fun hno => (hhandles e he hno).toOwnStack
  refine ⟨h.mem, h.slots, fun e he => ?_, fun e he => ?_, fun e he => ?_,
    fun e he => (hown e he).stack, fun e he i j hin hp hw => ?_, fun e he i j hplace => ?_⟩
  · obtain rfl | he := Set.mem_insert_iff.mp he
    · exact h.hasChild.used
    · rw [h.status e (hold e he).1]
      exact (hold e he).2.1
  · obtain rfl | he := Set.mem_insert_iff.mp he
    · obtain hid | rfl := hchildId
      · rw [hid]
      · exact absurd (Option.some.inj h.hasChild.target).symm h.hasChild.ne
    · rw [h.ids e (hold e he).1]
      exact (hold e he).2.2
  · obtain rfl | he := Set.mem_insert_iff.mp he
    · exact h.handler
    · by_cases hfirst : first = true ∧ e = cur
      · rw [hfirst.2]
        exact h.parentHandler hfirst.1
      · rw [h.upcalls e (hold e he).1 hfirst]
        exact (hhandles e he hfirst).upcall
  · obtain rfl | he := Set.mem_insert_iff.mp he
    · by_cases hloop : k.pte cur i j &&& pteP ≠ 0
      · rw [(h.shared i j hin hloop).2]
        exact childPte_user _
      · rw [h.bare i j (fun hno => hloop hno.2) (hstack hin)] at hp
        exact absurd rfl hp
    · by_cases hcur : e = cur
      · subst hcur
        by_cases hloop : k.pte e i j &&& pteP ≠ 0
        · rw [(h.shared i j hin hloop).1] at hw ⊢
          exact parentPte_user (hw.resolve_left fun hno => hno sharedPte_readonly.1)
        · rw [h.rest e i j (hold e he).1 (fun hno => hloop hno.2.2)
            (fun hs => hstack hin ⟨hs.2.1, hs.2.2.1⟩) fun ht => temp_not_inLoop
              (ht.2.1 ▸ ht.2.2 ▸ hin)] at hp
          exact absurd hp hloop
      · rw [h.pte_same (hold e he).1 (.inl ⟨hcur, .inl hin⟩)] at hp hw ⊢
        exact hS.user e (Set.mem_of_mem_insert_of_ne he hcur) i j hin hp hw
  · obtain ⟨hin, hw⟩ | ⟨rfl, rfl⟩ := hplace
    swap
    · exact (hown e he).sole
    have hzero : (0 : Word) &&& pteW = 0 := by decide
    obtain rfl | he := Set.mem_insert_iff.mp he
    · by_cases hloop : k.pte cur i j &&& pteP ≠ 0
      · rw [(h.shared i j hin hloop).2] at hw
        exact absurd sharedPte_readonly.2 hw
      · rw [h.bare i j (fun hno => hloop hno.2) (hstack hin)] at hw
        exact absurd hzero hw
    · by_cases hcur : e = cur
      · subst hcur
        by_cases hloop : k.pte e i j &&& pteP ≠ 0
        · rw [(h.shared i j hin hloop).1] at hw
          exact absurd sharedPte_readonly.1 hw
        · -- there is no page
          have hsame : k'.pte e i j = k.pte e i j :=
            h.rest e i j (hold e he).1 (fun hno => hloop hno.2.2)
              (fun hs => hstack hin ⟨hs.2.1, hs.2.2.1⟩)
              fun ht => temp_not_inLoop (ht.2.1 ▸ ht.2.2 ▸ hin)
          intro f y hf
          change entryFrame (k'.pte e i j) = some f at hf
          rw [hsame, entryFrame, if_neg hloop] at hf
          simp at hf
      · have hsame := h.pte_same (hold e he).1 (.inl ⟨hcur, .inl hin⟩)
        rw [hsame] at hw
        exact h.shares.sole (forkSource_rest (hold e he).1 fun hs => hcur hs.1)
          (fun y hy => forkSource_once (hold e he).1 (fun hs => hcur hs.1) hy)
          (hS.sole e (Set.mem_of_mem_insert_of_ne he hcur) i j (.inl ⟨hin, hw⟩))

/-- The page of the exception stack of the parent is the only one that gets other contents. -/
theorem Forked.content_same (h : Forked L k cur first handler childId g g' k')
    (alone : first = true ∨ k.frames.Sole (cur, stackPde, stackPte))
    (hs : ¬ (e = cur ∧ i = stackPde ∧ j = stackPte)) (ht : ¬ (e = cur ∧ i = tempPde ∧ j = tempPte))
    (hp : k.phys.target k.dirs (.pte e i j) = some p) :
    k'.frames.content p = k.frames.content p := by
  have hne : p ≠ g := by
    rintro rfl
    cases hfirst : first with
    | true => exact h.fresh hfirst e i j hp
    | false =>
        have hg : k.phys.target k.dirs (.pte cur stackPde stackPte) = some p := by
          rw [Kernel.target_pte, ← h.pte_same h.hasChild.ne.symm (.inr ⟨hfirst, rfl, rfl⟩)]
          exact h.stack
        have hsole := alone.resolve_left (by rw [hfirst]; decide)
        have hslot := hsole p (e, i, j) hg hp
        exact hs (by simpa using hslot)
  exact funext fun off => congrFun
    (h.contents e i j p (fun heq => hs ⟨heq.1, heq.2.1, heq.2.2.1⟩) ht hp hne) off

/-- What the members see after a `fork`. -/
theorem Forked.sees (h : Forked L k cur first handler childId g g' k')
    (hS : CowFamily L handler S k) (used : k.status cur ≠ .free)
    (later : first = false → k.Handles handler cur) {v : EnvIdx → Word → Option Byte}
    (hv : k.Sees (insert cur S) v) :
    k'.Sees (insert (envx childId) (insert cur S)) ((Access.fork cur (envx childId)).run v) := by
  have hstack : ∀ {e i j}, InLoop loopPages i j →
      ¬ (e = cur ∧ i = stackPde ∧ j = stackPte ∧ first = true) ∧
        ¬ (e = cur ∧ i = tempPde ∧ j = tempPte) := by
    refine fun hin => ⟨?_, ?_⟩
    · rintro ⟨-, rfl, rfl, -⟩
      exact stack_not_inLoop hin
    · rintro ⟨-, rfl, rfl⟩
      exact temp_not_inLoop hin
  have halone : first = true ∨ k.frames.Sole (cur, stackPde, stackPte) := by
    cases first with
    | true => exact .inl rfl
    | false => exact .inr (later rfl).sole
  have hcontent : ∀ {e i j p}, InLoop loopPages i j →
      k.phys.target k.dirs (.pte e i j) = some p → k'.frames.content p = k.frames.content p :=
    fun hin hp => h.content_same halone (fun hs => stack_not_inLoop (hs.2.1 ▸ hs.2.2 ▸ hin))
      (hstack hin).2 hp
  intro e he va hva
  have hplace : ¬ (pdx va = stackPde ∧ ptx va = stackPte) := by
    rintro ⟨hpdx, hptx⟩
    rw [ForkPage, hpdx, hptx] at hva
    exact stack_not_inLoop hva
  obtain rfl | he := Set.mem_insert_iff.mp he
  · rw [Access.run, Function.update_self, ← hv cur (Set.mem_insert cur S) va hva]
    refine Kernel.viewAt_congr (Frames.view_congr ?_ fun p hp =>
      hcontent hva hp)
    change entryFrame (k'.pte (envx childId) _ _) = entryFrame (k.pte cur _ _)
    by_cases hloop : k.pte cur (pdx va) (ptx va) &&& pteP ≠ 0
    · rw [(h.shared _ _ hva hloop).2, entryFrame_childPte, entryFrame, if_pos hloop]
    · have hnone : entryFrame (k.pte cur (pdx va) (ptx va)) = none := by
        rw [entryFrame, if_neg hloop]
      rw [h.bare _ _ (fun hno => hloop hno.2) hplace, hnone]
      exact entryFrame_zero
  · have hne : e ≠ envx childId := by
      rintro rfl
      obtain heq | he := Set.mem_insert_iff.mp he
      · exact h.hasChild.ne heq
      · exact hS.used _ he h.new
    rw [Access.run, Function.update_of_ne hne, ← hv e he va hva]
    refine Kernel.viewAt_congr (Frames.view_congr ?_ fun p hp => hcontent hva hp)
    change entryFrame (k'.pte e _ _) = entryFrame (k.pte e _ _)
    by_cases hloop : e = cur ∧ k.pte cur (pdx va) (ptx va) &&& pteP ≠ 0
    · obtain ⟨rfl, hp⟩ := hloop
      rw [(h.shared _ _ hva hp).1, entryFrame_parentPte hp, entryFrame, if_pos hp]
    · rw [h.rest e _ _ hne (fun hs => hloop ⟨hs.1, hs.2.2⟩) (hstack hva).1 (hstack hva).2]

/-- The child may read and write what its parent may. -/
theorem Forked.childAccess (h : Forked L k cur first handler childId g g' k') (hva : ForkPage va) :
    (k.Writable cur va → k'.Writable (envx childId) va) ∧
      (k.MayRead cur va → k'.MayRead (envx childId) va) := by
  have hentry : k.entryAt cur va &&& pteP ≠ 0 →
      k'.entryAt (envx childId) va = childPte (k.entryAt cur va) := fun hp => (h.shared _ _ hva hp).2
  refine ⟨fun hw => ?_, fun hr => ?_⟩
  · rw [Kernel.Writable, hentry hw.1]
    exact ⟨mkPte_present _ _, .inr (sharedPte_marked hw.2).2⟩
  · rw [Kernel.MayRead, hentry hr.1]
    exact ⟨mkPte_present _ _, childPte_user _⟩

theorem Forked.keepsAccess (h : Forked L k cur first handler childId g g' k')
    (hold : ∀ e ∈ G, e ≠ envx childId) : k.KeepsAccess G k' := by
  intro e he va hva
  by_cases hcur : e = cur
  · subst hcur
    have hpresent : k.entryAt e va &&& pteP ≠ 0 → k'.entryAt e va = parentPte (k.entryAt e va) ∧
        k'.entryAt e va &&& pteP ≠ 0 := by
      intro hp
      have hentry : k'.entryAt e va = parentPte (k.entryAt e va) := (h.shared _ _ hva hp).1
      refine ⟨hentry, fun hz => ?_⟩
      have hframe := entryFrame_parentPte hp
      rw [← hentry, entryFrame, if_neg (not_not.mpr hz)] at hframe
      simp at hframe
    refine ⟨fun hw => ?_, fun hr => ?_⟩
    · obtain ⟨hentry, hp⟩ := hpresent hw.1
      refine ⟨hp, .inr ?_⟩
      rw [hentry]
      exact (sharedPte_marked hw.2).1
    · obtain ⟨hentry, hp⟩ := hpresent hr.1
      refine ⟨hp, ?_⟩
      rw [hentry]
      exact parentPte_reads hr.2
  · exact Kernel.access_of_entry (h.pte_same (hold e he) (.inl ⟨hcur, .inl hva⟩))

end Fork

end Jos
