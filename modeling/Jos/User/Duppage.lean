import Jos.Safety.Wrapping
import Jos.User.Calls
import Mathlib.Data.Nat.Count

/-!
# The loop of `fork`

`duppage` maps a page of the parent in the child. If the parent could write it, or it is
copy-on-write already, both map it copy-on-write afterwards. The loop does so for every
page from `UTEXT` to the exception stack. It is here for every well-formed memory in
which no page gets a 65536th reference.
-/

namespace Jos

open Prog

/-- What the entry `pte` of the parent becomes. -/
def parentPte (pte : Word) : Word :=
  if duppagePerm pte &&& pteCow ≠ 0 then mkPte (pgnum pte) (duppagePerm pte) else pte

/-- The entry that the child gets. -/
def childPte (pte : Word) : Word := mkPte (pgnum pte) (duppagePerm pte)

theorem duppagePerm_cases (pte : Word) : duppagePerm pte = pteP ||| pteU ||| pteCow ∨
    duppagePerm pte = pteP ||| pteU ∧ pte &&& pteW = 0 ∧ pte &&& pteCow = 0 := by
  rw [duppagePerm]
  split
  · exact .inl rfl
  · rename_i h
    rw [not_or, not_not, not_not] at h
    exact .inr ⟨rfl, h⟩

theorem duppagePerm_ok (pte : Word) : permOk (duppagePerm pte) ∧ duppagePerm pte &&& pteW = 0 ∧
    (duppagePerm pte).toNat < 4096 := by
  obtain h | ⟨h, -⟩ := duppagePerm_cases pte <;> rw [h] <;> decide

theorem pgnum_lt (pte : Word) : pgnum pte < 1048576 := by
  have hlt := pte.isLt
  rw [pgnum_eq]
  omega

theorem entryFrame_childPte (pte : Word) : entryFrame (childPte pte) = some (pgnum pte) :=
  entryFrame_mkPte (pgnum_lt pte) (duppagePerm_ok pte).2.2

theorem entryFrame_parentPte {pte : Word} (h : pte &&& pteP ≠ 0) :
    entryFrame (parentPte pte) = some (pgnum pte) := by
  rw [parentPte]
  split
  · exact entryFrame_childPte pte
  · rw [entryFrame, if_pos h]

/-- Neither of the two can write the page. -/
theorem sharedPte_readonly {pte : Word} : parentPte pte &&& pteW = 0 ∧ childPte pte &&& pteW = 0 := by
  have hchild : childPte pte &&& pteW = 0 := by
    rw [childPte, mkPte_and _ _ (by decide), BitVec.and_or_distrib_right, (duppagePerm_ok pte).2.1]
    decide
  refine ⟨?_, hchild⟩
  rw [parentPte]
  split
  · exact hchild
  · rename_i h
    obtain hperm | ⟨-, hw, -⟩ := duppagePerm_cases pte
    · exact absurd (by rw [hperm]; decide) h
    · exact hw

/-- A page that could be written is marked copy-on-write. -/
theorem sharedPte_marked {pte : Word} (h : pte &&& pteW ≠ 0 ∨ pte &&& pteCow ≠ 0) :
    parentPte pte &&& pteCow ≠ 0 ∧ childPte pte &&& pteCow ≠ 0 := by
  have hperm : duppagePerm pte = pteP ||| pteU ||| pteCow := by rw [duppagePerm, if_pos h]
  have hchild : childPte pte &&& pteCow ≠ 0 := by
    rw [childPte, mkPte_and _ _ (by decide), hperm]
    decide
  refine ⟨?_, hchild⟩
  rw [parentPte, if_pos (by rw [hperm]; decide)]
  exact hchild

theorem childPte_user (pte : Word) : childPte pte &&& pteU ≠ 0 := by
  rw [childPte, mkPte_and _ _ (by decide)]
  obtain h | ⟨h, -⟩ := duppagePerm_cases pte <;> rw [h] <;> decide

/-- A page that can be read still can. -/
theorem parentPte_reads {pte : Word} (h : pte &&& pteU ≠ 0) : parentPte pte &&& pteU ≠ 0 := by
  rw [parentPte]
  split
  · exact childPte_user pte
  · exact h

/-- A page that is marked can be read. -/
theorem parentPte_user {pte : Word} (h : parentPte pte &&& pteCow ≠ 0) :
    parentPte pte &&& pteU ≠ 0 := by
  rw [parentPte] at h ⊢
  split
  · exact childPte_user pte
  · rename_i hno
    rw [if_neg hno] at h
    obtain hperm | ⟨-, -, hcow⟩ := duppagePerm_cases pte
    · exact absurd (by rw [hperm]; decide) hno
    · exact absurd hcow h

section Duppage

variable {L : Layout} {k k' : Kernel} {c d f : Nat} {cur child : EnvIdx} {i j : Idx} {childId : Word}

/-- `child` is another environment that `cur` may change, under the name `childId`. -/
structure Kernel.HasChild (k : Kernel) (cur child : EnvIdx) (childId : Word) : Prop where
  ne : child ≠ cur
  used : k.status child ≠ .free
  target : k.envid2env cur childId true = some child

theorem MemInv.Ends.hasChild (h : MemInv.Ends L k k') (hc : k.HasChild cur child childId) :
    k'.HasChild cur child childId := by
  refine ⟨hc.ne, ?_, ?_⟩
  · rw [h.1]
    exact hc.used
  · rw [h.envid2env]
    exact hc.target

theorem InUser.self (h : InUser L c cur d k) :
    k.envid2env cur (k.envs cur).id true = some cur :=
  Kernel.envid2env_self h.id h.used

/-- The page `f` is mapped by the parent: what `duppage` makes of it. -/
structure Dupped (L : Layout) (k : Kernel) (cur child : EnvIdx) (i j : Idx) (k' : Kernel) :
    Prop where
  ends : MemInv.Ends L k k'
  shared : k'.pte cur i j = parentPte (k.pte cur i j)
  copy : k'.pte child i j = childPte (k.pte cur i j)
  rest : ∀ e' i' j', ¬ ((e' = cur ∨ e' = child) ∧ i' = i ∧ j' = j) → k'.pte e' i' j' = k.pte e' i' j'
  mem : ∀ e' i' j' f, ¬ (e' = child ∧ i' = i ∧ j' = j) →
    k.phys.target k.dirs (.pte e' i' j') = some f → k'.phys.mem f = k.phys.mem f
  free : ∀ n, k.phys.FreePages (n + 2) → k'.phys.FreePages n

theorem pgaddr_ofNat (i j : Idx) : BitVec.ofNat 32 (pageNumber i j * pgsize) = pgaddr i j := by
  apply BitVec.eq_of_toNat_eq
  rw [BitVec.toNat_ofNat, pgaddr_eq, pageNumber, pgsize]
  have hi := i.isLt
  have hj := j.isLt
  omega

theorem vaOk_pgaddr (hi : i.val < userPdes) : vaOk (pgaddr i j) := by
  refine ⟨(pdx_lt_iff _).mp (by rwa [pdx_pgaddr]), ?_⟩
  rw [pgoff_eq, pgaddr_eq]
  omega

/-- The two calls with which `duppage` maps a page, in the child and in the parent. -/
def remap (cur : EnvIdx) (id addr envid perm : Word) : User Unit := do
  let r ← call (sysPageMap cur id addr envid addr perm)
  check r
  when (perm &&& pteCow ≠ 0) do
    let r ← call (sysPageMap cur id addr id addr perm)
    check r

theorem remap_spec (h : InUser L c cur d k) (hc : k.HasChild cur child childId)
    (hf : k.phys.target k.dirs (.pte cur i j) = some f) (fits : k.phys.ref f ≠ 65535) :
    wp (remap cur (k.envs cur).id (pgaddr i j) childId (duppagePerm (k.pte cur i j)))
      (fun _ k' => Dupped L k cur child i j k') (fun _ _ => ¬ k.phys.FreePages 2) (fun _ => False) k := by
  obtain ⟨t, ht, hentry⟩ := Phys.table_of_page hf
  obtain ⟨-, -, hi, -⟩ := Phys.dir_of_table ht
  have hpage : k.pageAt cur (pgaddr i j) = some f := by
    rw [Kernel.pageAt, pdx_pgaddr, ptx_pgaddr, hf]
  have hnum : pgnum (k.pte cur i j) = f := by
    rw [Phys.target, entryFrame] at hf
    split at hf
    · exact Option.some.inj hf
    · simp at hf
  obtain ⟨hperm, hreadonly, -⟩ := duppagePerm_ok (k.pte cur i j)
  have hva := vaOk_pgaddr (j := j) hi
  -- the child gets the page
  obtain ⟨r, k₁, hrun, hres⟩ := h.mem.sysPageMap_total h.self hc.target ⟨h.used, hc.used⟩
    ⟨hva, hva⟩ hperm hpage (fun hw => absurd hreadonly hw) (.inr fits)
  rw [remap, wp_bind, wp_ret (call_ret hrun), wp_bind, wp_check]
  obtain ⟨rfl, hroom⟩ | ⟨rfl, hedit, hless⟩ := hres
  · refine ⟨fun _ hfree => hroom (hfree.mono (by decide)), fun hneg => ?_⟩
    exact absurd hneg (by decide)
  refine ⟨fun hneg => absurd hneg (by decide), fun _ => ?_⟩
  rw [pdx_pgaddr, ptx_pgaddr, ← hnum, ← childPte] at hedit
  have hself : ¬ (cur = child ∧ i = i ∧ j = j) := fun heq => hc.ne heq.1.symm
  rw [wp_when]
  refine ⟨fun hcow => ?_, fun hcow => ?_⟩
  · -- and the parent maps it anew
    have h₁ := hedit.ends.inUser h
    have hpage₁ : k₁.pageAt cur (pgaddr i j) = some f := by
      rw [Kernel.pageAt, pdx_pgaddr, ptx_pgaddr, hedit.target hself, hf]
    have hid : (k₁.envs cur).id = (k.envs cur).id := by rw [hedit.ends.1]
    have htarget : k₁.envid2env cur (k.envs cur).id true = some cur := hid ▸ h₁.self
    obtain ⟨r, k₂, hrun₂, hres₂⟩ := h₁.mem.sysPageMap_total htarget htarget ⟨h₁.used, h₁.used⟩
      ⟨hva, hva⟩ hperm hpage₁ (fun hw => absurd hreadonly hw) (.inl hpage₁)
    rw [wp_bind, wp_ret (call_ret hrun₂), wp_check]
    obtain ⟨rfl, hroom⟩ | ⟨rfl, hedit₂, hless₂⟩ := hres₂
    · refine ⟨fun _ hfree => hroom (hless 1 hfree), fun hneg => ?_⟩
      exact absurd hneg (by decide)
    refine ⟨fun hneg => absurd hneg (by decide), fun _ => ?_⟩
    rw [pdx_pgaddr, ptx_pgaddr] at hedit₂
    refine ⟨hedit.ends.trans hedit₂.ends, ?_, ?_, fun e' i' j' hne => ?_,
      fun e' i' j' g hne hg => ?_, fun n hn => hless₂ n (hless _ hn)⟩
    · rw [hedit₂.self, parentPte, if_pos hcow, hnum]
    · rw [hedit₂.rest child i j fun heq => hc.ne heq.1, hedit.self]
    · rw [hedit₂.rest _ _ _ fun heq => hne ⟨.inl heq.1, heq.2⟩,
        hedit.rest _ _ _ fun heq => hne ⟨.inr heq.1, heq.2⟩]
    · rw [hedit₂.mem e' i' j' g ((hedit.target hne).trans hg), hedit.mem e' i' j' g hg]
  · refine ⟨hedit.ends, ?_, hedit.self, fun e' i' j' hne => ?_,
      fun e' i' j' g _ hg => hedit.mem e' i' j' g hg, fun n hn => (hless (n + 1) hn).mono (by omega)⟩
    · rw [hedit.rest cur i j hself, parentPte, if_neg hcow]
    · exact hedit.rest _ _ _ fun heq => hne ⟨.inr heq.1, heq.2⟩

theorem duppage_spec (h : InUser L c cur d k) (hc : k.HasChild cur child childId)
    (hf : k.phys.target k.dirs (.pte cur i j) = some f) (fits : k.phys.ref f ≠ 65535) :
    wp (duppage c cur childId (pageNumber i j)) (fun _ k' => Dupped L k cur child i j k')
      (fun _ _ => ¬ k.phys.FreePages 2) (fun _ => False) k := by
  obtain ⟨t, ht, -⟩ := Phys.table_of_page hf
  rw [duppage, wp_bind, wp_ret (h.uvptEntry ht), wp_bind, wp_ret sysGetenvid_run, pgaddr_ofNat]
  exact remap_spec h hc hf fits

end Duppage

section Loop

variable {L : Layout} {k₀ k k' : Kernel} {c d f n : Nat} {cur child : EnvIdx} {i j : Idx}
  {childId : Word}

/-- The number of iterations. -/
abbrev loopPages : Nat := pgnum uxstack - pgnum utext

/-- The page of the `n`th iteration. -/
def loopPde (n : Nat) : Idx := Fin.ofNat 1024 ((pgnum utext + n) / 1024)

def loopPte (n : Nat) : Idx := Fin.ofNat 1024 ((pgnum utext + n) % 1024)

/-- The page comes in the first `n` iterations. -/
def InLoop (n : Nat) (i j : Idx) : Prop :=
  pgnum utext ≤ pageNumber i j ∧ pageNumber i j < pgnum utext + n

theorem pgnum_utext : pgnum utext = 2048 := by decide

theorem pgnum_uxstack : pgnum uxstack = 977919 := by decide

theorem loopPage_iff (hn : n < loopPages) :
    pageNumber i j = pgnum utext + n ↔ i = loopPde n ∧ j = loopPte n := by
  rw [loopPages, pgnum_utext, pgnum_uxstack] at hn
  rw [pageNumber, loopPde, loopPte, pgnum_utext, Fin.ext_iff, Fin.ext_iff, Fin.val_ofNat,
    Fin.val_ofNat]
  have hi := i.isLt
  have hj := j.isLt
  omega

theorem inLoop_succ (hn : n < loopPages) :
    InLoop (n + 1) i j ↔ InLoop n i j ∨ i = loopPde n ∧ j = loopPte n := by
  rw [← loopPage_iff hn, InLoop, InLoop]
  omega

theorem not_inLoop_self (hn : n < loopPages) : ¬ InLoop n (loopPde n) (loopPte n) := by
  have hpage := (loopPage_iff hn).mpr ⟨rfl, rfl⟩
  rw [InLoop]
  omega

/-- How many of the pages of the first `n` iterations the environment has. -/
def Kernel.loopCount (k : Kernel) (cur : EnvIdx) (n : Nat) : Nat :=
  Nat.count (fun m => k.pte cur (loopPde m) (loopPte m) &&& pteP ≠ 0) n

/-- The pages of the loop at which the environment has `f` mapped. -/
def Kernel.loopMappings (k : Kernel) (cur : EnvIdx) (n f : Nat) : Set (Idx × Idx) :=
  {x | (cur, x.1, x.2) ∈ k.mappings f ∧ InLoop n x.1 x.2}

/-- No page gets a 65536th reference. -/
def Kernel.LoopFits (k : Kernel) (cur : EnvIdx) : Prop :=
  ∀ f, (k.mappings f).ncard + (k.loopMappings cur loopPages f).ncard ≤ 65535

/-- After `n` iterations from `k₀`. -/
structure Dupping (L : Layout) (k₀ : Kernel) (cur child : EnvIdx) (n : Nat) (k : Kernel) :
    Prop where
  ends : MemInv.Ends L k₀ k
  shared : ∀ i j, InLoop n i j → k₀.pte cur i j &&& pteP ≠ 0 →
    k.pte cur i j = parentPte (k₀.pte cur i j) ∧ k.pte child i j = childPte (k₀.pte cur i j)
  rest : ∀ e i j, ¬ ((e = cur ∨ e = child) ∧ InLoop n i j ∧ k₀.pte cur i j &&& pteP ≠ 0) →
    k.pte e i j = k₀.pte e i j
  mem : ∀ e i j f, e ≠ child → k₀.phys.target k₀.dirs (.pte e i j) = some f →
    k.phys.mem f = k₀.phys.mem f
  free : ∀ m, k₀.phys.FreePages (m + 2 * k₀.loopCount cur n) → k.phys.FreePages m

theorem Kernel.target_pte (e : EnvIdx) :
    k.phys.target k.dirs (.pte e i j) = entryFrame (k.pte e i j) := rfl

theorem Kernel.pte_present {e : EnvIdx} (h : k.pte e i j &&& pteP ≠ 0) :
    k.phys.target k.dirs (.pte e i j) = some (pgnum (k.pte e i j)) := by
  rw [Kernel.target_pte, entryFrame, if_pos h]

namespace Dupping

theorem init (h : MemInv L k₀) : Dupping L k₀ cur child 0 k₀ := by
  refine ⟨.refl h, fun i j hin => ?_, fun _ _ _ _ => rfl, fun _ _ _ _ _ _ => rfl, fun m hm => hm⟩
  rw [InLoop] at hin
  omega

/-- Nobody but the child gets other pages. -/
theorem target (h : Dupping L k₀ cur child n k) {e : EnvIdx} (he : e ≠ child)
    (hf : k₀.phys.target k₀.dirs (.pte e i j) = some f) :
    k.phys.target k.dirs (.pte e i j) = some f := by
  rw [Kernel.target_pte] at hf ⊢
  by_cases hdup : (e = cur ∨ e = child) ∧ InLoop n i j ∧ k₀.pte cur i j &&& pteP ≠ 0
  · obtain ⟨hcur, hin, hp⟩ := hdup
    obtain rfl : e = cur := hcur.resolve_right he
    rw [(h.shared i j hin hp).1, entryFrame_parentPte hp, ← hf, entryFrame, if_pos hp]
  · rw [h.rest e i j hdup, hf]

/-- An iteration for a page that the parent does not have. -/
theorem skip (h : Dupping L k₀ cur child n k) (hn : n < loopPages)
    (absent : k₀.pte cur (loopPde n) (loopPte n) &&& pteP = 0) :
    Dupping L k₀ cur child (n + 1) k := by
  have hsame : ∀ i j, k₀.pte cur i j &&& pteP ≠ 0 → InLoop (n + 1) i j → InLoop n i j := by
    intro i j hp hin
    obtain hin | ⟨rfl, rfl⟩ := (inLoop_succ hn).mp hin
    · exact hin
    · exact absurd absent hp
  refine ⟨h.ends, fun i j hin hp => h.shared i j (hsame i j hp hin) hp, fun e i j hno => ?_, h.mem,
    fun m hm => h.free m ?_⟩
  · refine h.rest e i j fun hdup => hno ⟨hdup.1, ?_, hdup.2.2⟩
    exact (inLoop_succ hn).mpr (.inl hdup.2.1)
  · rwa [Kernel.loopCount, Nat.count_succ, if_neg (by simpa using absent)] at hm

/-- An iteration for a page of the parent. -/
theorem next (h : Dupping L k₀ cur child n k) (hn : n < loopPages)
    (present : k₀.pte cur (loopPde n) (loopPte n) &&& pteP ≠ 0)
    (hdup : Dupped L k cur child (loopPde n) (loopPte n) k') :
    Dupping L k₀ cur child (n + 1) k' := by
  have hold : k.pte cur (loopPde n) (loopPte n) = k₀.pte cur (loopPde n) (loopPte n) :=
    h.rest _ _ _ fun hno => not_inLoop_self hn hno.2.1
  refine ⟨h.ends.trans hdup.ends, fun i j hin hp => ?_, fun e i j hno => ?_,
    fun e i j f he hf => ?_, fun m hm => hdup.free m (h.free _ ?_)⟩
  · obtain hin | ⟨rfl, rfl⟩ := (inLoop_succ hn).mp hin
    · have hother : ∀ e, ¬ ((e = cur ∨ e = child) ∧ i = loopPde n ∧ j = loopPte n) := by
        rintro e ⟨-, rfl, rfl⟩
        exact not_inLoop_self hn hin
      rw [hdup.rest _ _ _ (hother cur), hdup.rest _ _ _ (hother child)]
      exact h.shared i j hin hp
    · rw [hdup.shared, hdup.copy, hold]
      exact ⟨rfl, rfl⟩
  · rw [hdup.rest e i j, h.rest e i j]
    · exact fun hold' => hno ⟨hold'.1, (inLoop_succ hn).mpr (.inl hold'.2.1), hold'.2.2⟩
    · rintro ⟨he, rfl, rfl⟩
      exact hno ⟨he, (inLoop_succ hn).mpr (.inr ⟨rfl, rfl⟩), present⟩
  · rw [hdup.mem e i j f (fun heq => he heq.1) (h.target he hf), h.mem e i j f he hf]
  · rw [Kernel.loopCount, Nat.count_succ, if_pos present] at hm
    rw [Kernel.loopCount]
    convert hm using 1
    omega

/-- So far the page has fewer references than it will have in the end. -/
theorem fits (h : Dupping L k₀ cur child n k) (h₀ : MemInv L k₀) (hfits : k₀.LoopFits cur)
    (hn : n < loopPages)
    (hf : k.phys.target k.dirs (.pte cur (loopPde n) (loopPte n)) = some f) :
    k.phys.ref f ≠ 65535 := by
  have hold : k.pte cur (loopPde n) (loopPte n) = k₀.pte cur (loopPde n) (loopPte n) :=
    h.rest _ _ _ fun hno => not_inLoop_self hn hno.2.1
  have hf₀ : (cur, loopPde n, loopPte n) ∈ k₀.mappings f := by
    rw [Kernel.mem_mappings, Kernel.target_pte, ← hold]
    exact hf
  have hcount := (h₀.countsExact (h.ends.memInv h₀)).mapped f ⟨_, Kernel.mem_mappings.mpr hf⟩
  have hsub : k.mappings f ⊆ k₀.mappings f ∪
      (fun x : Idx × Idx => (child, x.1, x.2)) '' k₀.loopMappings cur n f := by
    rintro ⟨e, i, j⟩ hmap
    rw [Kernel.mem_mappings, Kernel.target_pte] at hmap
    by_cases hdup : (e = cur ∨ e = child) ∧ InLoop n i j ∧ k₀.pte cur i j &&& pteP ≠ 0
    · obtain ⟨he, hin, hp⟩ := hdup
      have hcur : pgnum (k₀.pte cur i j) = f → (cur, i, j) ∈ k₀.mappings f := by
        rintro rfl
        exact Kernel.mem_mappings.mpr (Kernel.pte_present hp)
      obtain rfl | rfl := he
      · rw [(h.shared i j hin hp).1, entryFrame_parentPte hp] at hmap
        exact .inl (hcur (Option.some.inj hmap))
      · rw [(h.shared i j hin hp).2, entryFrame_childPte] at hmap
        exact .inr ⟨(i, j), ⟨hcur (Option.some.inj hmap), hin⟩, rfl⟩
    · rw [h.rest e i j hdup] at hmap
      exact .inl (Kernel.mem_mappings.mpr hmap)
  have hless : (k₀.loopMappings cur n f).ncard < (k₀.loopMappings cur loopPages f).ncard := by
    refine Set.ncard_lt_ncard ((Set.ssubset_iff_of_subset ?_).mpr ?_) (Set.toFinite _)
    · rintro ⟨i, j⟩ ⟨hmap, hin⟩
      refine ⟨hmap, hin.1, ?_⟩
      have hlt := hin.2
      omega
    · refine ⟨(loopPde n, loopPte n), ⟨hf₀, ?_⟩, fun hin => not_inLoop_self hn hin.2⟩
      have hpage := (loopPage_iff hn).mpr ⟨rfl, rfl⟩
      dsimp only
      rw [InLoop]
      omega
  have hle : (k.mappings f).ncard ≤
      (k₀.mappings f).ncard + (k₀.loopMappings cur n f).ncard := by
    refine (Set.ncard_le_ncard hsub (Set.toFinite _)).trans ((Set.ncard_union_le _ _).trans ?_)
    exact Nat.add_le_add_left (Set.ncard_image_le (Set.toFinite _)) _
  have hmax := hfits f
  intro hfull
  rw [hfull] at hcount
  have hval : (65535 : BitVec 16).toNat = 65535 := rfl
  omega

end Dupping

/-- The loop of `fork`. -/
theorem dupPages_spec (h : InUser L c cur d k₀) (hc : k₀.HasChild cur child childId)
    (hfits : k₀.LoopFits cur) :
    wp (dupPages c cur childId) (fun _ k => Dupping L k₀ cur child loopPages k)
      (fun _ _ => ¬ k₀.phys.FreePages (2 * k₀.loopCount cur loopPages)) (fun _ => False) k₀ := by
  refine wp_forRange (fun n k => Dupping L k₀ cur child n k) (fun n k hn hdup => ?_) (.init h.mem)
  have hu := hdup.ends.inUser h
  have hold : k.pte cur (loopPde n) (loopPte n) = k₀.pte cur (loopPde n) (loopPte n) :=
    hdup.rest _ _ _ fun hno => not_inLoop_self hn hno.2.1
  have hpage := (loopPage_iff hn).mpr ⟨rfl, rfl⟩
  rw [← hpage, dupPresent, wp_bind]
  have hpde : pageNumber (loopPde n) (loopPte n) / 1024 = (loopPde n).val := by
    have hlt := (loopPte n).isLt
    rw [pageNumber]
    omega
  rw [hpde, wp_ret (hu.uvpdEntry _), wp_when]
  have hin : (loopPde n).val < userPdes := by
    rw [userPdes]
    rw [pageNumber, pgnum_utext] at hpage
    rw [pgnum_utext, pgnum_uxstack] at hn
    omega
  have htable : k.phys.target k.dirs (.pde cur (loopPde n)) = entryFrame (k.phys.word d (loopPde n)) := by
    rw [Phys.target, Phys.pdeAt_of_dir hu.dir hin]
  refine ⟨fun hp => ?_, fun hp => ?_⟩
  · rw [entryFrame, if_pos hp] at htable
    rw [wp_bind, wp_ret (hu.uvptEntry htable), wp_when]
    refine ⟨fun hpte => ?_, fun hpte => ?_⟩
    · have hf := Kernel.pte_present hpte
      refine wp_mono (duppage_spec hu (hdup.ends.hasChild hc) hf (hdup.fits h.mem hfits hn hf))
        (fun _ k' hk' => hdup.next hn (hold ▸ hpte) hk') (fun _ _ hroom hfree => ?_)
        (fun _ hf => hf)
      refine hroom (hdup.free 2 (hfree.mono ?_))
      have hcount : k₀.loopCount cur n + 1 = k₀.loopCount cur (n + 1) := by
        rw [Kernel.loopCount, Kernel.loopCount, Nat.count_succ, if_pos (hold ▸ hpte)]
      have hmono : k₀.loopCount cur (n + 1) ≤ k₀.loopCount cur loopPages := Nat.count_monotone _ hn
      omega
    · exact hdup.skip hn (by rw [← hold]; simpa using hpte)
  · refine hdup.skip hn ?_
    rw [entryFrame, if_neg hp] at htable
    rw [← hold, Kernel.pte, Phys.pteAt_of_none htable]
    rfl

end Loop

end Jos
