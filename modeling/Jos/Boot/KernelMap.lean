import Jos.Pmap.Remove
import Jos.Boot.Program
import Mathlib.Order.Interval.Finset.Fin

/-!
# The kernel's address space (`inc/memlayout.h`)

What `mem_init` and `mem_init_mp` map above `UTOP`, page by page. The entries of all
page tables together are a function from page numbers to entries; mapping a region
overlays it with the entries of the region. With memory for the page tables the
result is the memory map of `memlayout.h`, and nothing else.
-/

namespace Jos

open Prog

/-- Consecutive pages, mapped to consecutive frames. -/
structure Region where
  base : Word
  pages : Nat
  frame : Nat
  perm : Word

namespace Region

/-- The number of the first page. -/
def first (r : Region) : Nat := r.base.toNat / 4096

/-- The page with number `pn` belongs to the region. -/
def Covers (r : Region) (pn : Nat) : Prop := r.first ≤ pn ∧ pn < r.first + r.pages

instance (r : Region) (pn : Nat) : Decidable (r.Covers pn) := instDecidableAnd

/-- The entry of a page of the region. -/
def entry (r : Region) (pn : Nat) : Word := mkPte (r.frame + (pn - r.first)) r.perm

/-- The region is mapped over what was there before. -/
def overlay (r : Region) (entries : Nat → Word) : Nat → Word :=
  fun pn => if r.Covers pn then r.entry pn else entries pn

/-- Whole pages between `UTOP` and `UVPT`, or from `ULIM` on; the user may at most read them. -/
structure Upper (r : Region) : Prop where
  aligned : r.base.toNat % 4096 = 0
  range : 4005560320 ≤ r.base.toNat ∧ r.base.toNat + 4096 * r.pages ≤ 4013948928 ∨
    4018143232 ≤ r.base.toNat ∧ r.base.toNat + 4096 * r.pages ≤ 4294967296
  readonly : r.perm &&& pteU ≠ 0 → r.perm &&& pteW = 0

theorem Upper.base_eq {r : Region} (h : r.Upper) : r.base = BitVec.ofNat 32 (4096 * r.first) := by
  have haligned := h.aligned
  have hlt := r.base.isLt
  apply BitVec.eq_of_toNat_eq
  rw [BitVec.toNat_ofNat, first]
  omega

/-- Regions are mapped one after the other. -/
def overlays (entries : Nat → Word) (l : List Region) : Nat → Word :=
  l.foldl (fun before r => r.overlay before) entries

theorem overlays_append (entries : Nat → Word) (l l' : List Region) :
    overlays entries (l ++ l') = overlays (overlays entries l) l' := List.foldl_append

/-- Where regions do not overlap, their order does not matter. -/
theorem overlays_of_unique {l : List Region} {r : Region} {entries : Nat → Word} {pn : Nat}
    (hmem : r ∈ l) (hr : r.Covers pn) (only : ∀ r' ∈ l, r'.Covers pn → r' = r) :
    overlays entries l pn = r.entry pn := by
  induction l using List.reverseRecOn with
  | nil => simp at hmem
  | append_singleton l r' ih =>
      rw [overlays, List.foldl_append, List.foldl_cons, List.foldl_nil, overlay]
      by_cases hr' : r'.Covers pn
      · rw [if_pos hr', only r' (by simp) hr']
      · rw [if_neg hr']
        have hmem' : r ∈ l := by
          rcases List.mem_append.mp hmem with hl | hl
          · exact hl
          · rw [List.mem_singleton.mp hl] at hr
            exact absurd hr hr'
        exact ih hmem' fun r'' hr'' => only r'' (List.mem_append_left _ hr'')

theorem overlays_of_not_covers {l : List Region} {entries : Nat → Word} {pn : Nat}
    (hnone : ∀ r ∈ l, ¬ r.Covers pn) : overlays entries l pn = entries pn := by
  induction l generalizing entries with
  | nil => rfl
  | cons r l ih =>
      have hrest : overlays (r.overlay entries) l pn = r.overlay entries pn :=
        ih fun r' hr' => hnone r' (List.mem_cons_of_mem r hr')
      exact hrest.trans (if_neg (hnone r (by simp)))

end Region

/-- The entry `j` of the page table `i` of `d`; empty if there is no such table. -/
def Phys.entryOf (p : Phys) (d : Nat) (i j : Idx) : Word :=
  if p.word d i &&& pteP = 0 then 0 else p.word (pgnum (p.word d i)) j

/-- The x86 walk finds an entry in a page table. -/
theorem Phys.translate_eq (p : Phys) (d : Nat) (va : Word) : p.translate d va =
    if p.entryOf d (pdx va) (ptx va) &&& pteP = 0 then none
    else some (p.word d (pdx va), p.entryOf d (pdx va) (ptx va)) := by
  rw [translate, entryOf]
  dsimp only
  by_cases hp : p.word d (pdx va) &&& pteP = 0
  · rw [if_pos hp, if_pos hp, if_pos (by decide)]
  · rw [if_neg hp, if_neg hp]

/-- The page tables of the kernel's half hold `entries`, and its directory entries do not
restrict them. -/
structure KernEntries (m : Hardware) (entries : Nat → Word) (p : Phys) : Prop where
  entry : ∀ i j : Idx, userPdes ≤ i.val → i ≠ pdx uvpt →
    p.entryOf m.kernPgdir i j = entries (pageNumber i j)
  pde : ∀ i : Idx, i ≠ pdx uvpt → p.word m.kernPgdir i &&& pteP ≠ 0 →
    ∃ t, p.word m.kernPgdir i = mkPte t (pteW ||| pteU)

namespace KernTree

variable {m : Machine} {n : Nat} {l : List Nat} {p : Phys} {i : Idx} {f : Nat}
  {entries : Nat → Word}

/-- There are 69 directory entries from `UTOP` on, so 69 pages are enough. -/
theorem ne_nil (h : KernTree m.toHardware n l p) (hn : 69 ≤ n) (hlow : userPdes ≤ i.val)
    (hp : p.word m.kernPgdir i &&& pteP = 0) : l ≠ [] := by
  rintro rfl
  have hroom := h.room
  have hsub : (Finset.univ.filter fun i : Idx => p.word m.kernPgdir i &&& pteP ≠ 0) ⊆
      (Finset.univ.filter fun i : Idx => userPdes ≤ i.val).erase i := by
    intro i' hi'
    rw [Finset.mem_filter] at hi'
    rw [Finset.mem_erase, Finset.mem_filter]
    refine ⟨?_, Finset.mem_univ _, ?_⟩
    · rintro rfl
      exact hi'.2 hp
    · by_contra hlt
      exact hi'.2 (h.user i' (by omega))
  have hcard := Finset.card_le_card hsub
  rw [Finset.card_erase_of_mem (by simp [hlow])] at hcard
  have htotal : (Finset.univ.filter fun i : Idx => userPdes ≤ i.val).card = 69 := by
    have hset : (Finset.univ.filter fun i : Idx => userPdes ≤ i.val) = Finset.Ici (955 : Idx) := by
      ext i
      simp [Fin.le_def]
    rw [hset, Fin.card_Ici]
    rfl
  rw [htotal] at hcard
  rw [List.length_nil] at hroom
  omega

/-- A new page table is empty. -/
theorem grow_entries (h : KernTree m.toHardware n (f :: l) p)
    (hp : p.word m.kernPgdir i &&& pteP = 0) (hM : KernEntries m.toHardware entries p) :
    KernEntries m.toHardware entries (p.growTable m.kernPgdir f i) := by
  have hfree := (h.managed f (by simp)).1
  have hfk : f ≠ m.kernPgdir := by
    rintro rfl
    exact m.kern_not_free.1 hfree
  have hflt : f < 1048576 := by
    have hlt := hfree.1
    have hle := m.npages_le
    omega
  have hself : (p.growTable m.kernPgdir f i).word m.kernPgdir i = mkPte f (pteW ||| pteU) := by
    rw [Phys.growTable, Phys.word_setWord_self, page2pa, tablePde_eq]
  have hword : ∀ i', i' ≠ i →
      (p.growTable m.kernPgdir f i).word m.kernPgdir i' = p.word m.kernPgdir i' := by
    intro i' hne
    rw [Phys.growTable, Phys.word_setWord_of_ne _ _ hne]
    exact p.word_congr ((p.take f).mem_setPage_of_ne _ hfk.symm)
  refine ⟨fun i' j hlow hi' => ?_, fun i' hi' hp' => ?_⟩
  · rw [← hM.entry i' j hlow hi', Phys.entryOf, Phys.entryOf]
    by_cases hii : i' = i
    · rw [hii, if_pos hp, hself, if_neg (mkPte_present _ _), pgnum_mkPte hflt (by decide), Phys.word,
        Phys.growTable_mem_self _ _ hfk, readWord_zero]
    · rw [hword i' hii]
      by_cases hp' : p.word m.kernPgdir i' &&& pteP = 0
      · rw [if_pos hp', if_pos hp']
      · rw [if_neg hp', if_neg hp']
        obtain ⟨htable, hnot⟩ := h.table i' hi' hp'
        refine p.word_congr (p.growTable_mem m.kernPgdir f i ?_ ?_)
        · intro heq
          exact hnot (heq ▸ List.mem_cons_self)
        · intro heq
          exact m.kern_not_free.1 (heq ▸ htable)
  · by_cases hii : i' = i
    · exact ⟨f, by rw [hii, hself]⟩
    · rw [hword i' hii] at hp' ⊢
      exact hM.pde i' hi' hp'

/-- Storing an entry in the table that a walk has found. -/
theorem setEntry_entries (h : KernTree m.toHardware n l p) (hM : KernEntries m.toHardware entries p)
    (hi : i ≠ pdx uvpt) (hp : p.word m.kernPgdir i &&& pteP ≠ 0) (j : Idx) (w : Word) :
    KernEntries m.toHardware (Function.update entries (pageNumber i j) w)
      (p.setWord (pgnum (p.word m.kernPgdir i)) j w) := by
  have hkern : m.kernPgdir ≠ pgnum (p.word m.kernPgdir i) := by
    intro heq
    exact m.kern_not_free.1 (heq ▸ (h.table i hi hp).1)
  have hword : ∀ i', (p.setWord (pgnum (p.word m.kernPgdir i)) j w).word m.kernPgdir i' =
      p.word m.kernPgdir i' := fun i' => p.word_congr (p.mem_setWord_of_ne w hkern)
  refine ⟨fun i' j' hlow hi' => ?_, fun i' hi' hp' => ?_⟩
  · rw [Phys.entryOf, hword]
    by_cases heq : i' = i ∧ j' = j
    · obtain ⟨rfl, rfl⟩ := heq
      rw [if_neg hp, Phys.word_setWord_self, Function.update_self]
    · have hpn : pageNumber i' j' ≠ pageNumber i j := by
        rw [pageNumber, pageNumber]
        have hj := j.isLt
        have hj' := j'.isLt
        intro hnum
        exact heq ⟨Fin.ext (by omega), Fin.ext (by omega)⟩
      rw [Function.update_of_ne hpn, ← hM.entry i' j' hlow hi', Phys.entryOf]
      by_cases hp' : p.word m.kernPgdir i' &&& pteP = 0
      · rw [if_pos hp', if_pos hp']
      · rw [if_neg hp', if_neg hp']
        by_cases hii : i' = i
        · rw [hii]
          exact Phys.word_setWord_of_ne _ _ fun hjj => heq ⟨hii, hjj⟩
        · have hne : pgnum (p.word m.kernPgdir i') ≠ pgnum (p.word m.kernPgdir i) :=
            fun hnum => hii (h.distinct i' i hi' hi hp' hp hnum)
          exact p.word_congr (p.mem_setWord_of_ne w hne)
  · rw [hword] at hp' ⊢
    exact hM.pde i' hi' hp'

/-- `pgdir_walk` in the kernel's half, with memory for the table. -/
theorem walk_total (h : KernTree m.toHardware n l p) (hM : KernEntries m.toHardware entries p)
    (hn : 69 ≤ n) {va : Word} (hva : KernelVa va) :
    ∃ q l', pgdirWalk m.kernPgdir va true p =
        .ret (some ⟨pgnum (q.word m.kernPgdir (pdx va)), ptx va⟩) q ∧
      KernTree m.toHardware n l' q ∧ q.word m.kernPgdir (pdx va) &&& pteP ≠ 0 ∧
      KernEntries m.toHardware entries q := by
  by_cases hp : p.word m.kernPgdir (pdx va) &&& pteP = 0
  · obtain ⟨f, l', rfl⟩ := List.exists_cons_of_ne_nil (h.ne_nil hn hva.1 hp)
    obtain ⟨hq, hp', hnum, -⟩ := h.grow hva.1 hva.2 hp
    have hhead : p.pageFreeList = some f := h.free.head_eq
    have hlt : f < p.npages := by
      rw [h.npages]
      exact (h.managed f (by simp)).1.1
    refine ⟨_, l', ?_, hq, hp', h.grow_entries hp hM⟩
    rw [pgdirWalk_create hp hhead hlt (by rw [h.npages]; exact m.npages_le), hnum]
  · have hlt : pgnum (p.word m.kernPgdir (pdx va)) < p.npages := by
      rw [h.npages]
      exact (h.table _ hva.2 hp).1.1
    exact ⟨p, l, pgdirWalk_found hp hlt true, h, hp, hM⟩

/-- Entries for pages `first`, `first + 1` and so on. -/
theorem mapPages {perm : Word} (hperm : perm &&& pteU ≠ 0 → perm &&& pteW = 0) {k first : Nat} (frame : Nat)
    (h : KernTree m.toHardware n l p) (hM : KernEntries m.toHardware entries p) (hn : 69 ≤ n)
    (hva : ∀ i < k, KernelVa (BitVec.ofNat 32 (4096 * (first + i))))
    (hfit : first + k ≤ 1048576) :
    ∃ q l', Jos.bootMapRegion m.kernPgdir perm k (BitVec.ofNat 32 (4096 * first)) (page2pa frame) p =
        .ret () q ∧ KernTree m.toHardware n l' q ∧
      KernEntries m.toHardware (fun pn => if first ≤ pn ∧ pn < first + k then
        mkPte (frame + (pn - first)) perm else entries pn) q := by
  induction k generalizing first frame p l entries with
  | zero =>
      refine ⟨p, l, rfl, h, ?_⟩
      have hsame : (fun pn => if first ≤ pn ∧ pn < first + 0 then mkPte (frame + (pn - first)) perm
          else entries pn) = entries := by
        funext pn
        rw [if_neg (by omega)]
      rwa [hsame]
  | succ k ih =>
      have hfirst : KernelVa (BitVec.ofNat 32 (4096 * first)) := hva 0 (Nat.succ_pos k)
      obtain ⟨q, l', hwalk, hq, hp, hMq⟩ := h.walk_total hM hn hfirst
      have hentry : mkPte frame perm &&& pteU ≠ 0 → mkPte frame perm &&& pteW = 0 := by
        rw [mkPte_and _ _ (by decide), mkPte_and _ _ (by decide), BitVec.and_or_distrib_right,
          BitVec.and_or_distrib_right, show pteP &&& pteU = 0#32 by decide,
          show pteP &&& pteW = 0#32 by decide, BitVec.or_zero, BitVec.or_zero]
        exact hperm
      have hset := hq.setEntry hfirst.2 hp (j := ptx (BitVec.ofNat 32 (4096 * first)))
        (w := mkPte frame perm) hentry
      have hMset := hq.setEntry_entries hMq hfirst.2 hp (ptx (BitVec.ofNat 32 (4096 * first)))
        (mkPte frame perm)
      have hpn : pageNumber (pdx (BitVec.ofNat 32 (4096 * first)))
          (ptx (BitVec.ofNat 32 (4096 * first))) = first := by
        rw [pageNumber_eq_iff.mp ⟨rfl, rfl⟩, BitVec.toNat_ofNat]
        omega
      rw [hpn] at hMset
      have hnext : ∀ i < k, KernelVa (BitVec.ofNat 32 (4096 * (first + 1 + i))) := by
        intro i hi
        have := hva (i + 1) (by omega)
        rwa [show first + (i + 1) = first + 1 + i by omega] at this
      obtain ⟨r, l'', hrun, hr, hMr⟩ := ih (frame + 1) hset hMset hnext (by omega)
      refine ⟨r, l'', ?_, hr, ?_⟩
      · have hstep : BitVec.ofNat 32 (4096 * first) + 4096 = BitVec.ofNat 32 (4096 * (first + 1)) := by
          rw [Nat.mul_succ, BitVec.ofNat_add]
          rfl
        have hpa : page2pa frame + 4096 = page2pa (frame + 1) := pageAddr_succ frame
        rw [Jos.bootMapRegion, bind_ret _ hwalk]
        dsimp only
        rw [hstep, hpa]
        exact hrun
      · have hsame : (fun pn => if first + 1 ≤ pn ∧ pn < first + 1 + k then
            mkPte (frame + 1 + (pn - (first + 1))) perm
            else Function.update entries first (mkPte frame perm) pn) =
            fun pn => if first ≤ pn ∧ pn < first + (k + 1) then mkPte (frame + (pn - first)) perm
              else entries pn := by
          funext pn
          by_cases heq : pn = first
          · subst heq
            rw [if_neg (by omega), Function.update_self, if_pos (by omega), Nat.sub_self]
            rfl
          · rw [Function.update_of_ne heq]
            by_cases hin : first + 1 ≤ pn ∧ pn < first + 1 + k
            · rw [if_pos hin, if_pos (by omega),
                show frame + 1 + (pn - (first + 1)) = frame + (pn - first) by omega]
            · rw [if_neg hin, if_neg (by omega)]
        rwa [← hsame]

/-- `boot_map_region` of a whole region. -/
theorem mapRegion (h : KernTree m.toHardware n l p) (hM : KernEntries m.toHardware entries p)
    (hn : 69 ≤ n) {r : Region} (hr : r.Upper) :
    ∃ q l', Jos.bootMapRegion m.kernPgdir r.perm r.pages r.base (page2pa r.frame) p = .ret () q ∧
      KernTree m.toHardware n l' q ∧ KernEntries m.toHardware (r.overlay entries) q := by
  have hfit : r.first + r.pages ≤ 1048576 := by
    have haligned := hr.aligned
    have hrange := hr.range
    rw [Region.first]
    omega
  have hva : ∀ i < r.pages, KernelVa (BitVec.ofNat 32 (4096 * (r.first + i))) := by
    intro i hi
    have hi' := kernelVa_of_range r.base hr.range i hi
    rwa [hr.base_eq, ← BitVec.ofNat_add, ← Nat.mul_add] at hi'
  obtain ⟨q, l', hrun, hq, hMq⟩ := mapPages hr.readonly r.frame h hM hn hva hfit
  rw [← hr.base_eq] at hrun
  exact ⟨q, l', hrun, hq, hMq⟩

/-- A call of `mmio_map_region` that does not overflow its region. -/
theorem mmioRegion (h : KernTree m.toHardware n l p) (hM : KernEntries m.toHardware entries p)
    (hn : 69 ≤ n) (base : Word) {k : Nat} (hbase : 4018143232 ≤ base.toNat)
    (haligned : base.toNat % 4096 = 0) (hfit : base.toNat + k * 4096 ≤ 4022337536) (frame : Nat) :
    ∃ q l', Jos.mmioMapRegion m.kernPgdir base (page2pa frame) k p =
        .ret (base + BitVec.ofNat 32 (k * 4096)) q ∧ KernTree m.toHardware n l' q ∧
      KernEntries m.toHardware
        (Region.overlay ⟨base, k, frame, pteW ||| ptePcd ||| ptePwt⟩ entries) q := by
  have hlim : ¬ base + BitVec.ofNat 32 (k * 4096) > mmiolim := by
    have hl : mmiolim.toNat = 4022337536 := by decide
    rw [gt_iff_lt, BitVec.lt_def, mmio_next hfit, hl]
    omega
  have hperm : (pteW ||| ptePcd ||| ptePwt) &&& pteU ≠ 0 →
      (pteW ||| ptePcd ||| ptePwt) &&& pteW = 0 := by decide
  have hupper : Region.Upper ⟨base, k, frame, pteW ||| ptePcd ||| ptePwt⟩ :=
    ⟨haligned, .inr ⟨hbase, by dsimp only; omega⟩, hperm⟩
  obtain ⟨q, l', hrun, hq, hMq⟩ := h.mapRegion hM hn hupper
  refine ⟨q, l', ?_, hq, hMq⟩
  rw [Jos.mmioMapRegion, if_neg hlim, bind_ret _ hrun]
  rfl

/-- `*pgdir_walk(pgdir, va, 0) = 0` where there is a page table. -/
theorem clear_entries (h : KernTree m.toHardware n l p) (hM : KernEntries m.toHardware entries p)
    {va : Word} (hva : KernelVa va) (hp : entries (va.toNat / 4096) &&& pteP ≠ 0) :
    ∃ q, Jos.clearEntry m.kernPgdir va p = .ret () q ∧ KernTree m.toHardware n l q ∧
      KernEntries m.toHardware (Function.update entries (va.toNat / 4096) 0) q := by
  have hpn : pageNumber (pdx va) (ptx va) = va.toNat / 4096 := pageNumber_eq_iff.mp ⟨rfl, rfl⟩
  have htable : p.word m.kernPgdir (pdx va) &&& pteP ≠ 0 := by
    intro hnone
    rw [← hpn, ← hM.entry (pdx va) (ptx va) hva.1 hva.2, Phys.entryOf, if_pos hnone] at hp
    exact hp (by decide)
  have hlt : pgnum (p.word m.kernPgdir (pdx va)) < p.npages := by
    rw [h.npages]
    exact (h.table _ hva.2 htable).1.1
  have hMq := h.setEntry_entries hM hva.2 htable (ptx va) 0
  rw [hpn] at hMq
  refine ⟨_, ?_, h.setEntry hva.2 htable (j := ptx va) (w := 0) (by simp), hMq⟩
  rw [Jos.clearEntry, bind_ret _ (pgdirWalk_found htable hlt false)]
  rfl

/-- The tests of `check_page` leave no device mapped. -/
theorem checkMmio_entries (h : KernTree m.toHardware n l p)
    (hM : KernEntries m.toHardware (fun _ => 0) p) (hn : 69 ≤ n) :
    ∃ q l', Jos.checkMmio m.kernPgdir p = .ret (mmiobase + 12288) q ∧
      KernTree m.toHardware n l' q ∧ KernEntries m.toHardware (fun _ => 0) q := by
  have hmm2 : mmiobase + BitVec.ofNat 32 (2 * 4096) = mmiobase + 8192 := by decide
  have hnext : mmiobase + 8192 + BitVec.ofNat 32 (1 * 4096) = mmiobase + 12288 := by decide
  have hnum : mmiobase.toNat / 4096 = 980992 ∧ (mmiobase + 4096).toNat / 4096 = 980993 ∧
      (mmiobase + 8192).toNat / 4096 = 980994 := by decide
  obtain ⟨q₁, l₁, hrun₁, h₁, hM₁⟩ := h.mmioRegion hM hn mmiobase (k := 2)
    (by decide) (by decide) (by decide) 0
  rw [hmm2] at hrun₁
  obtain ⟨q₂, l₂, hrun₂, h₂, hM₂⟩ := h₁.mmioRegion hM₁ hn (mmiobase + 8192) (k := 1)
    (by decide) (by decide) (by decide) 0
  rw [hnext] at hrun₂
  -- the three pages are mapped, and nothing else
  generalize hE₂ : Region.overlay ⟨mmiobase + 8192, 1, 0, pteW ||| ptePcd ||| ptePwt⟩ _ = E₂ at hM₂
  have hin : ∀ pn, 980992 ≤ pn → pn < 980995 → E₂ pn &&& pteP ≠ 0 := by
    intro pn hlow hhigh
    rw [← hE₂]
    simp only [Region.overlay, Region.Covers, Region.first, hnum]
    split
    · exact mkPte_present _ _
    · rw [if_pos (by omega)]
      exact mkPte_present _ _
  have hout : ∀ pn, ¬ (980992 ≤ pn ∧ pn < 980995) → E₂ pn = 0 := by
    intro pn hpn
    rw [← hE₂]
    simp only [Region.overlay, Region.Covers, Region.first, hnum]
    rw [if_neg (by omega), if_neg (by omega)]
  have hva : ∀ a : Word, a = mmiobase ∨ a = mmiobase + 4096 ∨ a = mmiobase + 8192 → KernelVa a := by
    rintro a (rfl | rfl | rfl) <;> exact ⟨by decide, by decide⟩
  obtain ⟨q₃, hrun₃, h₃, hM₃⟩ := h₂.clear_entries hM₂ (hva _ (.inl rfl))
    (by rw [hnum.1]; exact hin _ (by decide) (by decide))
  rw [hnum.1] at hM₃
  obtain ⟨q₄, hrun₄, h₄, hM₄⟩ := h₃.clear_entries hM₃ (hva _ (.inr (.inl rfl)))
    (by rw [hnum.2.1, Function.update_of_ne (by decide)]; exact hin _ (by decide) (by decide))
  rw [hnum.2.1] at hM₄
  obtain ⟨q₅, hrun₅, h₅, hM₅⟩ := h₄.clear_entries hM₄ (hva _ (.inr (.inr rfl))) (by
    rw [hnum.2.2, Function.update_of_ne (by decide), Function.update_of_ne (by decide)]
    exact hin _ (by decide) (by decide))
  rw [hnum.2.2] at hM₅
  have hclear : Function.update (Function.update (Function.update E₂ 980992 0) 980993 0) 980994 0 =
      fun _ => 0 := by
    funext pn
    simp only [Function.update_apply]
    split
    · rfl
    · split
      · rfl
      · split
        · rfl
        · exact hout pn (by omega)
  rw [hclear] at hM₅
  refine ⟨q₅, l₂, ?_, h₅, hM₅⟩
  have hzero : page2pa 0 = 0 := by decide
  rw [hzero] at hrun₁ hrun₂
  rw [Jos.checkMmio, bind_ret _ hrun₁, bind_ret _ hrun₂, bind_ret _ hrun₃, bind_ret _ hrun₄,
    bind_ret _ hrun₅]
  rfl

end KernTree

namespace Hardware

variable (m : Hardware)

/-- `pages[]`, read-only for the user. -/
def pagesRegion : Region :=
  ⟨upages, pagesFor (m.npages * sizeofPageInfo), m.pagesAlloc.1, pteU ||| pteP⟩

/-- `envs[]`, read-only for the user. -/
def envsRegion : Region := ⟨uenvs, pagesFor (nenv * sizeofEnv), m.envsAlloc.1, pteU ||| pteP⟩

/-- All of physical memory. -/
def kernbaseRegion : Region := ⟨kernbase, 65536, 0, pteW ||| pteP⟩

/-- The stack of CPU `i`; the pages below it stay unmapped. -/
def stackRegion (i : Nat) : Region := ⟨kstackBase i, kstkPages, m.percpuKstacks i, pteW ||| pteP⟩

/-- The memory map above `UTOP`, without the self-map and devices. -/
def memlayout : List Region :=
  [m.pagesRegion, m.envsRegion, kernbaseRegion] ++ (List.range ncpuMax).map m.stackRegion

/-- What is mapped, in this order. The boot stack gives way to the stack of CPU 0. -/
def mappings : List Region :=
  [m.pagesRegion, m.envsRegion, ⟨kstackBase 0, kstkPages, m.bootstack, pteW ||| pteP⟩,
    kernbaseRegion] ++ (List.range ncpuMax).map m.stackRegion

theorem stack_upper (frame : Nat) {i : Nat} (hi : i < ncpuMax) :
    Region.Upper ⟨kstackBase i, kstkPages, frame, pteW ||| pteP⟩ := by
  have hrange : ∀ i < ncpuMax, (kstackBase i).toNat % 4096 = 0 ∧
      4018143232 ≤ (kstackBase i).toNat ∧
      (kstackBase i).toNat + 4096 * kstkPages ≤ 4294967296 := by decide
  have hperm : (pteW ||| pteP) &&& pteU ≠ 0 → (pteW ||| pteP) &&& pteW = 0 := by decide
  exact ⟨(hrange i hi).1, .inr (hrange i hi).2, hperm⟩

theorem kernbaseRegion_upper : kernbaseRegion.Upper := ⟨by decide, .inr (by decide), by decide⟩

end Hardware

namespace Machine

variable (m : Machine)

/-- `pages[]` fits between `UPAGES` and `UVPT`. -/
theorem pagesRegion_pages : m.pagesRegion.pages ≤ 128 := by
  have hle := m.npages_le
  simp only [Hardware.pagesRegion, pagesFor, sizeofPageInfo, pgsize]
  omega

theorem pagesRegion_upper : m.pagesRegion.Upper := by
  have hpages := m.pagesRegion_pages
  have hupages : m.pagesRegion.base.toNat = 4009754624 :=
    (by decide : upages.toNat = 4009754624)
  have hperm : (pteU ||| pteP) &&& pteU ≠ 0 → (pteU ||| pteP) &&& pteW = 0 := by decide
  exact ⟨by rw [hupages], .inl ⟨by omega, by omega⟩, hperm⟩

theorem envsRegion_upper : m.envsRegion.Upper := by
  have hbase : uenvs.toNat % 4096 = 0 := by decide
  have hrange : 4005560320 ≤ uenvs.toNat ∧
      uenvs.toNat + 4096 * pagesFor (nenv * sizeofEnv) ≤ 4013948928 := by decide
  have hperm : (pteU ||| pteP) &&& pteU ≠ 0 → (pteU ||| pteP) &&& pteW = 0 := by decide
  exact ⟨hbase, .inl hrange, hperm⟩

/-- The pages of the regions above `UTOP`. -/
theorem covers_iff (pn : Nat) :
    (m.pagesRegion.Covers pn ↔ 978944 ≤ pn ∧ pn < 978944 + m.pagesRegion.pages) ∧
      (m.envsRegion.Covers pn ↔ 977920 ≤ pn ∧ pn < 977951) ∧
      (Hardware.kernbaseRegion.Covers pn ↔ 983040 ≤ pn ∧ pn < 1048576) ∧
      ∀ i < ncpuMax, ∀ frame, Region.Covers ⟨kstackBase i, kstkPages, frame, pteW ||| pteP⟩ pn ↔
        983032 - 16 * i ≤ pn ∧ pn < 983040 - 16 * i := by
  have hupages : upages.toNat / 4096 = 978944 := by decide
  have huenvs : uenvs.toNat / 4096 = 977920 ∧ pagesFor (nenv * sizeofEnv) = 31 := by decide
  have hkernbase : kernbase.toNat / 4096 = 983040 := by decide
  have hstack : ∀ i < ncpuMax, (kstackBase i).toNat / 4096 = 983032 - 16 * i := by decide
  refine ⟨?_, ?_, ?_, fun i hi frame => ?_⟩
  · simp only [Region.Covers, Region.first, Hardware.pagesRegion, hupages]
  · simp only [Region.Covers, Region.first, Hardware.envsRegion, huenvs.1, huenvs.2]
  · simp only [Region.Covers, Region.first, Hardware.kernbaseRegion, hkernbase]
  · simp only [Region.Covers, Region.first, hstack i hi, kstkPages]
    simp only [ncpuMax] at hi
    omega

theorem mem_memlayout {r : Region} : r ∈ m.memlayout ↔
    r = m.pagesRegion ∨ r = m.envsRegion ∨ r = Hardware.kernbaseRegion ∨
      ∃ i < ncpuMax, m.stackRegion i = r := by
  simp [Hardware.memlayout]

/-- Where the regions are. -/
theorem memlayout_covers {r : Region} {pn : Nat} (hr : r ∈ m.memlayout) (hc : r.Covers pn) :
    (r = m.pagesRegion ∧ 978944 ≤ pn ∧ pn < 979072) ∨
      (r = m.envsRegion ∧ 977920 ≤ pn ∧ pn < 977951) ∨
      (r = Hardware.kernbaseRegion ∧ 983040 ≤ pn ∧ pn < 1048576) ∨
      ∃ i < 8, r = m.stackRegion i ∧ 983032 - 16 * i ≤ pn ∧ pn < 983040 - 16 * i := by
  obtain ⟨hpages, henvs, hkern, hstack⟩ := m.covers_iff pn
  have hle := m.pagesRegion_pages
  rcases m.mem_memlayout.mp hr with rfl | rfl | rfl | ⟨i, hi, rfl⟩
  · have hrange := hpages.mp hc
    exact .inl ⟨rfl, hrange.1, by omega⟩
  · exact .inr (.inl ⟨rfl, henvs.mp hc⟩)
  · exact .inr (.inr (.inl ⟨rfl, hkern.mp hc⟩))
  · exact .inr (.inr (.inr ⟨i, hi, rfl, (hstack i hi _).mp hc⟩))

/-- No two regions of the memory map overlap. -/
theorem memlayout_disjoint {r r' : Region} {pn : Nat} (hr : r ∈ m.memlayout)
    (hr' : r' ∈ m.memlayout) (hc : r.Covers pn) (hc' : r'.Covers pn) : r' = r := by
  rcases m.memlayout_covers hr hc with ⟨rfl, hin⟩ | ⟨rfl, hin⟩ | ⟨rfl, hin⟩ | ⟨i, hi, rfl, hin⟩ <;>
    rcases m.memlayout_covers hr' hc' with
      ⟨rfl, hin'⟩ | ⟨rfl, hin'⟩ | ⟨rfl, hin'⟩ | ⟨j, hj, rfl, hin'⟩ <;>
    first
    | exact absurd hin (by omega)
    | (obtain rfl : i = j := by omega
       rfl)
    | rfl

/-- The memory map is what is mapped in the end. -/
theorem memlayout_entry {r : Region} {pn : Nat} (hr : r ∈ m.memlayout) (hc : r.Covers pn) :
    Region.overlays (fun _ => 0) m.mappings pn = r.entry pn := by
  obtain ⟨-, -, -, hstack⟩ := m.covers_iff pn
  have hstacks : ∀ r' ∈ (List.range ncpuMax).map m.stackRegion, r' ∈ m.memlayout :=
    fun r' h' => List.mem_append_right _ h'
  rw [Hardware.mappings, Region.overlays_append]
  by_cases hmem : r ∈ (List.range ncpuMax).map m.stackRegion
  · exact Region.overlays_of_unique hmem hc fun r' h' hc' =>
      m.memlayout_disjoint hr (hstacks r' h') hc hc'
  · -- the region is no stack, so the boot stack is not there either
    have hno : ∀ r' ∈ (List.range ncpuMax).map m.stackRegion, ¬ r'.Covers pn := fun r' h' hc' =>
      hmem (m.memlayout_disjoint hr (hstacks r' h') hc hc' ▸ h')
    have hboot : ¬ Region.Covers ⟨kstackBase 0, kstkPages, m.bootstack, pteW ||| pteP⟩ pn := by
      rw [hstack 0 (by decide), ← hstack 0 (by decide) (m.percpuKstacks 0)]
      exact hno (m.stackRegion 0) (List.mem_map.mpr ⟨0, by decide, rfl⟩)
    rw [Region.overlays_of_not_covers hno]
    have hr₀ := m.mem_memlayout.mp hr
    refine Region.overlays_of_unique ?_ hc fun r' h' hc' => ?_
    · simp only [List.mem_cons, List.not_mem_nil, or_false]
      rcases hr₀ with h | h | h | ⟨i, hi, h⟩
      · exact .inl h
      · exact .inr (.inl h)
      · exact .inr (.inr (.inr h))
      · exact absurd (List.mem_map.mpr ⟨i, List.mem_range.mpr hi, h⟩) hmem
    · simp only [List.mem_cons, List.not_mem_nil, or_false] at h'
      rcases h' with rfl | rfl | rfl | rfl
      · exact m.memlayout_disjoint hr (m.mem_memlayout.mpr (.inl rfl)) hc hc'
      · exact m.memlayout_disjoint hr (m.mem_memlayout.mpr (.inr (.inl rfl))) hc hc'
      · exact absurd hc' hboot
      · exact m.memlayout_disjoint hr (m.mem_memlayout.mpr (.inr (.inr (.inl rfl)))) hc hc'

theorem memlayout_none {pn : Nat} (hnone : ∀ r ∈ m.memlayout, ¬ r.Covers pn) :
    Region.overlays (fun _ => 0) m.mappings pn = 0 := by
  obtain ⟨-, -, -, hstack⟩ := m.covers_iff pn
  refine Region.overlays_of_not_covers fun r hr hc => ?_
  rw [Hardware.mappings, List.mem_append] at hr
  rcases hr with hr | hr
  · simp only [List.mem_cons, List.not_mem_nil, or_false] at hr
    rcases hr with rfl | rfl | rfl | rfl
    · exact hnone _ (m.mem_memlayout.mpr (.inl rfl)) hc
    · exact hnone _ (m.mem_memlayout.mpr (.inr (.inl rfl))) hc
    · rw [hstack 0 (by decide), ← hstack 0 (by decide) (m.percpuKstacks 0)] at hc
      exact hnone (m.stackRegion 0) (m.mem_memlayout.mpr (.inr (.inr (.inr ⟨0, by decide, rfl⟩)))) hc
    · exact hnone _ (m.mem_memlayout.mpr (.inr (.inr (.inl rfl)))) hc
  · exact hnone r (List.mem_append_right _ hr) hc

end Machine

namespace KernTree

variable {m : Machine} {n : Nat} {l : List Nat} {p : Phys} {entries : Nat → Word}

theorem mapKernel_entries (h : KernTree m.toHardware n l p)
    (hM : KernEntries m.toHardware entries p) (hn : 69 ≤ n) :
    ∃ q l', Jos.mapKernel m.toHardware p = .ret () q ∧ KernTree m.toHardware n l' q ∧
      KernEntries m.toHardware (Region.overlays entries m.mappings) q := by
  obtain ⟨q₁, l₁, hrun₁, h₁, hM₁⟩ := h.mapRegion hM hn m.pagesRegion_upper
  obtain ⟨q₂, l₂, hrun₂, h₂, hM₂⟩ := h₁.mapRegion hM₁ hn m.envsRegion_upper
  obtain ⟨q₃, l₃, hrun₃, h₃, hM₃⟩ := h₂.mapRegion hM₂ hn
    (Hardware.stack_upper m.bootstack (by decide : 0 < ncpuMax))
  obtain ⟨q₄, l₄, hrun₄, h₄, hM₄⟩ := h₃.mapRegion hM₃ hn Hardware.kernbaseRegion_upper
  generalize hE : Hardware.kernbaseRegion.overlay _ = E at hM₄
  -- after `i` iterations the first `i` stacks are mapped
  have hstacks : wp (memInitMp m.toHardware) (fun _ q => ∃ l', KernTree m.toHardware n l' q ∧
      KernEntries m.toHardware (Region.overlays E ((List.range ncpuMax).map m.stackRegion)) q)
      (fun _ _ => False) (fun _ => False) q₄ := by
    refine wp_forRange (fun i q => ∃ l', KernTree m.toHardware n l' q ∧
      KernEntries m.toHardware (Region.overlays E ((List.range i).map m.stackRegion)) q) ?_
      ⟨l₄, h₄, hM₄⟩
    rintro i q hi ⟨l', hq, hMq⟩
    obtain ⟨r, l'', hrun, hr, hMr⟩ := hq.mapRegion hMq hn
      (Hardware.stack_upper (m.percpuKstacks i) hi)
    refine (wp_ret hrun).mpr ⟨l'', hr, ?_⟩
    rw [List.range_succ, List.map_append, Region.overlays, List.foldl_append]
    exact hMr
  obtain ⟨_, q₅, hrun₅, l₅, h₅, hM₅⟩ := exists_of_wp hstacks
  refine ⟨q₅, l₅, ?_, h₅, ?_⟩
  · have hzero : page2pa 0 = 0 := by decide
    rw [Hardware.kernbaseRegion, hzero] at hrun₄
    rw [Jos.mapKernel]
    exact (bind_ret _ hrun₁).trans ((bind_ret _ hrun₂).trans
      ((bind_ret _ hrun₃).trans ((bind_ret _ hrun₄).trans hrun₅)))
  · rw [← hE] at hM₅
    exact hM₅

end KernTree

/-- The kernel's page directory `p` maps `memlayout` above `UTOP`, and itself at `UVPT`. -/
structure Hardware.KernelSpace (m : Hardware) (p : Phys) : Prop where
  mapped : ∀ r ∈ m.memlayout, ∀ va, r.Covers (pgnum va) →
    ∃ t, p.translate m.kernPgdir va = some (mkPte t (pteW ||| pteU), r.entry (pgnum va))
  unmapped : ∀ va, utop ≤ va → pdx va ≠ pdx uvpt → pdx va ≠ pdx mmiobase →
    (∀ r ∈ m.memlayout, ¬ r.Covers (pgnum va)) → p.translate m.kernPgdir va = none
  self : p.word m.kernPgdir (pdx uvpt) = page2pa m.kernPgdir ||| pteU ||| pteP
  selfMap : ∀ va, pdx va = pdx uvpt → p.translate m.kernPgdir va =
    if p.word m.kernPgdir (ptx va) &&& pteP = 0 then none
    else some (p.word m.kernPgdir (pdx uvpt), p.word m.kernPgdir (ptx va))
  /-- The arrays are for the user to read. -/
  readable : ∀ va, m.pagesRegion.Covers (pgnum va) ∨ m.envsRegion.Covers (pgnum va) →
    p.userAccess m.kernPgdir va false
  readonly : ∀ va, utop ≤ va → ¬ p.userAccess m.kernPgdir va true
  hidden : ∀ va write, ulim ≤ va → ¬ p.userAccess m.kernPgdir va write

namespace KernTree

variable {m : Machine} {n : Nat} {l : List Nat} {p : Phys} {va : Word}

/-- The walk of an address in the kernel's half. -/
theorem translate_kernel (hM : KernEntries m.toHardware (Region.overlays (fun _ => 0) m.mappings) p)
    (hva : utop ≤ va) (huvpt : pdx va ≠ pdx uvpt) : p.translate m.kernPgdir va =
      if Region.overlays (fun _ => 0) m.mappings (pgnum va) &&& pteP = 0 then none
      else some (p.word m.kernPgdir (pdx va),
        Region.overlays (fun _ => 0) m.mappings (pgnum va)) := by
  have hlow : userPdes ≤ (pdx va).val := by
    rw [← Nat.not_lt, userPdes, pdx_lt_iff]
    exact BitVec.not_lt.mpr hva
  have hpn : pageNumber (pdx va) (ptx va) = pgnum va := by
    rw [pageNumber_eq_iff.mp ⟨rfl, rfl⟩, pgnum_eq]
  rw [Phys.translate_eq, hM.entry _ _ hlow huvpt, hpn]

/-- The regions are above `UTOP` and apart from the self-map. -/
theorem region_va {r : Region} (hr : r ∈ m.memlayout) (hc : r.Covers (pgnum va)) :
    utop ≤ va ∧ pdx va ≠ pdx uvpt := by
  have hutop : utop.toNat = 4005560320 := by decide
  have huvpt : (pdx uvpt).val = 957 := by decide
  have hval := pdx_val va
  have hnum := pgnum_eq va
  have hrange := m.memlayout_covers hr hc
  have hout : 977920 ≤ pgnum va ∧ (pgnum va < 979968 ∨ 980992 ≤ pgnum va) := by
    rcases hrange with ⟨-, h⟩ | ⟨-, h⟩ | ⟨-, h⟩ | ⟨i, hi, -, h⟩ <;> omega
  refine ⟨by rw [BitVec.le_def]; omega, fun heq => ?_⟩
  rw [heq, huvpt] at hval
  omega

theorem ulim_va (hva : ulim ≤ va) : utop ≤ va ∧ pdx va ≠ pdx uvpt ∧ 980992 ≤ pgnum va := by
  have hutop : utop.toNat = 4005560320 := by decide
  have hulim : ulim.toNat = 4018143232 := by decide
  have huvpt : (pdx uvpt).val = 957 := by decide
  have hval := pdx_val va
  have hnum := pgnum_eq va
  rw [BitVec.le_def] at hva
  refine ⟨by rw [BitVec.le_def]; omega, fun heq => ?_, by omega⟩
  rw [heq, huvpt] at hval
  omega

theorem kernelSpace (h : KernTree m.toHardware n l p)
    (hM : KernEntries m.toHardware (Region.overlays (fun _ => 0) m.mappings) p) :
    m.KernelSpace p := by
  have hmapped : ∀ r ∈ m.memlayout, ∀ va, r.Covers (pgnum va) →
      ∃ t, p.translate m.kernPgdir va = some (mkPte t (pteW ||| pteU), r.entry (pgnum va)) := by
    intro r hr va hc
    obtain ⟨hva, huvpt⟩ := region_va hr hc
    have hwalk := translate_kernel hM hva huvpt
    have hpresent : r.entry (pgnum va) &&& pteP ≠ 0 := mkPte_present _ _
    rw [m.memlayout_entry hr hc, if_neg hpresent] at hwalk
    obtain ⟨-, hp, -, -⟩ := Phys.translate_eq_some hwalk
    obtain ⟨t, ht⟩ := hM.pde _ huvpt hp
    exact ⟨t, by rw [hwalk, ht]⟩
  have hself : p.word m.kernPgdir (pdx uvpt) = mkPte m.kernPgdir pteU := h.self
  have hselfMap : ∀ va, pdx va = pdx uvpt → p.translate m.kernPgdir va =
      if p.word m.kernPgdir (ptx va) &&& pteP = 0 then none
      else some (p.word m.kernPgdir (pdx uvpt), p.word m.kernPgdir (ptx va)) := by
    intro va hva
    have hlt := m.kern_not_free.2
    have hle := m.npages_le
    rw [Phys.translate]
    dsimp only
    rw [hva, hself, if_neg (mkPte_present _ _), pgnum_mkPte (by omega) (by decide)]
  refine ⟨hmapped, fun va hva huvpt _ hnone => ?_, h.self, hselfMap, fun va hva => ?_, ?_, ?_⟩
  · rw [translate_kernel hM hva huvpt, m.memlayout_none hnone, if_pos (by decide)]
  · have hread : ∀ r ∈ m.memlayout, r.perm = pteU ||| pteP → r.Covers (pgnum va) →
        p.userAccess m.kernPgdir va false := by
      intro r hr hperm hc
      obtain ⟨t, ht⟩ := hmapped r hr va hc
      refine ⟨_, _, ht, ?_, ?_, by simp⟩
      · rw [mkPte_and _ _ (by decide)]
        decide
      · rw [Region.entry, mkPte_and _ _ (by decide), hperm]
        decide
    rcases hva with hc | hc
    · exact hread _ (m.mem_memlayout.mpr (.inl rfl)) rfl hc
    · exact hread _ (m.mem_memlayout.mpr (.inr (.inl rfl))) rfl hc
  · rintro va hva ⟨pde, pte, hwalk, -, hU, hW⟩
    obtain ⟨rfl, hp, rfl, -⟩ := Phys.translate_eq_some hwalk
    by_cases huvpt : pdx va = pdx uvpt
    · refine (hW rfl).1 ?_
      rw [huvpt, hself, mkPte_and _ _ (by decide)]
      decide
    · exact (hW rfl).2 (h.readonly _ _ huvpt hp hU)
  · rintro va write hva ⟨pde, pte, hwalk, -, hU, -⟩
    obtain ⟨hutop, huvpt, hhigh⟩ := ulim_va hva
    rw [translate_kernel hM hutop huvpt] at hwalk
    by_cases hcov : ∃ r ∈ m.memlayout, r.Covers (pgnum va)
    · obtain ⟨r, hr, hc⟩ := hcov
      have hperm : r.perm = pteW ||| pteP := by
        rcases m.memlayout_covers hr hc with ⟨-, h⟩ | ⟨-, h⟩ | ⟨rfl, -⟩ | ⟨i, hi, rfl, -⟩
        · omega
        · omega
        · rfl
        · rfl
      have hpresent : r.entry (pgnum va) &&& pteP ≠ 0 := mkPte_present _ _
      rw [m.memlayout_entry hr hc, if_neg hpresent] at hwalk
      rw [← (Prod.mk.inj (Option.some.inj hwalk)).2, Region.entry, mkPte_and _ _ (by decide),
        hperm] at hU
      exact hU (by decide)
    · rw [m.memlayout_none fun r hr hc => hcov ⟨r, hr, hc⟩, if_pos (by decide)] at hwalk
      simp at hwalk

/-- At first the directory is empty apart from its self-map. -/
theorem empty_entries (hzero : ∀ i, i ≠ pdx uvpt → p.word m.kernPgdir i &&& pteP = 0) :
    KernEntries m.toHardware (fun _ => 0) p where
  entry i j _ hi := by rw [Phys.entryOf, if_pos (hzero i hi)]
  pde i hi hp := absurd (hzero i hi) hp

/-- The self-map is an entry of its own. -/
theorem count_self (h : KernTree m.toHardware l.length l p) :
    KernTree m.toHardware (l.length + 1) l p := by
  have hself : p.word m.kernPgdir (pdx uvpt) = mkPte m.kernPgdir pteU := h.self
  have hcard : 0 < (Finset.univ.filter fun i : Idx => p.word m.kernPgdir i &&& pteP ≠ 0).card := by
    refine Finset.card_pos.mpr ⟨pdx uvpt, Finset.mem_filter.mpr ⟨Finset.mem_univ _, ?_⟩⟩
    rw [hself]
    exact mkPte_present _ _
  exact { h with room := by omega }

/-- `mem_init`, with 68 free pages for the page tables. -/
theorem memInitRest_entries {m : Machine} {p₁ p₂ : Phys}
    (start : memInitStart m.toHardware m.powerOn = .ret () p₁) (room : p₁.FreePages 68)
    (test : SelfTest p₁ p₂) :
    ∃ base p₃ n l, Jos.memInitRest m.toHardware p₂ = .ret base p₃ ∧ KernTree m.toHardware n l p₃ ∧
      KernEntries m.toHardware (Region.overlays (fun _ => 0) m.mappings) p₃ := by
  obtain ⟨p, l, hrun, h₁, -, hzero⟩ := KernTree.start m
  obtain rfl : p = p₁ := by
    rw [hrun] at start
    simpa using start
  have hlen : 68 ≤ l.length := by
    obtain ⟨l', hl', hlen⟩ := room
    rwa [h₁.free.unique hl']
  obtain ⟨l₂, h₂, hperm⟩ := h₁.count_self.selfTest test
  have hzero₂ : ∀ i, i ≠ pdx uvpt → p₂.word m.kernPgdir i &&& pteP = 0 := by
    intro i hi
    have hmem := test.mem m.kernPgdir fun hlinked =>
      h₁.kern_not_mem (h₁.free.linked_iff.mp hlinked)
    rw [p.word_congr hmem, hzero i hi]
    decide
  obtain ⟨p₃, l₃, hrun₃, h₃, hM₃⟩ :=
    h₂.checkMmio_entries (KernTree.empty_entries hzero₂) (by omega)
  obtain ⟨p₄, l₄, hrun₄, h₄, hM₄⟩ := h₃.mapKernel_entries hM₃ (by omega)
  refine ⟨mmiobase + 12288, p₄, _, l₄, ?_, h₄, hM₄⟩
  rw [Jos.memInitRest, bind_ret _ hrun₃, bind_ret _ hrun₄]
  rfl

end KernTree

/-- With 68 free pages for the page tables, the kernel's address space is the memory map. -/
theorem kernel_address_space {m : Machine} {p₁ p₂ : Phys}
    (start : memInitStart m.toHardware m.powerOn = .ret () p₁) (room : p₁.FreePages 68)
    (test : SelfTest p₁ p₂) :
    ∃ base p₃, memInitRest m.toHardware p₂ = .ret base p₃ ∧ m.KernelSpace p₃ := by
  obtain ⟨base, p₃, n, l, hrun, htree, hM⟩ := KernTree.memInitRest_entries start room test
  exact ⟨base, p₃, hrun, htree.kernelSpace hM⟩

/-- The tests find `qemu` with enough memory. -/
theorem qemu_memInitStart : ∃ p₁, memInitStart qemu.toHardware qemu.powerOn = .ret () p₁ ∧
    p₁.FreePages 68 ∧ SelfTest p₁ p₁ := by
  obtain ⟨p₁, l, hrun, htree, hfree, -⟩ := KernTree.start qemu
  have hlen := qemu.length_free hfree
  have hsize : 68 ≤ qemu.npages - qemu.firstFree := by decide
  exact ⟨p₁, hrun, ⟨l, htree.free, by omega⟩,
    ⟨rfl, fun l hl => ⟨l, hl, .refl l⟩, rfl, fun _ _ => rfl, fun _ _ => rfl, rfl⟩⟩

theorem kernel_address_space_qemu :
    ∃ p₁ base p₃, memInitStart qemu.toHardware qemu.powerOn = .ret () p₁ ∧
      memInitRest qemu.toHardware p₁ = .ret base p₃ ∧ qemu.KernelSpace p₃ := by
  obtain ⟨p₁, hrun, room, test⟩ := qemu_memInitStart
  obtain ⟨base, p₃, hrest, hspace⟩ := kernel_address_space hrun room test
  exact ⟨p₁, base, p₃, hrun, hrest, hspace⟩

end Jos
