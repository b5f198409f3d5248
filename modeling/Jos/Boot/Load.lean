import Jos.Boot.Start

/-!
# Loading a program

`region_alloc` gives each page a frame of its own, and the bytes of a segment are then
stored through the page tables. Segments that touch different pages do not disturb each
other: after all of them are loaded, each is in memory as its header says.
-/

namespace Jos

open Prog

/-- The number of the page with entry `j` in the page table `i`. -/
def pageNumber (i j : Idx) : Nat := i.val * 1024 + j.val

theorem pgaddr_eq (i j : Idx) : (pgaddr i j).toNat = pageNumber i j * 4096 := by
  rw [pgaddr_toNat, pageNumber]
  omega

/-- The entry of an address belongs to its page. -/
theorem pageNumber_eq_iff {i j : Idx} {va : Word} :
    i = pdx va ∧ j = ptx va ↔ pageNumber i j = va.toNat / 4096 := by
  have hd := pdx_val va
  have ht := ptx_val va
  have hi := i.isLt
  have hj := j.isLt
  have hva := va.isLt
  rw [pageNumber, Fin.ext_iff, Fin.ext_iff]
  omega

theorem pageNumber_va (va : Word) : pageNumber (pdx va) (ptx va) = va.toNat / 4096 :=
  pageNumber_eq_iff.mp ⟨rfl, rfl⟩

namespace Phys

/-- The page of `e` with entry `j` in the table `i` is a frame of its own, writable. -/
def Private (dirs : EnvIdx → Option Nat) (e : EnvIdx) (i j : Idx) (p : Phys) : Prop :=
  ∃ f < 1048576, p.pteAt dirs e i j = mkPte f (pteU ||| pteW) ∧
    ∀ e' i' j', p.target dirs (.pte e' i' j') = some f → e' = e ∧ i' = i ∧ j' = j

/-- From `p` to `q` the pages of `e` with a number in `S` have been mapped, each to a frame of
its own; no other page has moved or changed. -/
structure Fills (dirs : EnvIdx → Option Nat) (e : EnvIdx) (S : Nat → Prop) (p q : Phys) : Prop where
  mapped : ∀ i j, S (pageNumber i j) → q.Private dirs e i j
  rest : ∀ e' i j, ¬ (e' = e ∧ S (pageNumber i j)) → q.pteAt dirs e' i j = p.pteAt dirs e' i j
  mem : ∀ e' i j f, ¬ (e' = e ∧ S (pageNumber i j)) → p.target dirs (.pte e' i j) = some f →
    q.mem f = p.mem f

variable {L : Layout} {dirs : EnvIdx → Option Nat} {p q : Phys} {e : EnvIdx} {d : Nat}
  {S T : Nat → Prop} {i j : Idx} {va : Word}

theorem Private.target (h : p.Private dirs e i j) : ∃ f,
    p.target dirs (.pte e i j) = some f ∧
      ∀ e' i' j', p.target dirs (.pte e' i' j') = some f → e' = e ∧ i' = i ∧ j' = j := by
  obtain ⟨f, hf, hentry, hsole⟩ := h
  refine ⟨f, ?_, hsole⟩
  rw [Phys.target, hentry, entryFrame_mkPte hf (by decide)]

theorem Private.congr (h : p.Private dirs e i j)
    (same : ∀ e i j, q.pteAt dirs e i j = p.pteAt dirs e i j) : q.Private dirs e i j := by
  obtain ⟨f, hf, hentry, hsole⟩ := h
  refine ⟨f, hf, (same e i j).trans hentry, fun e' i' j' ht => hsole e' i' j' ?_⟩
  rwa [Phys.target, same] at ht

namespace Fills

theorem target (h : Fills dirs e S p q) {e' : EnvIdx} (hout : ¬ (e' = e ∧ S (pageNumber i j))) :
    q.target dirs (.pte e' i j) = p.target dirs (.pte e' i j) := by
  rw [Phys.target, h.rest e' i j hout, Phys.target]

theorem refl (dirs : EnvIdx → Option Nat) (e : EnvIdx) (p : Phys) :
    Fills dirs e (fun _ => False) p p :=
  ⟨fun _ _ hf => hf.elim, fun _ _ _ _ => rfl, fun _ _ _ _ _ _ => rfl⟩

theorem congr (h : Fills dirs e S p q) (hst : ∀ n, S n ↔ T n) : Fills dirs e T p q := by
  rwa [show T = S from funext fun n => propext (hst n).symm]

theorem trans {r : Phys} (h : Fills dirs e S p q) (h' : Fills dirs e T q r) :
    Fills dirs e (fun n => S n ∨ T n) p r := by
  refine ⟨fun i j hn => ?_, fun e' i j hout => ?_, fun e' i j f hout hf => ?_⟩
  · by_cases hT : T (pageNumber i j)
    · exact h'.mapped i j hT
    · -- a later page has another frame
      obtain ⟨f, hf, hentry, hsole⟩ := h.mapped i j (hn.resolve_right hT)
      have hin : ¬ (e = e ∧ T (pageNumber i j)) := fun hin => hT hin.2
      have hentry' : r.pteAt dirs e i j = mkPte f (pteU ||| pteW) := (h'.rest e i j hin).trans hentry
      refine ⟨f, hf, hentry', fun e' i' j' ht => ?_⟩
      by_cases hout : e' = e ∧ T (pageNumber i' j')
      · obtain ⟨rfl, hT'⟩ := hout
        obtain ⟨g, hg, hsole'⟩ := (h'.mapped i' j' hT').target
        obtain rfl := Option.some.inj (hg.symm.trans ht)
        have hown : r.target dirs (.pte e' i j) = some g := by
          rw [Phys.target, hentry', entryFrame_mkPte hf (by decide)]
        obtain ⟨-, rfl, rfl⟩ := hsole' e' i j hown
        exact absurd hT' hT
      · exact hsole e' i' j' (by rwa [h'.target hout] at ht)
  · rw [h'.rest e' i j fun hin => hout ⟨hin.1, .inr hin.2⟩,
      h.rest e' i j fun hin => hout ⟨hin.1, .inl hin.2⟩]
  · have hout₁ : ¬ (e' = e ∧ S (pageNumber i j)) := fun hin => hout ⟨hin.1, .inl hin.2⟩
    rw [h'.mem e' i j f (fun hin => hout ⟨hin.1, .inr hin.2⟩) (by rwa [h.target hout₁]),
      h.mem e' i j f hout₁ hf]

end Fills

namespace Inv

/-- Mapping a new frame. -/
theorem mapNew (hq : q.Inv L dirs none) {f : Nat} {r : Phys} (hk : Keeps dirs p q)
    (href : q.ref f = 0) (hf : L.owned f)
    (hedit : Edits dirs q r e i j (mkPte f (pteU ||| pteW)))
    (hp : p.Inv L dirs none) : Fills dirs e (fun n => n = pageNumber i j) p r := by
  have hfresh : ∀ s, q.target dirs s ≠ some f :=
    fun s hs => hq.counts.ref_ne_zero hf hs href
  have hlt : f < 1048576 := by
    have := hq.lt_npages hf
    have := hq.npages_le
    omega
  have hidx : ∀ i' j', pageNumber i' j' = pageNumber i j → i' = i ∧ j' = j := by
    intro i' j' hn
    have hj := j.isLt
    have hj' := j'.isLt
    rw [pageNumber, pageNumber] at hn
    exact ⟨Fin.ext (by omega), Fin.ext (by omega)⟩
  have hne : ∀ e' i' j', ¬ (e' = e ∧ pageNumber i' j' = pageNumber i j) →
      ¬ (e' = e ∧ i' = i ∧ j' = j) := by
    rintro e' i' j' hout ⟨rfl, rfl, rfl⟩
    exact hout ⟨rfl, rfl⟩
  refine ⟨fun i' j' hn => ?_, fun e' i' j' hout => ?_, fun e' i' j' g hout hg => ?_⟩
  · obtain ⟨rfl, rfl⟩ := hidx i' j' hn
    refine ⟨f, hlt, hedit.pteAt_self, fun e' i'' j'' ht => ?_⟩
    by_contra hother
    rw [Phys.target, hedit.pteAt_of_ne e' i'' j'' hother] at ht
    exact hfresh (.pte e' i'' j'') ht
  · rw [hedit.pteAt_of_ne e' i' j' (hne e' i' j' hout), hk.pteAt]
  · have hlisted : ¬ p.Listed g := fun hl => hp.listed_fresh hl _ hg
    have hplain := hp.tables.unshared.page_not_structural hg
    rw [hedit.mem g (hk.unlisted g hlisted) fun hs => hplain (hk.structural g hlisted hs),
      hk.mem g hlisted hplain]

/-- `region_alloc` of `n` pages. It only fails if there are not two free pages for each: one for
the page and one for its page table. -/
theorem regionAllocFrom_spec (h : p.Inv L dirs none) (hd : dirs e = some d) (stop addr : Word)
    (hstop : stop ≤ utop) {fuel n : Nat} (hfuel : n < fuel) (ha : addr.toNat % 4096 = 0)
    (hn : stop.toNat = addr.toNat + 4096 * n) :
    wp (Jos.regionAllocFrom d stop fuel addr)
      (fun _ q => q.Inv L dirs none ∧
        Fills dirs e (fun m => addr.toNat / 4096 ≤ m ∧ m < stop.toNat / 4096) p q ∧
        ∀ r, p.FreePages (2 * n + r) → q.FreePages r)
      (fun _ _ => False) (fun _ => ¬ p.FreePages (2 * n)) p := by
  induction fuel generalizing p addr n with
  | zero => omega
  | succ fuel ih =>
      rw [Jos.regionAllocFrom]
      cases n with
      | zero =>
          have hend : ¬ addr < stop := by
            rw [BitVec.lt_def]
            omega
          rw [if_neg hend, wp_pure]
          refine ⟨h, (Fills.refl dirs e p).congr fun m => ?_, fun r hr => by simpa using hr⟩
          exact ⟨fun hf => hf.elim, fun hm => by omega⟩
      | succ n =>
          have hlt : addr < stop := by
            rw [BitVec.lt_def]
            omega
          have hutop : utop.toNat = 4005560320 := by decide
          rw [BitVec.le_def] at hstop
          have hva : addr < utop := by
            rw [BitVec.lt_def]
            omega
          have hnext : (addr + 4096).toNat = addr.toNat + 4096 := by
            rw [BitVec.toNat_add, show (4096 : Word).toNat = 4096 from rfl]
            omega
          rw [if_pos hlt, wp_bind]
          rcases MemInv.userPageAlloc_spec h false with
            ⟨hrun, hnone⟩ | ⟨f, q, hrun, hq, -, -, href, hmap, hkeeps, hfree⟩
          · rw [wp_ret hrun, wp_panic]
            intro room
            rw [show 2 * (n + 1) = 2 * n + 1 + 1 by omega] at room
            obtain ⟨g, hg⟩ := room.head
            rw [hg] at hnone
            simp at hnone
          · rw [wp_ret hrun]
            dsimp only
            rw [wp_bind]
            rcases hq.insert hd hva (by decide : (pteU ||| pteW).toNat < 4096) hmap
              (.inr (by rw [href]; decide)) with ⟨hins, hnone⟩ | ⟨q', hins, hq', hedit, hfree'⟩
            · rw [wp_ret hins, if_pos (by decide), wp_panic]
              intro room
              rw [show 2 * (n + 1) = 2 * n + 1 + 1 by omega] at room
              obtain ⟨g, hg⟩ := (hfree _ room).head
              rw [hg] at hnone
              simp at hnone
            · rw [wp_ret hins, if_neg (by decide)]
              have hfills := hq.mapNew hkeeps href hmap.owned hedit h
              have hroom : ∀ r, p.FreePages (2 * (n + 1) + r) → q'.FreePages (2 * n + r) := by
                intro r hr
                rw [show 2 * (n + 1) + r = 2 * n + r + 1 + 1 by omega] at hr
                exact hfree' _ (hfree _ hr)
              refine wp_mono (ih hq' (addr + 4096) (n := n) (by omega) (by omega) (by omega)) ?_
                (fun _ _ hf => hf) fun _ hpanic hr => hpanic (hroom 0 hr)
              rintro _ r ⟨hr, hfills', hfree''⟩
              refine ⟨hr, (hfills.trans hfills').congr fun m => ?_,
                fun r' hr' => hfree'' r' (hroom r' hr')⟩
              rw [hnext, pageNumber_va]
              omega

/-- A private page can be written. -/
theorem userAccess_of_entry (h : p.Inv L dirs none) (hd : dirs e = some d)
    (hva : va < utop) {f : Nat} (hf : f < 1048576)
    (hentry : p.pteAt dirs e (pdx va) (ptx va) = mkPte f (pteU ||| pteW)) :
    p.userAccess d va true := by
  have htarget : p.target dirs (.pte e (pdx va) (ptx va)) = some f := by
    rw [Phys.target, hentry, entryFrame_mkPte hf (by decide)]
  obtain ⟨t, ht, -⟩ := table_of_page htarget
  obtain ⟨hp, hnum, -⟩ := h.table_walk hd ht
  have hword : p.word t (ptx va) = mkPte f (pteU ||| pteW) := by
    rw [← hentry, pteAt_of_table ht]
  have hpde : p.pdeAt dirs e (pdx va) = p.word d (pdx va) :=
    pdeAt_of_dir hd ((pdx_lt_iff va).mpr hva)
  have huser := h.tables.userPde e (pdx va) (by rw [ht]; simp)
  rw [hpde] at huser
  refine ⟨p.word d (pdx va), mkPte f (pteU ||| pteW), ?_, huser.1, ?_, fun _ => ⟨huser.2, ?_⟩⟩
  · rw [translate]
    dsimp only
    rw [if_neg hp, hnum, hword, if_neg (mkPte_present _ _)]
  all_goals
    rw [mkPte_and f _ (by decide)]
    decide

/-- What is read at an address is the byte of its frame. -/
theorem byteAt_of_target (h : p.Inv L dirs none) (hd : dirs e = some d) {f : Nat}
    (hf : p.target dirs (.pte e (pdx va) (ptx va)) = some f) :
    p.byteAt d va = some (p.mem f (pgoff va)) := by
  obtain ⟨t, ht, hentry⟩ := table_of_page hf
  obtain ⟨hp, hnum, -⟩ := h.table_walk hd ht
  have hpresent : p.word t (ptx va) &&& pteP ≠ 0 ∧ pgnum (p.word t (ptx va)) = f := by
    rw [entryFrame] at hentry
    split at hentry
    · rename_i hpt
      exact ⟨hpt, Option.some.inj hentry⟩
    · simp at hentry
  rw [Phys.byteAt, translate]
  dsimp only
  rw [if_neg hp, hnum, if_neg hpresent.1, Option.map_some, hpresent.2]

end Inv

/-- From `p` to `q` the bytes from `va` on in the address space of `e` have been stored, and
no other byte of a mapped page has changed. -/
structure Wrote (dirs : EnvIdx → Option Nat) (e : EnvIdx) (va : Word) (bytes : List Byte)
    (p q : Phys) : Prop where
  read : ∀ (i : Nat) (hi : i < bytes.length), ∃ f,
    p.target dirs (.pte e (pdx (va + BitVec.ofNat 32 i)) (ptx (va + BitVec.ofNat 32 i))) = some f ∧
      q.mem f (pgoff (va + BitVec.ofNat 32 i)) = bytes[i]
  rest : ∀ e' i j f off, p.target dirs (.pte e' i j) = some f →
    (∀ m < bytes.length, ¬ (e' = e ∧ i = pdx (va + BitVec.ofNat 32 m) ∧
      j = ptx (va + BitVec.ofNat 32 m) ∧ off = pgoff (va + BitVec.ofNat 32 m))) →
    q.mem f off = p.mem f off

/-- An address is its page and its offset. -/
theorem va_ext {a b : Word} (hpdx : pdx a = pdx b) (hptx : ptx a = ptx b)
    (hoff : pgoff a = pgoff b) : a = b := by
  have hpage := pageNumber_va a
  rw [hpdx, hptx, pageNumber_va] at hpage
  rw [pgoff_eq, pgoff_eq] at hoff
  apply BitVec.eq_of_toNat_eq
  omega

/-- A store to a private page. -/
theorem Inv.kernelStore_private (h : p.Inv L dirs none) (hd : dirs e = some d) (hva : va < utop)
    (own : p.Private dirs e (pdx va) (ptx va)) (b : Byte) :
    ∃ f, p.target dirs (.pte e (pdx va) (ptx va)) = some f ∧
      kernelStore d va b p = .ret () (p.setByte f (pgoff va) b) ∧
      (p.setByte f (pgoff va) b).Inv L dirs none ∧
      ∀ e' i j, (p.setByte f (pgoff va) b).pteAt dirs e' i j = p.pteAt dirs e' i j := by
  obtain ⟨f, hlt, hentry, -⟩ := own
  have hf : p.target dirs (.pte e (pdx va) (ptx va)) = some f := by
    rw [Phys.target, hentry, entryFrame_mkPte hlt (by decide)]
  obtain ⟨pde, pte, walk, -, -, hW⟩ := h.userAccess_of_entry hd hva hlt hentry
  have hpage : pgnum pte = f := by
    have := (Inv.target_of_translate hd hva walk).symm.trans hf
    exact Option.some.inj this
  refine ⟨f, hf, ?_, h.setByte hf _ _, fun e' i j => pteAt_congr fun g hg => ?_⟩
  · rw [kernelStore, get_bind, walk]
    dsimp only
    rw [if_neg (by rintro (hz | hz); exacts [(hW rfl).1 hz, (hW rfl).2 hz]), hpage]
    rfl
  · refine p.mem_setPage_of_ne _ ?_
    rintro rfl
    exact h.tables.unshared.page_not_structural hf hg

/-- The stores of `memmove` and `memset` to private pages. -/
theorem Inv.kernelStores_private (h : p.Inv L dirs none) (hd : dirs e = some d)
    {bytes : List Byte} (fits : va.toNat + bytes.length ≤ utop.toNat)
    (own : ∀ i < bytes.length,
      p.Private dirs e (pdx (va + BitVec.ofNat 32 i)) (ptx (va + BitVec.ofNat 32 i))) :
    ∃ q, Jos.kernelStores d va bytes p = .ret () q ∧ q.Inv L dirs none ∧ q.pages = p.pages ∧
      q.pageFreeList = p.pageFreeList ∧ (∀ e i j, q.pteAt dirs e i j = p.pteAt dirs e i j) ∧
      Wrote dirs e va bytes p q := by
  induction bytes generalizing va p with
  | nil =>
      exact ⟨p, rfl, h, rfl, rfl, fun _ _ _ => rfl,
        ⟨fun i hi => absurd hi (Nat.not_lt_zero i), fun _ _ _ _ _ _ _ => rfl⟩⟩
  | cons b bytes ih =>
      have hzero : va + BitVec.ofNat 32 0 = va := BitVec.add_zero va
      have hnext := add_one_add_ofNat va
      have hutop : utop.toNat = 4005560320 := by decide
      rw [List.length_cons] at fits own
      have hva : va < utop := by
        rw [BitVec.lt_def]
        omega
      have hsucc : (va + 1).toNat = va.toNat + 1 := by
        rw [BitVec.toNat_add, show (1 : Word).toNat = 1 from rfl]
        omega
      have hown := own 0 (by omega)
      rw [hzero] at hown
      obtain ⟨f, hf, hstore, h₁, hpte⟩ := h.kernelStore_private hd hva hown b
      obtain ⟨f', hf', hsole⟩ := hown.target
      obtain rfl := Option.some.inj (hf.symm.trans hf')
      have hbyte : (p.setByte f (pgoff va) b).mem f = Function.update (p.mem f) (pgoff va) b :=
        Function.update_self _ _ _
      have htarget : ∀ e' i j, (p.setByte f (pgoff va) b).target dirs (.pte e' i j) =
          p.target dirs (.pte e' i j) := fun e' i j => by rw [Phys.target, hpte, Phys.target]
      obtain ⟨q, hrun, hq, hpages, hfree, hpte', hwrote⟩ :=
        @ih _ (va + 1) h₁ (by omega) fun i hi => by
          rw [hnext]
          exact (own (i + 1) (by omega)).congr hpte
      refine ⟨q, ?_, hq, hpages, hfree, fun e' i j => (hpte' e' i j).trans (hpte e' i j),
        ⟨fun i hi => ?_, fun e' i j g off hg hout => ?_⟩⟩
      · rw [Jos.kernelStores, bind_ret _ hstore, hrun]
      · cases i with
        | zero =>
            -- the later bytes are at other addresses
            refine ⟨f, by rwa [hzero], ?_⟩
            rw [hzero, hwrote.rest e _ _ f (pgoff va) (by rwa [htarget])]
            · rw [hbyte]
              exact Function.update_self _ _ _
            · rintro m hm ⟨-, hpdx, hptx, hoff⟩
              have heq := congrArg BitVec.toNat (va_ext hpdx hptx hoff)
              rw [BitVec.toNat_add, hsucc, BitVec.toNat_ofNat] at heq
              omega
        | succ i =>
            obtain ⟨g, hg, hread⟩ := hwrote.read i (by simpa using hi)
            rw [hnext, htarget] at hg
            rw [hnext] at hread
            exact ⟨g, hg, hread⟩
      · rw [hwrote.rest e' i j g off (by rwa [htarget])]
        · by_cases hgf : g = f
          · rw [hgf] at hg ⊢
            obtain ⟨rfl, rfl, rfl⟩ := hsole e' i j hg
            have hoff : off ≠ pgoff va := by
              rintro rfl
              exact hout 0 (by simp) (by rw [hzero]; exact ⟨rfl, rfl, rfl, rfl⟩)
            rw [hbyte, Function.update_of_ne hoff]
          · rw [show (p.setByte f (pgoff va) b).mem g = p.mem g from p.mem_setPage_of_ne _ hgf]
        · intro m hm
          rw [hnext]
          exact hout (m + 1) (by simpa using hm)

end Phys

/-! ### Segments -/

namespace Segment

/-- The first page of a segment, and the page after its last one. -/
def firstPage (ph : Segment) : Nat := ph.va.toNat / 4096

def lastPage (ph : Segment) : Nat := (ph.va.toNat + ph.memsz.toNat + 4095) / 4096

/-- The number of pages of a segment. -/
def pages (ph : Segment) : Nat := ph.lastPage - ph.firstPage

/-- What the file has fits into memory. -/
def Fits (ph : Segment) : Prop := ph.data.length ≤ ph.memsz.toNat

/-- The page with number `n` is one of the segment. -/
def Page (ph : Segment) (n : Nat) : Prop := ph.firstPage ≤ n ∧ n < ph.lastPage

/-- The segment is in memory: what the file has of it, and zeros behind. -/
def Loaded (ph : Segment) (dirs : EnvIdx → Option Nat) (e : EnvIdx) (q : Phys) : Prop :=
  ∀ i < ph.memsz.toNat, ∃ f,
    q.target dirs (.pte e (pdx (ph.va + BitVec.ofNat 32 i)) (ptx (ph.va + BitVec.ofNat 32 i))) =
      some f ∧ q.mem f (pgoff (ph.va + BitVec.ofNat 32 i)) = ph.data.getD i 0

end Segment

/-- The pages that some segment of the list covers. -/
def Covers (segments : List Segment) (n : Nat) : Prop :=
  ∃ ph ∈ segments, ph.firstPage ≤ n ∧ n < ph.lastPage

/-- No two segments touch the same page. -/
def Apart (a b : Segment) : Prop := ∀ n, a.Page n → ¬ b.Page n

section Load

variable {L : Layout} {dirs : EnvIdx → Option Nat} {p q : Phys} {e : EnvIdx} {d : Nat}
  {ph : Segment} {S : Nat → Prop}

theorem Segment.va_toNat (ph : Segment) {i : Nat} (hi : i ≤ ph.memsz.toNat) :
    (ph.va + BitVec.ofNat 32 i).toNat = ph.va.toNat + i := by
  have hbelow := ph.below
  have hstack : ustacktop.toNat = 4005552128 := by decide
  rw [BitVec.toNat_add, BitVec.toNat_ofNat]
  omega

/-- The bytes of a segment are on its pages. -/
theorem Segment.page_of_lt (ph : Segment) {i : Nat} (hi : i < ph.memsz.toNat) :
    ph.Page (pageNumber (pdx (ph.va + BitVec.ofNat 32 i)) (ptx (ph.va + BitVec.ofNat 32 i))) := by
  rw [pageNumber_va, ph.va_toNat (Nat.le_of_lt hi), Segment.Page, Segment.firstPage,
    Segment.lastPage]
  omega

/-- Other pages may be mapped without disturbing a segment. -/
theorem Segment.Loaded.fills (h : ph.Loaded dirs e p) (hm : Phys.Fills dirs e S p q)
    (apart : ∀ n, ph.Page n → ¬ S n) : ph.Loaded dirs e q := by
  intro i hi
  obtain ⟨f, hf, hbyte⟩ := h i hi
  have hout : ¬ (e = e ∧ S (pageNumber (pdx (ph.va + BitVec.ofNat 32 i))
      (ptx (ph.va + BitVec.ofNat 32 i)))) := fun hin => apart _ (ph.page_of_lt hi) hin.2
  refine ⟨f, by rwa [hm.target hout], ?_⟩
  rw [hm.mem e _ _ f hout hf]
  exact hbyte

theorem Segment.region (ph : Segment) :
    (roundup (ph.va + ph.memsz)).toNat = ph.lastPage * 4096 ∧
      (rounddown ph.va).toNat = ph.firstPage * 4096 ∧ ph.firstPage ≤ ph.lastPage ∧
      ph.lastPage * 4096 ≤ 4005548032 := by
  have hbelow := ph.below
  have hstack : ustacktop.toNat = 4005552128 := by decide
  rw [hstack, show pgsize = 4096 from rfl] at hbelow
  refine ⟨roundup_add_toNat (by omega), rounddown_toNat ph.va, ?_⟩
  rw [Segment.firstPage, Segment.lastPage]
  omega

/-- `region_alloc` for a segment. -/
theorem Segment.regionAlloc_spec (h : p.Inv L dirs none) (hd : dirs e = some d) (ph : Segment) :
    wp (regionAlloc d ph.va ph.memsz)
      (fun _ q => q.Inv L dirs none ∧ Phys.Fills dirs e ph.Page p q ∧
        ∀ r, p.FreePages (2 * ph.pages + r) → q.FreePages r)
      (fun _ _ => False) (fun _ => ¬ p.FreePages (2 * ph.pages)) p := by
  obtain ⟨hroundup, hrounddown, hle, hlast⟩ := ph.region
  have hutop : utop.toNat = 4005560320 := by decide
  refine wp_imp (h.regionAllocFrom_spec hd (roundup (ph.va + ph.memsz)) (rounddown ph.va)
    (n := ph.pages) (by rw [BitVec.le_def]; omega)
    (show ph.pages < 1048576 by rw [Segment.pages]; omega) (by omega)
    (by rw [Segment.pages]; omega)) ?_
  rintro _ q ⟨hq, hfills, hfree⟩
  refine ⟨hq, hfills.congr fun n => ?_, hfree⟩
  rw [hroundup, hrounddown, Nat.mul_div_cancel _ (by decide), Nat.mul_div_cancel _ (by decide),
    Segment.Page]

theorem loadSegment_spec (h : p.Inv L dirs none) (hd : dirs e = some d) (fits : ph.Fits) :
    wp (loadSegment d ph)
      (fun _ q => q.Inv L dirs none ∧ Phys.Fills dirs e ph.Page p q ∧ ph.Loaded dirs e q ∧
        ∀ r, p.FreePages (2 * ph.pages + r) → q.FreePages r)
      (fun _ _ => False) (fun _ => ¬ p.FreePages (2 * ph.pages)) p := by
  rw [loadSegment, if_neg (Nat.not_lt.mpr fits), wp_bind]
  apply wp_imp (Segment.regionAlloc_spec h hd ph)
  rintro _ q ⟨hq, hfills, hfree⟩
  have hlen : (ph.data ++ List.replicate (ph.memsz.toNat - ph.data.length) 0).length =
      ph.memsz.toNat := by
    rw [Segment.Fits] at fits
    rw [List.length_append, List.length_replicate]
    omega
  have hbelow := ph.below
  have hutop : utop.toNat = 4005560320 := by decide
  have hstack : ustacktop.toNat = 4005552128 := by decide
  have hfit : ph.va.toNat + (ph.data ++ List.replicate (ph.memsz.toNat - ph.data.length) 0).length ≤
      utop.toNat := by
    rw [hlen]
    omega
  obtain ⟨r, hrun, hr, hpages, hlist, hpte, hwrote⟩ := hq.kernelStores_private hd hfit
    fun i hi => hfills.mapped _ _ (ph.page_of_lt (by rwa [hlen] at hi))
  rw [wp_ret hrun]
  refine ⟨hr, ⟨fun i j hn => (hfills.mapped i j hn).congr hpte, fun e' i j hout => ?_,
    fun e' i j f hout hf => ?_⟩, fun i hi => ?_, fun n hn => (hfree n hn).congr ?_ hlist⟩
  · rw [hpte, hfills.rest e' i j hout]
  · rw [← hfills.mem e' i j f hout hf]
    funext off
    refine hwrote.rest e' i j f off (by rwa [hfills.target hout]) ?_
    rintro m hm ⟨rfl, rfl, rfl, -⟩
    exact hout ⟨rfl, ph.page_of_lt (by rwa [hlen] at hm)⟩
  · obtain ⟨f, hf, hbyte⟩ := hwrote.read i (by rwa [hlen])
    refine ⟨f, ?_, ?_⟩
    · rwa [Phys.target, hpte]
    · rw [hbyte]
      by_cases hdata : i < ph.data.length
      · rw [List.getElem_append_left hdata, List.getD_eq_getElem _ _ hdata]
      · rw [List.getElem_append_right (Nat.not_lt.mp hdata), List.getElem_replicate,
          List.getD_eq_default _ _ (Nat.not_lt.mp hdata)]
  · exact funext fun f => by rw [Phys.link, hpages, Phys.link]

/-- The loop over the segments. -/
theorem loadSegments_spec (h : p.Inv L dirs none) (hd : dirs e = some d) {segments : List Segment}
    (fits : ∀ ph ∈ segments, ph.Fits) :
    wp (loadSegments d segments)
      (fun _ q => q.Inv L dirs none ∧ Phys.Fills dirs e (Covers segments) p q ∧
        (segments.Pairwise Apart → ∀ ph ∈ segments, ph.Loaded dirs e q) ∧
        ∀ r, p.FreePages (2 * (segments.map Segment.pages).sum + r) → q.FreePages r)
      (fun _ _ => False) (fun _ => ¬ p.FreePages (2 * (segments.map Segment.pages).sum)) p := by
  induction segments generalizing p with
  | nil =>
      rw [loadSegments, wp_pure]
      refine ⟨h, (Phys.Fills.refl dirs e p).congr fun n => ?_, fun _ ph hph => ?_, fun r hr => ?_⟩
      · simp [Covers]
      · simp at hph
      · simpa using hr
  | cons ph rest ih =>
      rw [List.map_cons, List.sum_cons, loadSegments, wp_bind]
      refine wp_mono (loadSegment_spec h hd (fits ph (by simp))) ?_ (fun _ _ hf => hf)
        fun _ hpanic hr => hpanic (Phys.FreePages.mono hr (by omega))
      rintro _ q ⟨hq, hfills, hloaded, hfree⟩
      have hroom : ∀ n, p.FreePages (2 * (ph.pages + (rest.map Segment.pages).sum) + n) →
          q.FreePages (2 * (rest.map Segment.pages).sum + n) := fun n hn =>
        hfree _ (by rwa [← Nat.add_assoc, ← Nat.mul_add])
      refine wp_mono (ih hq fun ph' hph' => fits ph' (List.mem_cons_of_mem ph hph')) ?_
        (fun _ _ hf => hf) fun _ hpanic hr => hpanic (hroom 0 hr)
      rintro _ r ⟨hr, hfills', hloaded', hfree'⟩
      refine ⟨hr, (hfills.trans hfills').congr fun n => ?_, fun hapart ph' hph' => ?_,
        fun n hn => hfree' n (hroom n hn)⟩
      · simp [Covers, Segment.Page]
      · obtain ⟨hfirst, hlater⟩ := List.pairwise_cons.mp hapart
        rcases List.mem_cons.mp hph' with rfl | hph'
        · refine hloaded.fills hfills' ?_
          rintro n hn ⟨ph'', hph'', hn'⟩
          exact hfirst ph'' hph'' n hn hn'
        · exact hloaded' hlater ph' hph'

/-- The number of the page below `USTACKTOP`. -/
def stackPage : Nat := 977917

namespace Binary

/-- A program that the kernel accepts. -/
structure Loadable (b : Binary) : Prop where
  magic : b.magic = elfMagic
  fits : ∀ ph ∈ b.segments, ph.Fits

/-- The pages of the program and its stack. -/
def Uses (b : Binary) (n : Nat) : Prop := Covers b.segments n ∨ n = stackPage

/-- Enough memory for the address space of the program. -/
def needs (b : Binary) : Nat := 2 * (b.segments.map Segment.pages).sum + 3

end Binary

/-- The page of the stack is above all segments. -/
theorem Segment.page_ne_stackPage (ph : Segment) {n : Nat} (h : ph.Page n) : n ≠ stackPage := by
  obtain ⟨-, -, -, hlast⟩ := ph.region
  have hn := h.2
  rw [stackPage]
  omega

/-- `load_icode` for a program whose segments fit. -/
theorem loadIcode_spec {k : Kernel} {b : Binary} (h : MemInv L k) (hd : k.dirs e = some d)
    (loadable : b.Loadable) :
    wp (loadIcode e b)
      (fun _ k' => ∃ q, k' = { k.setTf e { (k.envs e).tf with eip := b.entry } with phys := q } ∧
        q.Inv L k.dirs none ∧ Phys.Fills k.dirs e b.Uses k.phys q ∧
        (b.segments.Pairwise Apart → ∀ ph ∈ b.segments, ph.Loaded k.dirs e q) ∧
        ∀ r, k.phys.FreePages (2 * ((b.segments.map Segment.pages).sum + 1) + r) →
          q.FreePages r)
      (fun _ _ => False)
      (fun _ => ¬ k.phys.FreePages (2 * ((b.segments.map Segment.pages).sum + 1))) k := by
  have hpg : (k.envs e).pgdir = some d := hd
  have hlow : (rounddown (ustacktop - 4096)).toNat / 4096 = stackPage := by decide
  have hhigh : (roundup (ustacktop - 4096 + 4096)).toNat / 4096 = stackPage + 1 := by decide
  rw [loadIcode, if_neg (not_not.mpr loadable.magic), wp_bind, paddrPgdir, wp_bind, wp_get, hpg]
  simp only [wp_pure, wp_bind, pmap, wp_zoom, wp_modify]
  refine wp_mono (loadSegments_spec h.phys hd loadable.fits) ?_ (fun r => r.elim)
    fun _ hpanic hr => hpanic (Phys.FreePages.mono hr (by omega))
  rintro _ q ⟨hq, hfills, hloaded, hfree⟩
  have hroom : ∀ r, k.phys.FreePages (2 * ((b.segments.map Segment.pages).sum + 1) + r) →
      q.FreePages (2 * 1 + r) := fun r hr =>
    hfree _ (by rwa [← Nat.add_assoc, ← Nat.mul_add])
  refine wp_mono (hq.regionAllocFrom_spec hd (roundup (ustacktop - 4096 + 4096))
    (rounddown (ustacktop - 4096)) (n := 1) (by decide) (show 1 < 1048576 by decide) (by decide)
    (by decide)) ?_ (fun r => r.elim) fun _ hpanic hr => hpanic (hroom 0 hr)
  rintro _ r ⟨hr, hstack, hfree'⟩
  rw [hlow, hhigh] at hstack
  refine ⟨r, rfl, hr, (hfills.trans hstack).congr fun n => ?_, fun hapart ph hph => ?_,
    fun n hn => hfree' n (hroom n hn)⟩
  · rw [Binary.Uses]
    exact or_congr Iff.rfl (by omega)
  · refine (hloaded hapart ph hph).fills hstack ?_
    rintro n hn ⟨hle, hlt⟩
    exact ph.page_ne_stackPage hn (by omega)

end Load

end Jos
