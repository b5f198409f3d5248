import Jos.Base.Bytes
import Jos.Pmap.Run

/-!
# Memory through an address space

Stores at virtual addresses, and what is read there afterwards. A page is plain for a
directory if the walk of the directory does not pass through it: what is stored there
does not move any address. Two virtual pages may be the same physical page, so a run
of stores is at most a page long; then no store of it hits another one.
-/

namespace Jos

open Prog

namespace Phys

variable {p q : Phys} {d f : Nat} {va a pde pte : Word}

/-- The page `f` is neither the directory `d` nor one of its page tables. -/
def Plain (p : Phys) (d f : Nat) : Prop :=
  f ≠ d ∧ ∀ i, p.word d i &&& pteP ≠ 0 → f ≠ pgnum (p.word d i)

/-- The kernel may store at `va`, and the page there is plain. -/
def StoreOk (p : Phys) (d : Nat) (va : Word) : Prop :=
  ∃ pde pte, p.translate d va = some (pde, pte) ∧ pde &&& pteW ≠ 0 ∧ pte &&& pteW ≠ 0 ∧
    p.Plain d (pgnum pte)

/-- The walk depends on the page only. -/
theorem translate_page {b : Word} (h : a.toNat / 4096 = b.toNat / 4096) :
    p.translate d a = p.translate d b := by
  have hpdx : pdx a = pdx b := by
    apply Fin.ext
    rw [pdx_val, pdx_val]
    omega
  have hptx : ptx a = ptx b := by
    apply Fin.ext
    rw [ptx_val, ptx_val, h]
  rw [translate, translate, hpdx, hptx]

/-- From `p` to `q` only the bytes at the offsets in `S` of plain pages have changed. -/
structure Stores (S : Nat → Prop) (d : Nat) (p q : Phys) : Prop where
  npages : q.npages = p.npages
  pages : q.pages = p.pages
  list : q.pageFreeList = p.pageFreeList
  userPages : q.userPages = p.userPages
  tables : ∀ f, ¬ p.Plain d f → q.mem f = p.mem f
  mem : ∀ f off, ¬ S off → q.mem f off = p.mem f off

namespace Stores

variable {S T : Nat → Prop}

theorem refl (S : Nat → Prop) (d : Nat) (p : Phys) : Stores S d p p :=
  ⟨rfl, rfl, rfl, rfl, fun _ _ => rfl, fun _ _ _ => rfl⟩

theorem word_dir (h : Stores S d p q) (i : Idx) : q.word d i = p.word d i :=
  p.word_congr (h.tables d fun hd => hd.1 rfl)

theorem word_table (h : Stores S d p q) {i : Idx} (hp : p.word d i &&& pteP ≠ 0) (j : Idx) :
    q.word (pgnum (p.word d i)) j = p.word (pgnum (p.word d i)) j :=
  p.word_congr (h.tables _ fun hplain => hplain.2 i hp rfl)

/-- All addresses are where they were. -/
theorem translate (h : Stores S d p q) (a : Word) : q.translate d a = p.translate d a := by
  rw [Phys.translate, Phys.translate, h.word_dir]
  dsimp only
  by_cases hp : p.word d (pdx a) &&& pteP = 0
  · rw [if_pos hp, if_pos hp]
  · rw [h.word_table hp]

theorem plain (h : Stores S d p q) : q.Plain d f ↔ p.Plain d f := by
  rw [Plain, Plain]
  simp only [h.word_dir]

theorem trans {r : Phys} (h : Stores S d p q) (h' : Stores T d q r) :
    Stores (fun off => S off ∨ T off) d p r := by
  refine ⟨h'.npages.trans h.npages, h'.pages.trans h.pages, h'.list.trans h.list,
    h'.userPages.trans h.userPages, fun f hf => ?_, fun f off hoff => ?_⟩
  · rw [h'.tables f (fun hq => hf (h.plain.mp hq)), h.tables f hf]
  · rw [not_or] at hoff
    rw [h'.mem f off hoff.2, h.mem f off hoff.1]

theorem mono (h : Stores S d p q) (sub : ∀ off, S off → T off) : Stores T d p q :=
  ⟨h.npages, h.pages, h.list, h.userPages, h.tables,
    fun f off hoff => h.mem f off fun hs => hoff (sub off hs)⟩

theorem setByte (hf : p.Plain d f) (off : Nat) (b : Byte) :
    Stores (· = off) d p (p.setByte f off b) := by
  refine ⟨rfl, rfl, rfl, rfl, fun g hg => ?_, fun g o ho => ?_⟩
  · have hne : g ≠ f := by
      rintro rfl
      exact hg hf
    exact p.mem_setPage_of_ne _ hne
  · by_cases hg : g = f
    · subst hg
      have hmem : (p.setByte g off b).mem g = Function.update (p.mem g) off b :=
        Function.update_self _ _ _
      rw [hmem, Function.update_of_ne ho]
    · rw [show (p.setByte f off b).mem g = p.mem g from p.mem_setPage_of_ne _ hg]

theorem storeOk (h : Stores S d p q) (hva : p.StoreOk d va) : q.StoreOk d va := by
  obtain ⟨pde, pte, walk, hpde, hpte, hplain⟩ := hva
  exact ⟨pde, pte, (h.translate va).trans walk, hpde, hpte, h.plain.mpr hplain⟩

theorem userAccess (h : Stores S d p q) (a : Word) (write : Bool) :
    q.userAccess d a write ↔ p.userAccess d a write := by
  rw [Phys.userAccess, Phys.userAccess, h.translate]

/-- A byte at another offset. -/
theorem byteAt (h : Stores S d p q) (ha : ¬ S (pgoff a)) : q.byteAt d a = p.byteAt d a := by
  rw [Phys.byteAt, Phys.byteAt, h.translate]
  congr 1
  funext entries
  exact h.mem _ _ ha

end Stores

theorem byteAt_setByte (walk : p.translate d va = some (pde, pte)) (hplain : p.Plain d (pgnum pte))
    (b : Byte) : (p.setByte (pgnum pte) (pgoff va) b).byteAt d va = some b := by
  rw [Phys.byteAt, (Stores.setByte hplain _ b).translate, walk, Option.map_some]
  simp [Phys.setByte, Phys.setPage]

end Phys

theorem kernelLoad_run (p : Phys) (pgdir : Nat) (va : Word) :
    kernelLoad pgdir va p =
      match p.byteAt pgdir va with
      | none => .panic .kernelFault
      | some b => .ret b p := by
  rw [kernelLoad, Phys.byteAt, get_bind]
  cases p.translate pgdir va with
  | none => rfl
  | some entries => rfl

section KernelStores

variable {p : Phys} {d : Nat} {va : Word} {bytes : List Byte}

theorem pgoff_add_ne {i j : Nat} (hij : i < j) (hj : j < i + 4096) (a : Word) :
    pgoff (a + BitVec.ofNat 32 i) ≠ pgoff (a + BitVec.ofNat 32 j) := by
  rw [pgoff_eq, pgoff_eq, BitVec.toNat_add, BitVec.toNat_add, BitVec.toNat_ofNat,
    BitVec.toNat_ofNat]
  omega

theorem kernelStore_run (h : p.StoreOk d va) (b : Byte) :
    ∃ q, kernelStore d va b p = .ret () q ∧ Phys.Stores (· = pgoff va) d p q ∧
      q.byteAt d va = some b := by
  obtain ⟨pde, pte, walk, hpde, hpte, hplain⟩ := h
  refine ⟨p.setByte (pgnum pte) (pgoff va) b, ?_, .setByte hplain _ b,
    Phys.byteAt_setByte walk hplain b⟩
  rw [kernelStore, get_bind, walk]
  dsimp only
  rw [if_neg (by rintro (hz | hz); exacts [hpde hz, hpte hz])]
  rfl

/-- A run of stores, at most a page long, can be read back. -/
theorem kernelStores_run (hlen : bytes.length ≤ 4096)
    (h : ∀ i < bytes.length, p.StoreOk d (va + BitVec.ofNat 32 i)) :
    ∃ q, kernelStores d va bytes p = .ret () q ∧
      Phys.Stores (fun off => ∃ i < bytes.length, off = pgoff (va + BitVec.ofNat 32 i)) d p q ∧
      ∀ i < bytes.length, q.byteAt d (va + BitVec.ofNat 32 i) = bytes[i]? := by
  induction bytes generalizing va p with
  | nil => exact ⟨p, rfl, .refl _ d p, fun i hi => absurd hi (Nat.not_lt_zero i)⟩
  | cons b bytes ih =>
      rw [List.length_cons] at hlen
      have hzero : va + BitVec.ofNat 32 0 = va := BitVec.add_zero va
      have hnext := add_one_add_ofNat va
      have hfirst := h 0 (by simp)
      rw [hzero] at hfirst
      obtain ⟨q, hstore, hq, hbyte⟩ := kernelStore_run hfirst b
      have hrest : ∀ i < bytes.length, q.StoreOk d (va + 1 + BitVec.ofNat 32 i) := by
        intro i hi
        rw [hnext]
        exact hq.storeOk (h (i + 1) (by simpa using hi))
      obtain ⟨r, hrun, hr, hbytes⟩ := ih (by omega) hrest
      refine ⟨r, ?_, (hq.trans hr).mono ?_, ?_⟩
      · rw [kernelStores, bind_ret _ hstore, hrun]
      · rintro off (rfl | ⟨i, hi, rfl⟩)
        · exact ⟨0, by simp, by rw [hzero]⟩
        · exact ⟨i + 1, by simpa using hi, by rw [hnext]⟩
      · intro i hi
        cases i with
        | zero =>
            rw [hzero, hr.byteAt ?_, hbyte]
            · rfl
            · -- the later bytes are at other offsets
              rintro ⟨j, hj, hoff⟩
              rw [hnext] at hoff
              refine pgoff_add_ne (Nat.succ_pos j) (by omega) va ?_
              rw [hzero, hoff]
        | succ i =>
            rw [← hnext, hbytes i (by simpa using hi), List.getElem?_cons_succ]

end KernelStores

/-! ## Words -/

namespace Phys

variable {p : Phys} {d : Nat} {va a w : Word}

/-- The word at `va`, if its bytes are mapped. -/
def wordAt (p : Phys) (d : Nat) (va : Word) : Option Word := do
  let b₀ ← p.byteAt d va
  let b₁ ← p.byteAt d (va + 1)
  let b₂ ← p.byteAt d (va + 2)
  let b₃ ← p.byteAt d (va + 3)
  pure (b₃ ++ b₂ ++ b₁ ++ b₀)

theorem wordAt_eq {b₀ b₁ b₂ b₃ : Byte} (h₀ : p.byteAt d va = some b₀)
    (h₁ : p.byteAt d (va + 1) = some b₁) (h₂ : p.byteAt d (va + 2) = some b₂)
    (h₃ : p.byteAt d (va + 3) = some b₃) : p.wordAt d va = some (b₃ ++ b₂ ++ b₁ ++ b₀) := by
  rw [wordAt, h₀, h₁, h₂, h₃]
  rfl

/-- The bytes of an aligned word are on one page. -/
theorem translate_aligned (ha : a.toNat % 4 = 0) {i : Nat} (hi : i < 4) :
    p.translate d (a + BitVec.ofNat 32 i) = p.translate d a ∧
      pgoff (a + BitVec.ofNat 32 i) = pgoff a + i := by
  have hlt := a.isLt
  have hnat : (a + BitVec.ofNat 32 i).toNat = a.toNat + i := by
    rw [BitVec.toNat_add, BitVec.toNat_ofNat]
    omega
  have hpdx : pdx (a + BitVec.ofNat 32 i) = pdx a := by
    apply Fin.ext
    rw [pdx_val, pdx_val, hnat]
    omega
  have hptx : ptx (a + BitVec.ofNat 32 i) = ptx a := by
    apply Fin.ext
    rw [ptx_val, ptx_val, hnat]
    omega
  refine ⟨?_, ?_⟩
  · rw [Phys.translate, Phys.translate, hpdx, hptx]
  · rw [pgoff_eq, pgoff_eq, hnat]
    omega

/-- An aligned word of a mapped page is a word of that page. -/
theorem wordAt_aligned (ha : a.toNat % 4 = 0) {i : Idx} {pde pte : Word}
    (walk : p.translate d a = some (pde, pte)) (hoff : pgoff a = 4 * i.val) :
    p.wordAt d a = some (p.word (pgnum pte) i) := by
  have hbyte : ∀ j < 4, p.byteAt d (a + BitVec.ofNat 32 j) =
      some (p.mem (pgnum pte) (4 * i.val + j)) := by
    intro j hj
    obtain ⟨htrans, hpg⟩ := p.translate_aligned (d := d) ha hj
    rw [Phys.byteAt, htrans, walk, hpg, hoff]
    rfl
  have h₀ := hbyte 0 (by decide)
  rw [show a + BitVec.ofNat 32 0 = a from BitVec.add_zero a] at h₀
  exact wordAt_eq h₀ (hbyte 1 (by decide)) (hbyte 2 (by decide)) (hbyte 3 (by decide))

end Phys

/-! ## The self-map -/

def uvpd : Word := uvpt + uvpt >>> 12 * 4

section Address

variable {pn : Nat}

theorem uvpt_toNat (h : pn < 1048576) :
    (uvpt + 4 * BitVec.ofNat 32 pn).toNat = 4013948928 + 4 * pn := by
  have huvpt : uvpt.toNat = 4013948928 := by decide
  have hfour : (4 : Word).toNat = 4 := rfl
  rw [BitVec.toNat_add, BitVec.toNat_mul, BitVec.toNat_ofNat, huvpt, hfour]
  omega

theorem pdx_uvpt (h : pn < 1048576) : pdx (uvpt + 4 * BitVec.ofNat 32 pn) = pdx uvpt := by
  apply Fin.ext
  have hval : (pdx uvpt).val = 957 := by decide
  rw [hval, pdx_val, uvpt_toNat h]
  omega

theorem pn_toNat (h : pn < 1048576) : (BitVec.ofNat 32 pn * 4096).toNat = pn * 4096 := by
  have hsize : (4096 : Word).toNat = 4096 := rfl
  rw [BitVec.toNat_mul, BitVec.toNat_ofNat, hsize]
  omega

/-- The directory entry for a page is at the place of a page table entry of the self-map. -/
theorem ptx_uvpt (h : pn < 1048576) :
    ptx (uvpt + 4 * BitVec.ofNat 32 pn) = pdx (BitVec.ofNat 32 pn * 4096) := by
  apply Fin.ext
  rw [ptx_val, pdx_val, uvpt_toNat h, pn_toNat h]
  omega

theorem pgoff_uvpt (h : pn < 1048576) : pgoff (uvpt + 4 * BitVec.ofNat 32 pn) =
    4 * (ptx (BitVec.ofNat 32 pn * 4096)).val := by
  rw [pgoff_eq, ptx_val, uvpt_toNat h, pn_toNat h]
  omega

theorem uvpd_eq (i : Idx) : uvpd + 4 * BitVec.ofNat 32 i =
    uvpt + 4 * BitVec.ofNat 32 (979968 + i) := by
  have hi := i.isLt
  have huvpd : uvpd.toNat = 4017868800 := by decide
  have hfour : (4 : Word).toNat = 4 := rfl
  apply BitVec.eq_of_toNat_eq
  rw [uvpt_toNat (by omega), BitVec.toNat_add, BitVec.toNat_mul, BitVec.toNat_ofNat, huvpd, hfour]
  omega

end Address

namespace Phys

variable {p : Phys} {d pn : Nat}

/-- The walk of an address in the self-map goes through the directory twice. -/
theorem translate_uvpt (hp : p.word d (pdx uvpt) &&& pteP ≠ 0)
    (hnum : pgnum (p.word d (pdx uvpt)) = d) (hpn : pn < 1048576) :
    p.translate d (uvpt + 4 * BitVec.ofNat 32 pn) =
      if p.word d (pdx (BitVec.ofNat 32 pn * 4096)) &&& pteP = 0 then none
      else some (p.word d (pdx uvpt), p.word d (pdx (BitVec.ofNat 32 pn * 4096))) := by
  rw [Phys.translate, pdx_uvpt hpn, ptx_uvpt hpn]
  dsimp only
  rw [if_neg hp, hnum]

/-- At `uvpt + 4*pn` is the page table entry for the page `pn`. -/
theorem wordAt_uvpt (hp : p.word d (pdx uvpt) &&& pteP ≠ 0)
    (hnum : pgnum (p.word d (pdx uvpt)) = d) (hpn : pn < 1048576)
    (htable : p.word d (pdx (BitVec.ofNat 32 pn * 4096)) &&& pteP ≠ 0) :
    p.wordAt d (uvpt + 4 * BitVec.ofNat 32 pn) =
      some (p.word (pgnum (p.word d (pdx (BitVec.ofNat 32 pn * 4096))))
        (ptx (BitVec.ofNat 32 pn * 4096))) := by
  have walk := translate_uvpt hp hnum hpn
  rw [if_neg htable] at walk
  refine wordAt_aligned ?_ walk (pgoff_uvpt hpn)
  rw [uvpt_toNat hpn]
  omega

end Phys

end Jos
