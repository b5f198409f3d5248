import Jos.Boot.KernelMap
import Jos.Pmap.UserMem

/-!
# Device memory (`mmio_map_region`)

`mmio_map_region` and `boot_map_region` with the 32-bit sizes of the source. The limit is
compared with a sum that may wrap, and `boot_map_region` counts down in an `int`. A call is
right if its region lies between `MMIOBASE` and `MMIOLIM`, was not reserved before, is
mapped, and nothing else has moved.
-/

namespace Jos

open Prog

/-- The loop of `boot_map_region`, for at most `n` rounds; `i` is an `int`. -/
def bootMapLoop (pgdir : Nat) (perm : Word) : Nat → Word → Word → Word → Pmap Unit
  | 0, _, _, _ => pure ()
  | n + 1, i, va, pa =>
      if (0#32).slt i then do
        match ← pgdirWalk pgdir va true with
        | none => pure ()
        | some pte => do
            pte.store (pa ||| perm ||| pteP)
            bootMapLoop pgdir perm n (i - 4096) (va + 4096) (pa + 4096)
      else pure ()

/-- `boot_map_region` with its `size`: an `int` is used up after 2^19 rounds. -/
def bootMapRegionSize (pgdir : Nat) (va size pa perm : Word) : Pmap Unit :=
  bootMapLoop pgdir perm 524288 size va pa

def mmioPerm : Word := pteW ||| ptePcd ||| ptePwt

/-- `mmio_map_region` with its `size`; the result is the region and the next `base`. -/
def mmioMapRegionSize (pgdir : Nat) (base pa size : Word) : Pmap (Word × Word) :=
  if base + roundup size > mmiolim then panic .mmioLimit
  else do
    bootMapRegionSize pgdir base (roundup size) pa mmioPerm
    pure (base, base + roundup size)

/-- What a successful call has handed out. -/
structure Reservation where
  base : Word
  size : Word

/-- The call leaves `q` and returns the address `ret`, after the reservations `l`. -/
structure MmioRight (d : Nat) (l : List Reservation) (pa size : Word) (p : Phys) (ret : Word)
    (q : Phys) : Prop where
  aligned : pgoff ret = 0
  inside : mmiobase.toNat ≤ ret.toNat ∧ ret.toNat + size.toNat ≤ mmiolim.toNat
  disjoint : ∀ r ∈ l, r.base.toNat + r.size.toNat ≤ ret.toNat ∨
    ret.toNat + size.toNat ≤ r.base.toNat
  mapped : ∀ off < size.toNat, ∃ pde, q.translate d (ret + BitVec.ofNat 32 off) =
    some (pde, rounddown (pa + BitVec.ofNat 32 off) ||| mmioPerm ||| pteP)
  /-- Only the pages of the region have moved. -/
  frame : ∀ va, (∀ off < size.toNat, rounddown va ≠ rounddown (ret + BitVec.ofNat 32 off)) →
    q.translate d va = p.translate d va

/-- The call panics or is right. -/
def MmioSound (d : Nat) (l : List Reservation) (base pa size : Word) (p : Phys) : Prop :=
  (∃ e, mmioMapRegionSize d base pa size p = .panic e) ∨
    ∃ ret next q, mmioMapRegionSize d base pa size p = .ret (ret, next) q ∧
      MmioRight d l pa size p ret q

/-- The size of the region in whole pages, which may be 2^32. -/
def wholePages (size : Word) : Nat := (size.toNat + 4095) / 4096 * 4096

/-- The end of the region does not wrap, and if the region fits, its page table exists. -/
def MmioFits (d : Nat) (base size : Word) (p : Phys) : Prop :=
  base.toNat + wholePages size < 4294967296 ∧
    (size ≠ 0 → base.toNat + wholePages size ≤ mmiolim.toNat →
      p.word d (pdx mmiobase) &&& pteP ≠ 0)

/-- The runs of calls that all fit; the kernel may do anything in between that keeps its
directory in order. -/
inductive MmioRun (d : Nat) : List Reservation → Word → Phys → Prop
  | start {l : List Nat} {p : Phys} (sane : KernDir d l p) : MmioRun d [] mmiobase p
  | call {rs : List Reservation} {base pa size ret next : Word} {p q : Phys}
      (before : MmioRun d rs base p) (aligned : pgoff pa = 0) (fits : MmioFits d base size p)
      (run : mmioMapRegionSize d base pa size p = .ret (ret, next) q) :
      MmioRun d (⟨ret, size⟩ :: rs) next q
  | other {rs : List Reservation} {base : Word} {p q : Phys} {l : List Nat}
      (before : MmioRun d rs base p) (sane : KernDir d l q) : MmioRun d rs base q

section Sizes

variable {i size : Word}

theorem slt_zero_iff : (0#32).slt i = true ↔ 0 < i.toNat ∧ i.toNat < 2147483648 := by
  have hlt := i.isLt
  rw [BitVec.slt, decide_eq_true_eq, BitVec.toInt_eq_toNat_cond, BitVec.toInt_eq_toNat_cond]
  simp only [BitVec.toNat_ofNat]
  split <;> omega

theorem roundup_of_fits (h : wholePages size < 4294967296) :
    (roundup size).toNat = wholePages size := by
  rw [wholePages] at h ⊢
  have hsum : (size + 4096#32 - 1#32).toNat = size.toNat + 4095 := by
    rw [BitVec.toNat_sub, BitVec.toNat_add]
    simp only [BitVec.toNat_ofNat]
    omega
  rw [roundup, rounddown_toNat, hsum]

/-- The last page of sizes rounds to nothing. -/
theorem roundup_of_not_fits (h : 4294967296 ≤ wholePages size) : roundup size = 0 := by
  rw [wholePages] at h
  have hlt := size.isLt
  have hsum : (size + 4096#32 - 1#32).toNat = size.toNat + 4095 - 4294967296 := by
    rw [BitVec.toNat_sub, BitVec.toNat_add]
    simp only [BitVec.toNat_ofNat]
    omega
  apply BitVec.eq_of_toNat_eq
  rw [roundup, rounddown_toNat, hsum, show (0 : Word).toNat = 0 from rfl]
  omega

theorem wholePages_le (size : Word) :
    size.toNat ≤ wholePages size ∧ wholePages size < size.toNat + 4096 ∧
      wholePages size % 4096 = 0 := by
  rw [wholePages]
  omega

end Sizes

section Loop

variable {d n k : Nat} {perm i va pa : Word} {p : Phys}

/-- Sizes below 2 GB are counted in pages. -/
theorem bootMapLoop_eq (hi : i.toNat = 4096 * k) (hk : k < 524288) (hn : k ≤ n) :
    bootMapLoop d perm n i va pa = bootMapRegion d perm k va pa := by
  induction n generalizing k i va pa with
  | zero =>
      obtain rfl : k = 0 := by omega
      rfl
  | succ n ih =>
      rw [bootMapLoop]
      cases k with
      | zero =>
          rw [if_neg (by rw [slt_zero_iff]; omega)]
          rfl
      | succ k =>
          have hnext : (i - 4096).toNat = 4096 * k := by
            rw [BitVec.toNat_sub, show (4096 : Word).toNat = 4096 from rfl]
            omega
          rw [if_pos (slt_zero_iff.mpr (by omega)), bootMapRegion]
          refine congrArg (pgdirWalk d va true >>= ·) (funext fun r => ?_)
          cases r with
          | none => rfl
          | some pte =>
              exact congrArg (pte.store (pa ||| perm ||| pteP) >>= ·)
                (funext fun _ => ih hnext (by omega) (by omega))

/-- From 2 GB on the `int` is negative, and nothing is mapped. -/
theorem bootMapLoop_negative (hi : 2147483648 ≤ i.toNat) :
    bootMapLoop d perm n i va pa = pure () := by
  cases n with
  | zero => rfl
  | succ n => rw [bootMapLoop, if_neg (by rw [slt_zero_iff]; omega)]

/-- `boot_map_region` away from the self-map always returns, and no page table is replaced. -/
theorem KernDir.bootMapRegion {l : List Nat} (h : KernDir d l p) (perm pa : Word)
    (hva : ∀ j < k, pdx (va + BitVec.ofNat 32 (4096 * j)) ≠ pdx uvpt) :
    ∃ q l', Jos.bootMapRegion d perm k va pa p = .ret () q ∧ KernDir d l' q ∧
      (∀ j, p.word d j &&& pteP ≠ 0 → q.word d j = p.word d j) ∧
      (0 < k → l ≠ [] → q.word d (pdx va) &&& pteP ≠ 0) ∧
      (l = [] → p.word d (pdx va) &&& pteP = 0 → q = p) := by
  induction k generalizing va pa p l with
  | zero => exact ⟨p, l, rfl, h, fun _ _ => rfl, fun hz => absurd hz (Nat.lt_irrefl 0),
      fun _ _ => rfl⟩
  | succ k ih =>
      have hfirst : pdx va ≠ pdx uvpt := by
        have := hva 0 (Nat.succ_pos k)
        rwa [Nat.mul_zero, show va + BitVec.ofNat 32 0 = va from BitVec.add_zero va] at this
      have hnext : ∀ j < k, pdx (va + 4096 + BitVec.ofNat 32 (4096 * j)) ≠ pdx uvpt := by
        intro j hj
        have := hva (j + 1) (by omega)
        rwa [Nat.mul_succ, Nat.add_comm, BitVec.ofNat_add, ← BitVec.add_assoc] at this
      rw [Jos.bootMapRegion]
      rcases h.walk hfirst with ⟨hnone, rfl, habsent⟩ | ⟨q, l', hsome, hq, hpresent, hsame⟩
      · rw [bind_ret _ hnone]
        exact ⟨p, [], rfl, h, fun _ _ => rfl, fun _ hne => absurd rfl hne, fun _ _ => rfl⟩
      · rw [bind_ret _ hsome]
        dsimp only
        have hstore := hq.setWord hfirst hpresent (ptx va) (pa ||| perm ||| pteP)
        have hword : ∀ j, (q.setWord (pgnum (q.word d (pdx va))) (ptx va)
            (pa ||| perm ||| pteP)).word d j = q.word d j := fun j =>
          q.word_congr (q.mem_setWord_of_ne _ (hq.table _ hfirst hpresent).2.1.symm)
        obtain ⟨r, l'', hrun, hr, hkept, -, -⟩ := ih hstore (pa + 4096) hnext
        have hold : ∀ j, p.word d j &&& pteP ≠ 0 → r.word d j = p.word d j := by
          intro j hj
          rw [hkept j (by rw [hword, hsame j hj]; exact hj), hword, hsame j hj]
        refine ⟨r, l'', ?_, hr, hold, fun _ _ => ?_, fun hnil habsent => ?_⟩
        · exact (bind_ret _ rfl).trans hrun
        · rw [hkept _ (by rw [hword]; exact hpresent), hword]
          exact hpresent
        · subst hnil
          rcases h.free.head_cases with ⟨hhead, -⟩ | ⟨f, r, -, hcons, -⟩
          · rw [pgdirWalk_noMem habsent hhead] at hsome
            simp at hsome
          · simp at hcons

/-- The pages of one page table that exists. -/
theorem bootMapRegion_table (perm pa : Word) {x : Idx} (hp : p.word d x &&& pteP ≠ 0)
    (hlt : pgnum (p.word d x) < p.npages) (hne : pgnum (p.word d x) ≠ d)
    (hva : ∀ j < k, pdx (va + BitVec.ofNat 32 (4096 * j)) = x) (hk : k ≤ 1024) :
    ∃ q, bootMapRegion d perm k va pa p = .ret () q ∧
      (∀ g, g ≠ pgnum (p.word d x) → q.mem g = p.mem g) ∧
      (∀ j < k, q.word (pgnum (p.word d x)) (ptx (va + BitVec.ofNat 32 (4096 * j))) =
        (pa + BitVec.ofNat 32 (4096 * j)) ||| perm ||| pteP) ∧
      ∀ y, (∀ j < k, y ≠ ptx (va + BitVec.ofNat 32 (4096 * j))) →
        q.word (pgnum (p.word d x)) y = p.word (pgnum (p.word d x)) y := by
  induction k generalizing va pa p with
  | zero => exact ⟨p, rfl, fun _ _ => rfl, fun j hj => absurd hj (Nat.not_lt_zero j),
      fun _ _ => rfl⟩
  | succ k ih =>
      have hzero : ∀ a : Word, a + BitVec.ofNat 32 (4096 * 0) = a := fun a => BitVec.add_zero a
      have hsucc : ∀ (a : Word) (j : Nat),
          a + BitVec.ofNat 32 (4096 * (j + 1)) = a + 4096 + BitVec.ofNat 32 (4096 * j) := by
        intro a j
        rw [Nat.mul_succ, Nat.add_comm, BitVec.ofNat_add, ← BitVec.add_assoc]
        rfl
      have hfirst : pdx va = x := by
        rw [← hva 0 (Nat.succ_pos k), hzero]
      let q := p.setWord (pgnum (p.word d x)) (ptx va) (pa ||| perm ||| pteP)
      have hword : ∀ j, q.word d j = p.word d j := fun j =>
        p.word_congr (p.mem_setWord_of_ne _ hne.symm)
      obtain ⟨r, hrun, hmem, hin, hout⟩ := @ih (va + 4096) q (pa + 4096) (by rw [hword]; exact hp)
        (by rw [hword]; exact hlt) (by rw [hword]; exact hne)
        (fun j hj => by rw [← hsucc]; exact hva (j + 1) (by omega)) (by omega)
      rw [hword] at hmem hin hout
      -- the later pages have other entries
      have hother : ∀ j < k, ptx va ≠ ptx (va + 4096 + BitVec.ofNat 32 (4096 * j)) := by
        intro j hj heq
        have hval := congrArg Fin.val heq
        rw [ptx_val, ptx_val, BitVec.toNat_add, BitVec.toNat_add, BitVec.toNat_ofNat,
          show (4096 : Word).toNat = 4096 from rfl] at hval
        omega
      refine ⟨r, ?_, fun g hg => ?_, fun j hj => ?_, fun y hy => ?_⟩
      · have hwalk : pgdirWalk d va true p = .ret (some ⟨pgnum (p.word d x), ptx va⟩) p := by
          rw [pgdirWalk_found (by rw [hfirst]; exact hp) (by rw [hfirst]; exact hlt), hfirst]
        rw [bootMapRegion, bind_ret _ hwalk]
        exact (bind_ret _ rfl).trans hrun
      · exact (hmem g hg).trans (p.mem_setWord_of_ne _ hg)
      · cases j with
        | zero =>
            rw [hzero, hzero, hout _ hother]
            exact p.word_setWord_self _
        | succ j =>
            rw [hsucc, hsucc]
            exact hin j (by omega)
      · have hy₀ : y ≠ ptx va := by
          have := hy 0 (Nat.succ_pos k)
          rwa [hzero] at this
        rw [hout y fun j hj => by rw [← hsucc]; exact hy (j + 1) (by omega)]
        exact p.word_setWord_of_ne _ hy₀

end Loop

section Region

variable {d : Nat} {l : List Nat} {rs : List Reservation} {base pa size : Word} {p q : Phys}

/-- Where the next region may start. -/
structure NextBase (rs : List Reservation) (base : Word) : Prop where
  aligned : base.toNat % 4096 = 0
  low : mmiobase.toNat ≤ base.toNat
  high : base.toNat ≤ mmiolim.toNat
  above : ∀ r ∈ rs, r.base.toNat + r.size.toNat ≤ base.toNat

theorem mmiobase_toNat : mmiobase.toNat = 4018143232 := by decide

theorem mmiolim_toNat : mmiolim.toNat = 4022337536 := by decide

theorem pdx_mmiobase_val : (pdx mmiobase).val = 958 := by decide

theorem pdx_uvpt_val : (pdx uvpt).val = 957 := by decide

theorem add_roundup (fits : base.toNat + wholePages size < 4294967296) :
    (base + roundup size).toNat = base.toNat + wholePages size := by
  rw [BitVec.toNat_add, roundup_of_fits (by omega)]
  omega

/-- A region below the limit is mapped in whole pages. -/
theorem mmioMapRegion_below (next : NextBase rs base)
    (below : base.toNat + wholePages size ≤ mmiolim.toNat) :
    mmioMapRegionSize d base pa size = (do
      bootMapRegion d mmioPerm (wholePages size / 4096) base pa
      pure (base, base + roundup size)) := by
  have hlim := mmiolim_toNat
  have hlow := next.low
  have hbase := mmiobase_toNat
  have hpages := (wholePages_le size).2.2
  have hsum : (base + roundup size).toNat = base.toNat + wholePages size := add_roundup (by omega)
  have hsize : (roundup size).toNat = wholePages size := roundup_of_fits (by omega)
  rw [mmioMapRegionSize, if_neg (by rw [gt_iff_lt, BitVec.lt_def]; omega), bootMapRegionSize,
    bootMapLoop_eq (k := wholePages size / 4096) (by omega) (by omega) (by omega)]

/-- The addresses of such a region have one page table. -/
theorem NextBase.table (next : NextBase rs base)
    (below : base.toNat + wholePages size ≤ mmiolim.toNat) (off : Nat)
    (hoff : off < wholePages size) :
    (base + BitVec.ofNat 32 off).toNat = base.toNat + off ∧
      pdx (base + BitVec.ofNat 32 off) = pdx mmiobase := by
  have hlim := mmiolim_toNat
  have hlow := next.low
  have hbase := mmiobase_toNat
  have hnat : (base + BitVec.ofNat 32 off).toNat = base.toNat + off := by
    rw [BitVec.toNat_add, BitVec.toNat_ofNat]
    omega
  refine ⟨hnat, Fin.ext ?_⟩
  rw [pdx_mmiobase_val, pdx_val, hnat]
  omega

theorem or_present (w : Word) : (w ||| pteP) &&& pteP ≠ 0 := by
  rw [BitVec.and_or_distrib_right]
  intro h
  have := (BitVec.or_eq_zero_iff.mp h).2
  exact absurd this (by decide)

/-- A region below the limit whose page table exists is mapped as asked for. -/
theorem KernDir.mmio_right (h : KernDir d l p) (next : NextBase rs base) (hpa : pgoff pa = 0)
    (below : base.toNat + wholePages size ≤ mmiolim.toNat)
    (htable : p.word d (pdx mmiobase) &&& pteP ≠ 0) :
    ∃ q, mmioMapRegionSize d base pa size p = .ret (base, base + roundup size) q ∧
      MmioRight d rs pa size p base q := by
  obtain ⟨hsize, hsize', hpages⟩ := wholePages_le size
  have haligned := next.aligned
  have hlim := mmiolim_toNat
  have hlow := next.low
  have hbase := mmiobase_toNat
  have huvpt : pdx mmiobase ≠ pdx uvpt := by decide
  obtain ⟨hlt, hne, -⟩ := h.table _ huvpt htable
  have hpdx : ∀ j < wholePages size / 4096,
      pdx (base + BitVec.ofNat 32 (4096 * j)) = pdx mmiobase := fun j hj =>
    (next.table below _ (by omega)).2
  obtain ⟨q, hrun, hmem, hin, hout⟩ :=
    bootMapRegion_table mmioPerm pa htable hlt hne hpdx (by omega)
  have hword : ∀ j, q.word d j = p.word d j := fun j => p.word_congr (hmem d hne.symm)
  refine ⟨q, ?_, ?_, ⟨hlow, by omega⟩, fun r hr => .inl (next.above r hr), fun off hoff => ?_,
    fun va hva => ?_⟩
  · rw [mmioMapRegion_below next below]
    exact bind_ret _ hrun
  · rw [pgoff_eq, haligned]
  · obtain ⟨hnat, hdir⟩ := next.table below off (by omega)
    obtain ⟨hnat', -⟩ := next.table below (4096 * (off / 4096)) (by omega)
    have hptx : ptx (base + BitVec.ofNat 32 off) =
        ptx (base + BitVec.ofNat 32 (4096 * (off / 4096))) := by
      apply Fin.ext
      rw [ptx_val, ptx_val, hnat, hnat']
      omega
    have hpage : rounddown (pa + BitVec.ofNat 32 off) =
        pa + BitVec.ofNat 32 (4096 * (off / 4096)) := by
      rw [pgoff_eq] at hpa
      apply BitVec.eq_of_toNat_eq
      rw [rounddown_toNat, BitVec.toNat_add, BitVec.toNat_add, BitVec.toNat_ofNat,
        BitVec.toNat_ofNat]
      omega
    refine ⟨p.word d (pdx mmiobase), ?_⟩
    rw [Phys.translate]
    dsimp only
    rw [hdir, hword, if_neg htable, hptx, hin _ (by omega), if_neg (or_present _), hpage]
  · rw [Phys.translate, Phys.translate]
    dsimp only
    rw [hword]
    by_cases hp : p.word d (pdx va) &&& pteP = 0
    · rw [if_pos hp, if_pos hp]
    · by_cases hdir : pdx va = pdx mmiobase
      · -- another entry of the same page table
        rw [hdir, hout]
        intro j hj heq
        obtain ⟨hnat, hpdx'⟩ := next.table below (4096 * j) (by omega)
        refine hva (4096 * j) (by omega) (BitVec.eq_of_toNat_eq ?_)
        have hv := congrArg Fin.val heq
        have hd := congrArg Fin.val (hdir.trans hpdx'.symm)
        rw [ptx_val, ptx_val] at hv
        rw [pdx_val, pdx_val] at hd
        rw [rounddown_toNat, rounddown_toNat]
        omega
      · -- another page table
        have hother : pgnum (p.word d (pdx va)) ≠ pgnum (p.word d (pdx mmiobase)) := by
          by_cases hself : pdx va = pdx uvpt
          · have hnum : pgnum (p.word d (pdx uvpt)) = d := by
              have hdlt := h.dir_lt
              have hnpages := h.npages_le
              rw [h.self]
              exact pgnum_mkPte (by omega) (by decide)
            rw [hself, hnum]
            exact hne.symm
          · exact fun heq => hdir (h.distinct _ _ hself huvpt hp htable heq)
        rw [q.word_congr rfl, p.word_congr (hmem _ hother)]

/-- The call when the end of the region wraps: it returns all the same, and the region is
not below the limit. -/
theorem KernDir.mmio_wraps (h : KernDir d l p) (next : NextBase rs base)
    (wraps : 4294967296 ≤ base.toNat + wholePages size) : ¬ MmioSound d rs base pa size p := by
  obtain ⟨hsize, hsize', hpages⟩ := wholePages_le size
  have hlim := mmiolim_toNat
  have hlow := next.low
  have hhigh := next.high
  have haligned := next.aligned
  have hbase := mmiobase_toNat
  have hlt := size.isLt
  -- the wrapped sum passes the test
  have hpass : ¬ base + roundup size > mmiolim := by
    rw [gt_iff_lt, BitVec.lt_def, BitVec.toNat_add]
    by_cases hfits : wholePages size < 4294967296
    · rw [roundup_of_fits hfits]
      omega
    · rw [roundup_of_not_fits (by omega), show (0 : Word).toNat = 0 from rfl]
      omega
  have hreturns : ∃ q, bootMapRegionSize d base (roundup size) pa mmioPerm p = .ret () q := by
    by_cases hneg : 2147483648 ≤ (roundup size).toNat
    · exact ⟨p, congrFun (bootMapLoop_negative hneg) p⟩
    · have hmult := roundup_toNat_mod size
      rw [bootMapRegionSize, bootMapLoop_eq (k := (roundup size).toNat / 4096) (by omega)
        (by omega) (by omega)]
      have hpdx : ∀ j < (roundup size).toNat / 4096,
          pdx (base + BitVec.ofNat 32 (4096 * j)) ≠ pdx uvpt := by
        intro j hj heq
        have hval := congrArg Fin.val heq
        rw [pdx_uvpt_val, pdx_val, BitVec.toNat_add, BitVec.toNat_ofNat] at hval
        omega
      obtain ⟨q, l', hrun, -⟩ := h.bootMapRegion mmioPerm pa hpdx
      exact ⟨q, hrun⟩
  obtain ⟨q, hmap⟩ := hreturns
  have hrun : mmioMapRegionSize d base pa size p = .ret (base, base + roundup size) q := by
    rw [mmioMapRegionSize, if_neg hpass, bind_ret _ hmap]
    rfl
  rintro (⟨e, hpanic⟩ | ⟨ret, next', q', hret, right⟩)
  · exact absurd (hrun.symm.trans hpanic) (by simp)
  · obtain ⟨heq, -⟩ := Outcome.ret.inj (hrun.symm.trans hret)
    obtain ⟨rfl, -⟩ := Prod.mk.inj heq
    have := right.inside.2
    omega

/-- The call when the page table does not exist: without memory nothing is mapped, and a
new table shows up in the self-map. -/
theorem KernDir.mmio_noTable (h : KernDir d l p) (next : NextBase rs base) (hpos : size ≠ 0)
    (below : base.toNat + wholePages size ≤ mmiolim.toNat)
    (habsent : p.word d (pdx mmiobase) &&& pteP = 0) : ¬ MmioSound d rs base pa size p := by
  obtain ⟨hsize, hsize', hpages⟩ := wholePages_le size
  have hsize₀ : size.toNat ≠ 0 := fun hz => hpos (BitVec.eq_of_toNat_eq hz)
  have huvpt : pdx mmiobase ≠ pdx uvpt := by decide
  have hzero : base + BitVec.ofNat 32 0 = base := BitVec.add_zero base
  have hfirst : pdx base = pdx mmiobase := by
    rw [← hzero]
    exact (next.table below _ (by omega)).2
  have hpdx : ∀ j < wholePages size / 4096,
      pdx (base + BitVec.ofNat 32 (4096 * j)) ≠ pdx uvpt := fun j hj => by
    rw [(next.table below _ (by omega)).2]
    exact huvpt
  obtain ⟨q, l', hmap, -, hkept, hgrown, hnone⟩ := h.bootMapRegion mmioPerm pa hpdx
  have hrun : mmioMapRegionSize d base pa size p = .ret (base, base + roundup size) q := by
    rw [mmioMapRegion_below next below]
    exact bind_ret _ hmap
  rintro (⟨e, hpanic⟩ | ⟨ret, next', q', hret, right⟩)
  · exact absurd (hrun.symm.trans hpanic) (by simp)
  obtain ⟨heq, rfl⟩ := Outcome.ret.inj (hrun.symm.trans hret)
  obtain ⟨rfl, -⟩ := Prod.mk.inj heq
  by_cases hnil : l = []
  · obtain rfl := hnone hnil (by rw [hfirst]; exact habsent)
    obtain ⟨pde, hmapped⟩ := right.mapped 0 (by omega)
    rw [hzero, Phys.translate_of_no_table (by rw [hfirst]; exact habsent)] at hmapped
    simp at hmapped
  · have hnew := hgrown (by omega) hnil
    rw [hfirst] at hnew
    -- the address at which the self-map shows the page table
    let va : Word := uvpt + 0x3BE000
    have hva : pdx va = pdx uvpt ∧ ptx va = pdx mmiobase ∧ (rounddown va).toNat = 4017872896 := by
      decide
    have hself : p.word d (pdx uvpt) &&& pteP ≠ 0 ∧ pgnum (p.word d (pdx uvpt)) = d := by
      have hdlt := h.dir_lt
      have hnpages := h.npages_le
      rw [h.self]
      exact ⟨mkPte_present _ _, pgnum_mkPte (by omega) (by decide)⟩
    have hsame := right.frame va fun off hoff heq => by
      obtain ⟨hnat, -⟩ := next.table below off (by omega)
      have hlow := next.low
      have hbase := mmiobase_toNat
      have hval := congrArg BitVec.toNat heq
      rw [hva.2.2, rounddown_toNat, hnat] at hval
      omega
    rw [Phys.translate, Phys.translate] at hsame
    dsimp only at hsame
    rw [hva.1, hva.2.1, hkept _ hself.1, if_neg hself.1, if_neg hself.1, hself.2, if_neg hnew,
      if_pos habsent] at hsame
    simp at hsame

/-- Otherwise the call that makes the page table is right, too: relative to a state `p₁` in
which nothing but the self-map's entry for the new table has moved. -/
theorem KernDir.mmio_creates {f : Nat} (h : KernDir d (f :: l) p) (next : NextBase rs base)
    (hpa : pgoff pa = 0) (hpos : size ≠ 0)
    (below : base.toNat + wholePages size ≤ mmiolim.toNat)
    (habsent : p.word d (pdx mmiobase) &&& pteP = 0) :
    ∃ q p₁, mmioMapRegionSize d base pa size p = .ret (base, base + roundup size) q ∧
      MmioRight d rs pa size p₁ base q ∧
      ∀ va, ¬ (pdx va = pdx uvpt ∧ ptx va = pdx mmiobase) →
        p₁.translate d va = p.translate d va := by
  obtain ⟨hsize, hsize', hpages⟩ := wholePages_le size
  have hsize₀ : size.toNat ≠ 0 := fun hz => hpos (BitVec.eq_of_toNat_eq hz)
  have huvpt : pdx mmiobase ≠ pdx uvpt := by decide
  obtain ⟨hflt, hfd⟩ := h.listed f (by simp)
  have hnpages := h.npages_le
  obtain ⟨hpresent, hnum⟩ := tablePde_spec (f := f) (by omega)
  have hhead : p.pageFreeList = some f := h.free.head_eq
  have hfirst : pdx base = pdx mmiobase := by
    rw [← show base + BitVec.ofNat 32 0 = base from BitVec.add_zero base]
    exact (next.table below _ (by omega)).2
  let p₁ := p.growTable d f (pdx mmiobase)
  have hself : p₁.word d (pdx mmiobase) = page2pa f ||| pteP ||| pteW ||| pteU :=
    p.growTable_word_self d f _
  have hword : ∀ j, j ≠ pdx mmiobase → p₁.word d j = p.word d j := fun j hj =>
    p.growTable_word hfd.symm hj
  have h₁ : KernDir d l p₁ := h.grow huvpt habsent
  -- the walk in `p` leaves `p₁`, and the walk in `p₁` finds the same entry
  have hwalk : pgdirWalk d base true p = .ret (some ⟨f, ptx base⟩) p₁ := by
    rw [pgdirWalk_create (by rw [hfirst]; exact habsent) hhead hflt hnpages, hfirst]
  have hwalk₁ : pgdirWalk d base true p₁ = .ret (some ⟨f, ptx base⟩) p₁ := by
    rw [pgdirWalk_found (by rw [hfirst, hself]; exact hpresent)
      (by rw [hfirst, hself, hnum]; exact hflt), hfirst, hself, hnum]
  obtain ⟨q, hrun, right⟩ := h₁.mmio_right next hpa below (by rw [hself]; exact hpresent)
  refine ⟨q, p₁, ?_, right, fun va hva => ?_⟩
  · obtain ⟨k, hk⟩ : ∃ k, wholePages size / 4096 = k + 1 :=
      Nat.exists_eq_add_one.mpr (by omega)
    have hsame : Jos.bootMapRegion d mmioPerm (k + 1) base pa p =
        Jos.bootMapRegion d mmioPerm (k + 1) base pa p₁ := by
      rw [Jos.bootMapRegion, bind_ret _ hwalk, bind_ret _ hwalk₁]
    rw [mmioMapRegion_below next below, hk] at hrun ⊢
    obtain ⟨u, r, hmap, hrest⟩ := bind_eq_ret hrun
    exact (bind_ret _ (hsame.trans hmap)).trans hrest
  · rw [Phys.translate, Phys.translate]
    dsimp only
    by_cases hdir : pdx va = pdx mmiobase
    · -- the new table is empty
      rw [hdir, hself, if_neg hpresent, if_pos habsent, hnum, Phys.word,
        p.growTable_mem_self _ hfd, readWord_zero, if_pos (by decide)]
    · rw [hword _ hdir]
      by_cases hp : p.word d (pdx va) &&& pteP = 0
      · rw [if_pos hp, if_pos hp]
      · rw [if_neg hp, if_neg hp]
        by_cases hup : pdx va = pdx uvpt
        · have hd : pgnum (p.word d (pdx uvpt)) = d := by
            have hdlt := h.dir_lt
            rw [h.self]
            exact pgnum_mkPte (by omega) (by decide)
          rw [hup, hd, hword _ fun hptx => hva ⟨hup, hptx⟩]
        · obtain ⟨-, hne, hnot⟩ := h.table _ hup hp
          have hnf : pgnum (p.word d (pdx va)) ≠ f := by
            intro heq
            exact hnot (heq ▸ List.mem_cons_self)
          rw [p.word_congr (p.growTable_mem d f _ hnf hne)]

theorem KernDir.mmio_sound_iff (h : KernDir d l p) (next : NextBase rs base) (hpa : pgoff pa = 0) :
    MmioSound d rs base pa size p ↔ MmioFits d base size p := by
  have hlim := mmiolim_toNat
  constructor
  · intro sound
    refine ⟨?_, fun hpos below habsent => h.mmio_noTable next hpos below habsent sound⟩
    by_contra hwraps
    exact h.mmio_wraps next (by omega) sound
  · rintro ⟨fits, htable⟩
    by_cases below : base.toNat + wholePages size ≤ mmiolim.toNat
    · by_cases hpos : size = 0
      · subst hpos
        have hnone : wholePages 0 = 0 := by decide
        refine .inr ⟨base, base + roundup 0, p, ?_, ?_, ⟨next.low, next.high⟩,
          fun r hr => .inl (next.above r hr), fun off hoff => ?_, fun va _ => rfl⟩
        · rw [mmioMapRegion_below next below, hnone]
          rfl
        · rw [pgoff_eq, next.aligned]
        · exact absurd hoff (Nat.not_lt_zero off)
      · obtain ⟨q, hrun, right⟩ := h.mmio_right next hpa below (htable hpos below)
        exact .inr ⟨base, _, q, hrun, right⟩
    · refine .inl ⟨.mmioLimit, ?_⟩
      rw [mmioMapRegionSize, if_pos (by rw [gt_iff_lt, BitVec.lt_def, add_roundup fits]; omega)]
      rfl

/-- What a call that fits leaves behind. -/
theorem KernDir.mmio_next {ret next' : Word} (h : KernDir d l p) (next : NextBase rs base)
    (fits : MmioFits d base size p)
    (run : mmioMapRegionSize d base pa size p = .ret (ret, next') q) :
    (∃ l', KernDir d l' q) ∧ NextBase (⟨ret, size⟩ :: rs) next' := by
  obtain ⟨hsize, hsize', hpages⟩ := wholePages_le size
  have hlim := mmiolim_toNat
  have hsum := add_roundup fits.1
  by_cases below : base.toNat + wholePages size ≤ mmiolim.toNat
  · have hpdx : ∀ j < wholePages size / 4096,
        pdx (base + BitVec.ofNat 32 (4096 * j)) ≠ pdx uvpt := fun j hj => by
      rw [(next.table below _ (by omega)).2]
      decide
    obtain ⟨q', l', hmap, hq, -⟩ := h.bootMapRegion mmioPerm pa hpdx
    rw [mmioMapRegion_below next below, bind_ret _ hmap] at run
    obtain ⟨heq, rfl⟩ := Outcome.ret.inj run
    obtain ⟨rfl, rfl⟩ := Prod.mk.inj heq
    have haligned := next.aligned
    have hlow := next.low
    refine ⟨⟨l', hq⟩, ⟨by omega, by omega, by omega, fun r hr => ?_⟩⟩
    rcases List.mem_cons.mp hr with rfl | hr
    · dsimp only
      omega
    · have := next.above r hr
      omega
  · rw [mmioMapRegionSize, if_pos (by rw [gt_iff_lt, BitVec.lt_def, hsum]; omega)] at run
    cases run

end Region

variable {d : Nat} {rs : List Reservation} {base pa size : Word} {p : Phys}

theorem MmioRun.inv (run : MmioRun d rs base p) : (∃ l, KernDir d l p) ∧ NextBase rs base := by
  induction run with
  | start sane =>
      refine ⟨⟨_, sane⟩, by decide, Nat.le_refl _, by decide, fun r hr => ?_⟩
      simp at hr
  | call _ _ fits call ih =>
      obtain ⟨⟨l, h⟩, next⟩ := ih
      exact h.mmio_next next fits call
  | other _ sane ih => exact ⟨⟨_, sane⟩, ih.2⟩

/-- After any calls that fit, the next one is right exactly if it fits, too. -/
theorem mmio_map_region_iff (run : MmioRun d rs base p) (aligned : pgoff pa = 0) :
    MmioSound d rs base pa size p ↔ MmioFits d base size p := by
  obtain ⟨⟨l, h⟩, next⟩ := run.inv
  exact h.mmio_sound_iff next aligned

/-- The registers of the local APIC, once the page table is there. -/
theorem mmio_map_region_iff_lapic : ∃ p l q pte,
    memInitStart qemu.toHardware qemu.powerOn = .ret () p ∧ KernDir qemu.kernPgdir l p ∧
    pgdirWalk qemu.kernPgdir mmiobase true p = .ret (some pte) q ∧
    MmioRun qemu.kernPgdir [] mmiobase q ∧
    MmioSound qemu.kernPgdir [] mmiobase 0xFEE00000 4096 q := by
  obtain ⟨p, l, hstart, htree, hfree, -⟩ := KernTree.start qemu
  have hlen := qemu.length_free hfree
  have hroom : 0 < qemu.npages - qemu.firstFree := by decide
  have hnil : l ≠ [] := by
    rintro rfl
    simp at hlen
    omega
  have hfar : pdx mmiobase ≠ pdx uvpt := by decide
  rcases htree.dir.walk hfar with ⟨-, h, -⟩ | ⟨q, l', hwalk, hq, htable, -⟩
  · exact absurd h hnil
  have hrun : MmioRun qemu.kernPgdir [] mmiobase q := .other (.start htree.dir) hq
  refine ⟨p, l, q, _, hstart, htree.dir, hwalk, hrun, (mmio_map_region_iff hrun ?_).mpr ?_⟩
  · decide
  · exact ⟨by decide, fun _ _ => htable⟩

/-- A frame buffer of 512 MB: the end of the region wraps to an address below `MMIOBASE`, and
the call returns although the region does not fit. -/
theorem mmio_map_region_wraps : ∃ p, memInitStart qemu.toHardware qemu.powerOn = .ret () p ∧
    MmioRun qemu.kernPgdir [] mmiobase p ∧ mmiobase + roundup 0x20000000 < mmiobase ∧
    ¬ MmioSound qemu.kernPgdir [] mmiobase 0xE0000000 0x20000000 p := by
  obtain ⟨p, l, hstart, htree, -⟩ := KernTree.start qemu
  have hrun : MmioRun qemu.kernPgdir [] mmiobase p := .start htree.dir
  exact ⟨p, hstart, hrun, by decide, htree.dir.mmio_wraps hrun.inv.2 (by decide)⟩

end Jos
