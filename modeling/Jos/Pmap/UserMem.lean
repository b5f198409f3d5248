import Jos.Pmap.Run
import Mathlib.Tactic.SplitIfs
import Mathlib.Tactic.Push

/-!
# What `user_mem_check` guarantees

The loop of `user_mem_check` runs over pages between two rounded 32-bit bounds
and looks at page table entries only. Two kinds of input escape it. If the range
reaches into the last page of the address space or beyond its end, the upper
bound wraps and the loop sees at most the page of `va`. And a directory entry may
be stricter than the entries below it: the self-map at `UVPT` is read-only in the
directory, while the entries found there are directory entries that allow writing.
`userMemCheck_sound_iff` shows that there is no third kind.
-/

namespace Jos

open Prog

namespace Phys

/-- The page at `addr` passes the test inside the loop of `user_mem_check`. -/
def PageGranted (p : Phys) (pgdir : Nat) (need addr : Word) : Prop :=
  addr < ulim ∧ p.word pgdir (pdx addr) &&& pteP ≠ 0 ∧
    pgnum (p.word pgdir (pdx addr)) < p.npages ∧
    p.word (pgnum (p.word pgdir (pdx addr))) (ptx addr) &&& need = need

/-- The directory entry for `addr` lets user mode read, and write if `perm` asks for it. -/
def DirGrants (p : Phys) (pgdir : Nat) (perm addr : Word) : Prop :=
  p.word pgdir (pdx addr) &&& pteU ≠ 0 ∧
    (perm &&& pteW ≠ 0 → p.word pgdir (pdx addr) &&& pteW ≠ 0)

end Phys

theorem userMemDenied_eq (p : Phys) (pgdir : Nat) (need addr : Word) :
    userMemDenied pgdir addr need p = .ret false p ↔ p.PageGranted pgdir need addr := by
  have hload : ∀ pte : PtePtr, pte.load p = .ret (p.word pte.table pte.idx) p := fun _ => rfl
  have hwalk := pgdirWalk_false p pgdir addr
  rw [userMemDenied, Phys.PageGranted]
  by_cases hp : p.word pgdir (pdx addr) &&& pteP = 0
  · rw [if_pos hp] at hwalk
    rw [bind_ret _ hwalk]
    simp [hp]
  · rw [if_neg hp] at hwalk
    by_cases hn : pgnum (p.word pgdir (pdx addr)) ≥ p.npages
    · rw [if_pos hn] at hwalk
      rw [bind_panic _ hwalk]
      simp only [reduceCtorEq, false_iff]
      intro h
      omega
    · rw [if_neg hn] at hwalk
      rw [bind_ret _ hwalk]
      simp only [bind_ret _ (hload _), pure_run, Outcome.ret.injEq, and_true,
        decide_eq_false_iff_not, not_or, not_not, ge_iff_le, BitVec.not_le]
      constructor
      · rintro ⟨hlim, hneed⟩
        exact ⟨hlim, hp, by omega, hneed⟩
      · rintro ⟨hlim, -, -, hneed⟩
        exact ⟨hlim, hneed⟩

/-- A page that is not granted makes the scan refuse, or the walk panic. -/
theorem userMemDenied_cases (p : Phys) (pgdir : Nat) (need addr : Word) :
    userMemDenied pgdir addr need p = .ret false p ∨
      userMemDenied pgdir addr need p = .ret true p ∨
      (userMemDenied pgdir addr need p = .panic .kaddr ∧
        p.word pgdir (pdx addr) &&& pteP ≠ 0 ∧
        p.npages ≤ pgnum (p.word pgdir (pdx addr))) := by
  have hload : ∀ pte : PtePtr, pte.load p = .ret (p.word pte.table pte.idx) p := fun _ => rfl
  have hwalk := pgdirWalk_false p pgdir addr
  rw [userMemDenied]
  split_ifs at hwalk with hp hn
  · rw [bind_ret _ hwalk]
    exact Or.inr (Or.inl rfl)
  · rw [bind_panic _ hwalk]
    exact Or.inr (Or.inr ⟨rfl, hp, hn⟩)
  · rw [bind_ret _ hwalk]
    simp only [bind_ret _ (hload _), pure_run, Outcome.ret.injEq, and_true]
    rcases Bool.eq_false_or_eq_true (decide (addr ≥ ulim ∨
      p.word (pgnum (p.word pgdir (pdx addr))) (ptx addr) &&& need ≠ need)) with hd | hd
    · exact Or.inr (Or.inl hd)
    · exact Or.inl hd

/-- With enough iterations the scan accepts exactly when every page from `addr`
up to `stop` is granted. The two bounds are page-aligned, so the address never
wraps inside the loop. -/
theorem userMemScan_none_iff {p : Phys} {pgdir : Nat} {va stop need : Word} {n : Nat} {addr : Word}
    (haddr : addr.toNat % 4096 = 0) (hstop : stop.toNat % 4096 = 0)
    (hn : stop.toNat ≤ addr.toNat + 4096 * n) :
    (∃ q, userMemScan pgdir va stop need n addr p = .ret none q) ↔
      ∀ a : Word, a.toNat % 4096 = 0 → addr ≤ a → a < stop → p.PageGranted pgdir need a := by
  induction n generalizing addr with
  | zero =>
      constructor
      · intro _ a _ hle hlt
        rw [BitVec.le_def] at hle
        rw [BitVec.lt_def] at hlt
        omega
      · intro _
        exact ⟨p, rfl⟩
  | succ n ih =>
      rw [userMemScan]
      by_cases hlt : addr < stop
      · rw [if_pos hlt]
        have hltNat : addr.toNat < stop.toNat := BitVec.lt_def.mp hlt
        have hstopLt := stop.isLt
        have hnext : (addr + 4096).toNat = addr.toNat + 4096 := by
          rw [BitVec.toNat_add, show (4096 : Word).toNat = 4096 from rfl]
          omega
        by_cases hg : p.PageGranted pgdir need addr
        · have hrest := @ih (addr + 4096) (by omega) (by omega)
          rw [bind_ret _ ((userMemDenied_eq p pgdir need addr).mpr hg), if_neg (by decide), hrest]
          constructor
          · intro h a ha hle hlt
            by_cases heq : a = addr
            · exact heq ▸ hg
            · apply h a ha _ hlt
              have hne : a.toNat ≠ addr.toNat := fun hv => heq (BitVec.eq_of_toNat_eq hv)
              rw [BitVec.le_def] at hle ⊢
              omega
          · intro h a ha hle hlt
            apply h a ha _ hlt
            rw [BitVec.le_def] at hle ⊢
            omega
        · constructor
          · rintro ⟨q, hq⟩
            exfalso
            rcases userMemDenied_cases p pgdir need addr with hd | hd | ⟨hd, -, -⟩
            · exact hg ((userMemDenied_eq p pgdir need addr).mp hd)
            · rw [bind_ret _ hd, if_pos rfl] at hq
              simp at hq
            · rw [bind_panic _ hd] at hq
              cases hq
          · intro h
            exact absurd (h addr haddr (BitVec.le_refl addr) hlt) hg
      · rw [if_neg hlt]
        constructor
        · intro _ a _ hle hlt'
          rw [BitVec.lt_def] at hlt hlt'
          rw [BitVec.le_def] at hle
          omega
        · intro _
          exact ⟨p, rfl⟩

/-- Where all page tables exist, the scan returns. -/
theorem userMemScan_ret {p : Phys} {pgdir : Nat} {va stop need : Word} {n : Nat} {addr : Word}
    (h : ∀ i, p.word pgdir i &&& pteP ≠ 0 → pgnum (p.word pgdir i) < p.npages) :
    ∃ r, userMemScan pgdir va stop need n addr p = .ret r p := by
  induction n generalizing addr with
  | zero => exact ⟨none, rfl⟩
  | succ n ih =>
      rw [userMemScan]
      by_cases hlt : addr < stop
      · rw [if_pos hlt]
        rcases userMemDenied_cases p pgdir need addr with hd | hd | ⟨-, hp, hge⟩
        · rw [bind_ret _ hd]
          exact ih
        · rw [bind_ret _ hd]
          exact ⟨_, rfl⟩
        · have := h _ hp
          omega
      · rw [if_neg hlt]
        exact ⟨none, rfl⟩

theorem userMemCheck_ret {p : Phys} {pgdir : Nat} (va len perm : Word)
    (h : ∀ i, p.word pgdir i &&& pteP ≠ 0 → pgnum (p.word pgdir i) < p.npages) :
    ∃ r, userMemCheck pgdir va len perm p = .ret r p :=
  userMemScan_ret h

theorem roundup_toNat_mod (a : Word) : (roundup a).toNat % 4096 = 0 := by
  rw [roundup, rounddown_toNat]
  omega

/-- Without a wrap `ROUNDUP` is the next multiple of the page size. -/
theorem roundup_add_toNat {va len : Word} (h : va.toNat + len.toNat ≤ 4294963200) :
    (roundup (va + len)).toNat = (va.toNat + len.toNat + 4095) / 4096 * 4096 := by
  have hsum : (va + len + 4096#32 - 1#32).toNat = va.toNat + len.toNat + 4095 := by
    rw [BitVec.toNat_sub, BitVec.toNat_add, BitVec.toNat_add]
    simp only [BitVec.toNat_ofNat]
    omega
  rw [roundup, rounddown_toNat, hsum]

/-- `user_mem_check` returns 0 exactly when every page it visits is granted. -/
theorem userMemCheck_none_iff (p : Phys) (pgdir : Nat) (va len perm : Word) :
    (∃ q, userMemCheck pgdir va len perm p = .ret none q) ↔
      ∀ a : Word, a.toNat % 4096 = 0 → rounddown va ≤ a → a < roundup (va + len) →
        p.PageGranted pgdir (perm ||| pteP ||| pteU) a := by
  apply userMemScan_none_iff
  · rw [rounddown_toNat]
    omega
  · exact roundup_toNat_mod _
  · have := (roundup (va + len)).isLt
    omega

/-- The contract of `user_mem_check`: an accepted range lies below `ULIM`, and
the page tables let user mode access every byte of it as `perm` says. -/
def UserMemSound (p : Phys) (pgdir : Nat) (va len perm : Word) : Prop :=
  (∃ q, userMemCheck pgdir va len perm p = .ret none q) →
    ∀ a, va.toNat ≤ a → a < va.toNat + len.toNat →
      a < ulim.toNat ∧ p.userAccess pgdir (BitVec.ofNat 32 a) (decide (perm &&& pteW ≠ 0))

/-- The range reaches into the last page or past the end of the address space, so
the upper bound wraps. The loop then has nothing to do, or only the page of `va`. -/
def WrapsUnseen (p : Phys) (pgdir : Nat) (va len perm : Word) : Prop :=
  len ≠ 0 ∧ 4294963200 < va.toNat + len.toNat ∧
    (roundup (va + len) ≤ rounddown va ∨
      p.PageGranted pgdir (perm ||| pteP ||| pteU) (rounddown va))

/-- All entries of the range permit the access, but a directory entry does not. -/
def DirectoryUnseen (p : Phys) (pgdir : Nat) (va len perm : Word) : Prop :=
  va.toNat + len.toNat ≤ 4294963200 ∧
    (∀ a : Word, a.toNat % 4096 = 0 → rounddown va ≤ a → a < roundup (va + len) →
      p.PageGranted pgdir (perm ||| pteP ||| pteU) a) ∧
    ∃ a : Word, va ≤ a ∧ a.toNat < va.toNat + len.toNat ∧ ¬ p.DirGrants pgdir perm a

/-- Address arithmetic of one byte inside its page. -/
theorem pdx_rounddown (a : Word) : pdx (rounddown a) = pdx a := by
  apply Fin.ext
  rw [pdx_val, pdx_val, rounddown_toNat]
  omega

theorem ptx_rounddown (a : Word) : ptx (rounddown a) = ptx a := by
  apply Fin.ext
  rw [ptx_val, ptx_val, rounddown_toNat]
  omega

/-- Of one bit there is all or nothing. -/
theorem and_twoPow_eq {w : Word} {i : Nat} (h : w &&& BitVec.twoPow 32 i ≠ 0) :
    w &&& BitVec.twoPow 32 i = BitVec.twoPow 32 i := by
  rw [BitVec.and_twoPow] at h ⊢
  split at h <;> simp_all

theorem and_or_eq {w a b : Word} (ha : w &&& a = a) (hb : w &&& b = b) :
    w &&& (a ||| b) = a ||| b := by
  rw [BitVec.and_or_distrib_left, ha, hb]

/-- A bit that is asked for is there. -/
theorem and_ne_zero_of_subset {w need bit : Word} (h : w &&& need = need) (hb : need &&& bit ≠ 0) :
    w &&& bit ≠ 0 := by
  intro hz
  apply hb
  rw [← h, BitVec.and_assoc, BitVec.and_comm need bit, ← BitVec.and_assoc, hz]
  exact BitVec.zero_and

/-- The two levels together decide what user mode may do. -/
theorem userAccess_iff_of_granted {p : Phys} {pgdir : Nat} {perm a : Word}
    (h : p.PageGranted pgdir (perm ||| pteP ||| pteU) (rounddown a)) :
    p.userAccess pgdir a (decide (perm &&& pteW ≠ 0)) ↔ p.DirGrants pgdir perm a := by
  obtain ⟨-, hpde, -, hpte⟩ := h
  rw [pdx_rounddown, ptx_rounddown] at hpte
  rw [pdx_rounddown] at hpde
  have hbit : ∀ bit, (perm ||| pteP ||| pteU) &&& bit ≠ 0 →
      p.word (pgnum (p.word pgdir (pdx a))) (ptx a) &&& bit ≠ 0 :=
    fun bit hb => and_ne_zero_of_subset hpte hb
  have hpres := hbit pteP (by
    rw [BitVec.or_assoc, BitVec.or_comm pteP, ← BitVec.or_assoc]
    simp [pteP, BitVec.and_or_distrib_right])
  have huser := hbit pteU (by simp [pteU, BitVec.and_or_distrib_right])
  have hwrite : perm &&& pteW ≠ 0 →
      p.word (pgnum (p.word pgdir (pdx a))) (ptx a) &&& pteW ≠ 0 := by
    intro hw
    apply hbit
    intro hz
    apply hw
    simp [pteP, pteU, pteW, BitVec.and_or_distrib_right] at hz ⊢
    exact hz
  simp only [Phys.userAccess, Phys.translate, if_neg hpde, if_neg hpres, Option.some.injEq,
    Prod.mk.injEq, Phys.DirGrants, decide_eq_true_eq]
  constructor
  · rintro ⟨pde, pte, ⟨rfl, rfl⟩, hu, -, hw⟩
    exact ⟨hu, fun hp => (hw hp).1⟩
  · rintro ⟨hu, hw⟩
    exact ⟨_, _, ⟨rfl, rfl⟩, hu, huser, fun hp => ⟨hw hp, hwrite hp⟩⟩

theorem rounddown_le (a : Word) : (rounddown a).toNat ≤ a.toNat ∧
    a.toNat < (rounddown a).toNat + 4096 ∧ (rounddown a).toNat % 4096 = 0 := by
  rw [rounddown_toNat]
  omega

/-- When the upper bound wraps, it does not pass the page of `va`. -/
theorem roundup_wrapped_le {va len : Word} (h : 4294963200 < va.toNat + len.toNat) :
    (roundup (va + len)).toNat ≤ (rounddown va).toNat + 4096 := by
  have hva := va.isLt
  have hlen := len.isLt
  have hsum : (va + len + 4096#32 - 1#32).toNat = (va.toNat + len.toNat + 4095) % 4294967296 := by
    rw [BitVec.toNat_sub, BitVec.toNat_add, BitVec.toNat_add]
    simp only [BitVec.toNat_ofNat]
    omega
  rw [roundup, rounddown_toNat, hsum, rounddown_toNat]
  omega

/-- The page of a byte of the range is one of those the loop visits. -/
theorem rounddown_mem_range {va len a : Word} (hfit : va.toNat + len.toNat ≤ 4294963200)
    (hle : va ≤ a) (hlt : a.toNat < va.toNat + len.toNat) :
    (rounddown a).toNat % 4096 = 0 ∧ rounddown va ≤ rounddown a ∧
      rounddown a < roundup (va + len) := by
  rw [BitVec.le_def] at hle
  refine ⟨(rounddown_le a).2.2, ?_, ?_⟩
  · rw [BitVec.le_def, rounddown_toNat, rounddown_toNat]
    omega
  · rw [BitVec.lt_def, roundup_add_toNat hfit, rounddown_toNat]
    omega

/-- A range that wraps unseen is accepted. -/
theorem WrapsUnseen.accepted {p : Phys} {pgdir : Nat} {va len perm : Word}
    (h : WrapsUnseen p pgdir va len perm) :
    ∃ q, userMemCheck pgdir va len perm p = .ret none q := by
  obtain ⟨-, hwrap, hunseen⟩ := h
  rw [userMemCheck_none_iff]
  intro a ha hle hlt
  rcases hunseen with hempty | hgranted
  · rw [BitVec.le_def] at hempty hle
    rw [BitVec.lt_def] at hlt
    omega
  · -- the only aligned address left is the page of `va` itself
    have hbound := roundup_wrapped_le hwrap
    have haligned := (rounddown_le va).2.2
    rw [BitVec.le_def] at hle
    rw [BitVec.lt_def] at hlt
    have heq : a = rounddown va := BitVec.eq_of_toNat_eq (by omega)
    rw [heq]
    exact hgranted

/-- Its last byte lies in the kernel's part of the address space. -/
theorem WrapsUnseen.not_sound {p : Phys} {pgdir : Nat} {va len perm : Word}
    (h : WrapsUnseen p pgdir va len perm) : ¬ UserMemSound p pgdir va len perm := by
  intro hsound
  have hpos : 0 < len.toNat := by
    rw [Nat.pos_iff_ne_zero]
    exact fun hz => h.1 (BitVec.eq_of_toNat_eq hz)
  have hlast := (hsound h.accepted (va.toNat + len.toNat - 1) (by omega) (by omega)).1
  have hulim : ulim.toNat = 4018143232 := by decide
  have hwrap := h.2.1
  omega

/-- `user_mem_check` keeps its contract on every input except the two kinds above. -/
theorem userMemCheck_sound_iff (p : Phys) (pgdir : Nat) (va len perm : Word) :
    UserMemSound p pgdir va len perm ↔
      ¬ WrapsUnseen p pgdir va len perm ∧ ¬ DirectoryUnseen p pgdir va len perm := by
  constructor
  · intro hsound
    refine ⟨fun hwraps => hwraps.not_sound hsound, ?_⟩
    rintro ⟨hfit, hgranted, a, hle, hlt, hrefused⟩
    obtain ⟨haligned, hlow, hhigh⟩ := rounddown_mem_range hfit hle hlt
    have haccess := (hsound ((userMemCheck_none_iff p pgdir va len perm).mpr hgranted)
      a.toNat (BitVec.le_def.mp hle) hlt).2
    rw [BitVec.ofNat_toNat, BitVec.setWidth_eq,
      userAccess_iff_of_granted (hgranted _ haligned hlow hhigh)] at haccess
    exact hrefused haccess
  · rintro ⟨hnowrap, hnodir⟩ haccepted n hle hlt
    rw [userMemCheck_none_iff] at haccepted
    by_cases hfit : va.toNat + len.toNat ≤ 4294963200
    · have hn : (BitVec.ofNat 32 n).toNat = n := by
        rw [BitVec.toNat_ofNat]
        omega
      have hle' : va ≤ BitVec.ofNat 32 n := by
        rw [BitVec.le_def, hn]
        exact hle
      have hlt' : (BitVec.ofNat 32 n).toNat < va.toNat + len.toNat := by
        rw [hn]
        exact hlt
      obtain ⟨haligned, hlow, hhigh⟩ := rounddown_mem_range hfit hle' hlt'
      have hgranted := haccepted _ haligned hlow hhigh
      constructor
      · -- `ULIM` is page-aligned, so the page below it lies below it as a whole
        have hlim := BitVec.lt_def.mp hgranted.1
        rw [rounddown_toNat, hn] at hlim
        have hulim : ulim.toNat = 980992 * 4096 := by decide
        omega
      · rw [userAccess_iff_of_granted hgranted]
        by_contra hrefused
        exact hnodir ⟨hfit, haccepted, _, hle', hlt', hrefused⟩
    · exfalso
      apply hnowrap
      refine ⟨fun hz => ?_, by omega, ?_⟩
      · rw [hz, show (0 : Word).toNat = 0 from rfl] at hlt
        omega
      · by_cases hempty : roundup (va + len) ≤ rounddown va
        · exact Or.inl hempty
        · exact Or.inr (haccepted _ (rounddown_le va).2.2 (BitVec.le_refl _)
            (BitVec.not_le.mp hempty))

/-- `sys_cputs(KERNBASE, 256 MB)`: the whole kernel passes the check, although the
directory maps nothing. -/
theorem userMemCheck_kernbase_unsound :
    ¬ UserMemSound (Phys.blank 65536) 0 0xF0000000 0x10000000 pteU := by
  apply WrapsUnseen.not_sound
  exact ⟨by decide, by decide, Or.inl (by decide)⟩

section FirstError

/-- The page of `addr` is at or above `ULIM`, has no page table, or its entry lacks
one of the bits of `need`. -/
def Phys.Refused (p : Phys) (pgdir : Nat) (need addr : Word) : Prop :=
  ulim ≤ rounddown addr ∨ p.word pgdir (pdx addr) &&& pteP = 0 ∨
    p.word (pgnum (p.word pgdir (pdx addr))) (ptx addr) &&& need ≠ need

variable {p q : Phys} {pgdir n : Nat} {va stop need addr : Word}

/-- All bytes of a page are refused together. -/
theorem Phys.refused_rounddown : p.Refused pgdir need (rounddown addr) ↔
    p.Refused pgdir need addr := by
  have hidem : rounddown (rounddown addr) = rounddown addr := by
    apply BitVec.eq_of_toNat_eq
    rw [rounddown_toNat, rounddown_toNat]
    omega
  rw [Phys.Refused, Phys.Refused, hidem, pdx_rounddown, ptx_rounddown]

theorem rounddown_of_aligned {a : Word} (h : a.toNat % 4096 = 0) : rounddown a = a := by
  apply BitVec.eq_of_toNat_eq
  rw [rounddown_toNat]
  omega

theorem Phys.PageGranted.not_refused (haligned : addr.toNat % 4096 = 0)
    (h : p.PageGranted pgdir need addr) : ¬ p.Refused pgdir need addr := by
  obtain ⟨hlim, hpde, -, hpte⟩ := h
  rw [Phys.Refused, rounddown_of_aligned haligned]
  rintro (hulim | hnone | hlacks)
  · exact absurd hlim (BitVec.not_lt.mpr hulim)
  · exact hpde hnone
  · exact hlacks hpte

/-- The test inside the loop finds exactly the refused pages. -/
theorem userMemDenied_true (haligned : addr.toNat % 4096 = 0)
    (h : userMemDenied pgdir addr need p = .ret true p) : p.Refused pgdir need addr := by
  by_contra haccepted
  rw [Phys.Refused, rounddown_of_aligned haligned, not_or, not_or, not_not,
    BitVec.not_le] at haccepted
  obtain ⟨hlim, hpde, hpte⟩ := haccepted
  rcases userMemDenied_cases p pgdir need addr with hd | - | ⟨hd, -⟩
  · exact absurd (hd.symm.trans h) (by simp)
  · have hnpages : pgnum (p.word pgdir (pdx addr)) < p.npages := by
      by_contra hge
      have hwalk := pgdirWalk_false p pgdir addr
      rw [if_neg hpde, if_pos (by omega)] at hwalk
      rw [userMemDenied, bind_panic _ hwalk] at h
      cases h
    exact absurd (((userMemDenied_eq p pgdir need addr).mpr ⟨hlim, hpde, hnpages, hpte⟩).symm.trans
      h) (by simp)
  · exact absurd (hd.symm.trans h) (by simp)

/-- The scan records the first page that is refused; for the page of `va` it records
`va` itself. -/
theorem userMemScan_some {r : Word} (haddr : addr.toNat % 4096 = 0)
    (hstop : stop.toNat % 4096 = 0)
    (h : userMemScan pgdir va stop need n addr p = .ret (some r) q) :
    ∃ a : Word, a.toNat % 4096 = 0 ∧ addr ≤ a ∧ a < stop ∧ r = (if a < va then va else a) ∧
      p.Refused pgdir need a ∧
      ∀ b : Word, b.toNat % 4096 = 0 → addr ≤ b → b < a → ¬ p.Refused pgdir need b := by
  induction n generalizing addr with
  | zero => cases h
  | succ n ih =>
      rw [userMemScan] at h
      split at h
      · rename_i hlt
        have hltNat : addr.toNat < stop.toNat := BitVec.lt_def.mp hlt
        have hstopLt := stop.isLt
        have hnext : (addr + 4096).toNat = addr.toNat + 4096 := by
          rw [BitVec.toNat_add, show (4096 : Word).toNat = 4096 from rfl]
          omega
        rcases userMemDenied_cases p pgdir need addr with hd | hd | ⟨hd, -⟩
        · -- the page passes, so the first refused page comes later
          have hgranted := ((userMemDenied_eq p pgdir need addr).mp hd).not_refused haddr
          rw [bind_ret _ hd, if_neg (by decide)] at h
          obtain ⟨a, ha, hle, hlt', hr, hrefused, hbelow⟩ := ih (by omega) h
          rw [BitVec.le_def, hnext] at hle
          refine ⟨a, ha, BitVec.le_def.mpr (by omega), hlt', hr, hrefused, fun b hb hge hltb => ?_⟩
          by_cases heq : b = addr
          · exact heq ▸ hgranted
          · have hne : b.toNat ≠ addr.toNat := fun hv => heq (BitVec.eq_of_toNat_eq hv)
            rw [BitVec.le_def] at hge
            exact hbelow b hb (BitVec.le_def.mpr (by omega)) hltb
        · rw [bind_ret _ hd, if_pos rfl] at h
          obtain ⟨⟨⟩, -⟩ := Outcome.ret.inj h
          refine ⟨addr, haddr, BitVec.le_refl _, hlt, rfl, userMemDenied_true haddr hd,
            fun b _ hge hltb => ?_⟩
          exact absurd hltb (BitVec.not_lt.mpr hge)
        · rw [bind_panic _ hd] at h
          cases h
      · cases h

end FirstError

/-- When `user_mem_check` fails, it has recorded the least address of the range that is
not accessible. -/
theorem user_mem_check_addr_least {p q : Phys} {pgdir : Nat} {va len perm addr : Word}
    (hlen : len ≠ 0) (hfault : userMemCheck pgdir va len perm p = .ret (some addr) q) :
    ∃ off, off < len.toNat ∧ addr = va + BitVec.ofNat 32 off ∧
      p.Refused pgdir (perm ||| pteP ||| pteU) addr ∧
      ∀ i, i < off → ¬ p.Refused pgdir (perm ||| pteP ||| pteU) (va + BitVec.ofNat 32 i) := by
  obtain ⟨a, haligned, hge, hstop, rfl, hrefused, hbelow⟩ :=
    userMemScan_some (rounddown_le va).2.2 (roundup_toNat_mod _) hfault
  have hva := va.isLt
  have hpos : len.toNat ≠ 0 := fun hz => hlen (BitVec.eq_of_toNat_eq hz)
  have hround := rounddown_le va
  rw [BitVec.le_def] at hge
  rw [BitVec.lt_def] at hstop
  by_cases hfirst : a.toNat ≤ va.toNat
  · -- the page of `va`
    have hpage : a = rounddown va := BitVec.eq_of_toNat_eq (by omega)
    have hrecorded : (if a < va then va else a) = va := by
      split
      · rfl
      · rename_i hnlt
        rw [BitVec.lt_def] at hnlt
        exact BitVec.eq_of_toNat_eq (by omega)
    rw [hrecorded]
    refine ⟨0, by omega, by simp, Phys.refused_rounddown.mp (hpage ▸ hrefused), fun i hi => ?_⟩
    exact absurd hi (Nat.not_lt_zero i)
  · -- a later page: the upper bound has not wrapped
    have hfit : va.toNat + len.toNat ≤ 4294963200 := by
      by_contra hwrap
      have : (roundup (va + len)).toNat ≤ (rounddown va).toNat + 4096 :=
        roundup_wrapped_le (by omega)
      omega
    rw [roundup_add_toNat hfit] at hstop
    rw [if_neg (by rw [BitVec.lt_def]; omega)]
    have hoff : ∀ i, i < len.toNat → (va + BitVec.ofNat 32 i).toNat = va.toNat + i := by
      intro i hi
      rw [BitVec.toNat_add, BitVec.toNat_ofNat]
      omega
    refine ⟨a.toNat - va.toNat, by omega, ?_, hrefused, fun i hi => ?_⟩
    · apply BitVec.eq_of_toNat_eq
      rw [hoff _ (by omega)]
      omega
    · have hi' := hoff i (by omega)
      have hpage := rounddown_le (va + BitVec.ofNat 32 i)
      rw [← Phys.refused_rounddown]
      apply hbelow _ hpage.2.2
      · rw [BitVec.le_def, rounddown_toNat, rounddown_toNat, hi']
        omega
      · rw [BitVec.lt_def]
        omega

/-- The range begins in the page that is mapped and ends in the next one. -/
theorem user_mem_check_addr_least_crossing :
    userMemCheck 0 0x800FFE 8 pteU Phys.onePage = .ret (some 0x801000) Phys.onePage ∧
    ∃ off, off < (8 : Word).toNat ∧ (0x801000 : Word) = 0x800FFE + BitVec.ofNat 32 off ∧
      Phys.onePage.Refused 0 (pteU ||| pteP ||| pteU) 0x801000 ∧
      ∀ i, i < off → ¬ Phys.onePage.Refused 0 (pteU ||| pteP ||| pteU)
        (0x800FFE + BitVec.ofNat 32 i) :=
  have hrun : userMemCheck 0 0x800FFE 8 pteU Phys.onePage = .ret (some 0x801000) Phys.onePage := rfl
  ⟨hrun, user_mem_check_addr_least (by decide) hrun⟩

end Jos
