import Jos.Safety.Cputs
import Mathlib.Data.List.TakeWhile

/-!
# Console output of user programs (`lib/printf.c`)

`cprintf` collects what `vprintfmt` emits in a buffer on the stack and prints it by
`sys_cputs`, whenever 255 characters are there and at the end. `vprintfmt` is represented
by the characters that it passes to `putch`, in their order.
-/

namespace Jos

open Prog

/-- The counters of `struct printbuf`; `buf` is in memory. -/
structure Printbuf where
  idx : Word
  cnt : Word

/-- `sys_cputs`, with the characters that the kernel prints. -/
def cputs (c : Nat) (cur : EnvIdx) (s len : Word) : User (List Byte) := do
  let k ← get
  let _ ← call (sysCputs c cur s len)
  pure (printString (k.phys.byteAt (k.cpus c).cr3) s len).chars

/-- One character, into the buffer at `buf`. -/
def putch (c : Nat) (cur : EnvIdx) (buf ch : Word) (b : Printbuf) : User (Printbuf × List Byte) := do
  store c (buf + b.idx) (ch.setWidth 8)
  let b := { b with idx := b.idx + 1 }
  if b.idx = 256 - 1 then do
    let printed ← cputs c cur buf b.idx
    pure (⟨0, b.cnt + 1⟩, printed)
  else pure ({ b with cnt := b.cnt + 1 }, [])

/-- The calls of `putch` by `vprintfmt`. -/
def putchs (c : Nat) (cur : EnvIdx) (buf : Word) : List Word → Printbuf →
    User (Printbuf × List Byte)
  | [], b => pure (b, [])
  | ch :: chs, b => do
      let (b, printed) ← putch c cur buf ch b
      let (b, rest) ← putchs c cur buf chs b
      pure (b, printed ++ rest)

/-- What the buffer lets through, after the bytes in `pending`: each time it is printed, the
kernel stops at a NUL. -/
def shown : List Byte → List Byte → List Byte
  | pending, [] => pending.takeWhile (· ≠ 0)
  | pending, b :: bytes =>
      if pending.length + 1 = 255 then
        (pending ++ [b]).takeWhile (· ≠ 0) ++ shown [] bytes
      else shown (pending ++ [b]) bytes

/-- The environment `cur` runs on `c` with the directory `d`, and the 256 bytes at `buf` are its
own. -/
structure HasBuffer (L : Layout) (c : Nat) (cur : EnvIdx) (d : Nat) (buf : Word) (k : Kernel) :
    Prop where
  mem : MemInv L k
  dir : k.dirs cur = some d
  cr3 : (k.cpus c).cr3 = d
  nonnull : buf ≠ 0
  below : buf.toNat + 256 ≤ utop.toNat
  mapped : ∀ i < 256, ∃ pde pte, k.phys.translate d (buf + BitVec.ofNat 32 i) = some (pde, pte) ∧
    (pde &&& pteU ≠ 0 ∧ pte &&& pteU ≠ 0) ∧ pde &&& pteW ≠ 0 ∧ pte &&& pteW ≠ 0

/-- The bytes in `pending` are in the buffer. -/
def Pending (d : Nat) (buf : Word) (pending : List Byte) (k : Kernel) : Prop :=
  ∀ (i : Nat) (hi : i < pending.length),
    k.phys.byteAt d (buf + BitVec.ofNat 32 i) = some pending[i]

theorem Pending.nil {d : Nat} {buf : Word} {k : Kernel} : Pending d buf [] k :=
  fun _ hi => absurd hi (Nat.not_lt_zero _)

namespace HasBuffer

variable {L : Layout} {k : Kernel} {c d i : Nat} {cur : EnvIdx} {buf : Word} {pending : List Byte}

/-- The check of `sys_cputs` looks at pages of the buffer only. -/
theorem assert (h : HasBuffer L c cur d buf k) {len : Word} (hlen : len.toNat < 256) :
    userMemAssert c cur buf len pteU k = .ret () k := by
  have hlim : utop.toNat = 4005560320 ∧ ulim.toNat = 4018143232 := by decide
  have hbelow := h.below
  have htables : ∀ j, k.phys.word d j &&& pteP ≠ 0 → pgnum (k.phys.word d j) < k.phys.npages :=
    fun j hj => h.mem.table_lt h.dir hj
  obtain ⟨r, hr⟩ := userMemCheck_ret buf len (pteU ||| pteU) htables
  have hgranted : ∃ q, userMemCheck d buf len (pteU ||| pteU) k.phys = .ret none q := by
    refine (userMemCheck_none_iff _ _ _ _ _).mpr fun a haligned hlow hhigh => ?_
    rw [BitVec.le_def, rounddown_toNat] at hlow
    rw [BitVec.lt_def, roundup_add_toNat (by omega)] at hhigh
    -- a byte of the buffer on the page
    obtain ⟨i, hi, hpage⟩ : ∃ i < 256, (buf.toNat + i) / 4096 = a.toNat / 4096 := by
      by_cases hfirst : a.toNat ≤ buf.toNat
      · exact ⟨0, by decide, by omega⟩
      · exact ⟨a.toNat - buf.toNat, by omega, by omega⟩
    obtain ⟨pde, pte, walk, user, -⟩ := h.mapped i hi
    have hva : (buf + BitVec.ofNat 32 i).toNat = buf.toNat + i := by
      rw [BitVec.toNat_add, BitVec.toNat_ofNat]
      omega
    rw [Phys.translate_page (hva.symm ▸ hpage)] at walk
    obtain ⟨hpde, hp, hpte, hp'⟩ := Phys.translate_eq_some walk
    rw [Phys.PageGranted, hpde, hpte, BitVec.lt_def]
    have hU : pte &&& pteU = pteU := and_twoPow_eq (i := 2) user.2
    have hP : pte &&& pteP = pteP := and_twoPow_eq (i := 0) hp'
    exact ⟨by omega, hp, hpde ▸ htables _ (hpde ▸ hp),
      and_or_eq (and_or_eq (and_or_eq hU hU) hP) hU⟩
  obtain ⟨q, hq⟩ := hgranted
  cases hr.symm.trans hq
  exact userMemAssert_run h.dir hr

/-- A store into the buffer. -/
theorem store (h : HasBuffer L c cur d buf k) (hi : i < 256) (b : Byte) :
    ∃ k', store c (buf + BitVec.ofNat 32 i) b k = .ret () k' ∧ HasBuffer L c cur d buf k' ∧
      k'.phys.byteAt d (buf + BitVec.ofNat 32 i) = some b ∧
      ∀ j < 256, j ≠ i → k'.phys.byteAt d (buf + BitVec.ofNat 32 j) =
        k.phys.byteAt d (buf + BitVec.ofNat 32 j) := by
  obtain ⟨pde, pte, walk, user, write⟩ := h.mapped i hi
  have hpage := (h.mem.phys.user_write h.dir walk user write).2
  have hplain := h.mem.plain h.dir hpage
  have hstores := Phys.Stores.setByte hplain (pgoff (buf + BitVec.ofNat 32 i)) b
  refine ⟨{ k with phys := k.phys.setByte (pgnum pte) (pgoff (buf + BitVec.ofNat 32 i)) b }, ?_,
    ⟨h.mem.of_phys (h.mem.phys.setByte hpage _ _), h.dir, h.cr3, h.nonnull, h.below,
      fun j hj => ?_⟩, Phys.byteAt_setByte walk hplain b, fun j hj hne => ?_⟩
  · rw [Jos.store, get_bind, h.cr3, walk]
    dsimp only
    rw [if_neg (by
      rintro (hz | hz | hz | hz)
      exacts [user.1 hz, user.2 hz, write.1 hz, write.2 hz])]
    rfl
  · obtain ⟨pde', pte', walk', rest⟩ := h.mapped j hj
    exact ⟨pde', pte', (hstores.translate _).trans walk', rest⟩
  · refine hstores.byteAt ?_
    rcases Nat.lt_or_gt_of_ne hne with hlt | hgt
    · exact pgoff_add_ne hlt (by omega) buf
    · exact (pgoff_add_ne hgt (by omega) buf).symm

/-- The bytes in the buffer are printed up to the first NUL. -/
theorem cputs (h : HasBuffer L c cur d buf k) (hp : Pending d buf pending k)
    (room : pending.length < 256) :
    cputs c cur buf (BitVec.ofNat 32 pending.length) k =
      .ret (pending.takeWhile (· ≠ 0)) k := by
  have hlen : (BitVec.ofNat 32 pending.length).toNat < 256 := by
    rw [BitVec.toNat_ofNat]
    omega
  have hbehind : k.phys.byteAt d (buf + BitVec.ofNat 32 pending.length) ≠ none := by
    obtain ⟨pde, pte, walk, -⟩ := h.mapped _ room
    rw [Phys.byteAt, walk]
    simp
  obtain ⟨hchars, hfault⟩ := stringLoop_chars (n := 4294967297) (by omega) (by omega) hp hbehind
  rw [← printString_nonnull h.nonnull] at hchars hfault
  have hrun := sysCputs_run (h.assert hlen)
  rw [h.cr3, hfault] at hrun
  rw [Jos.cputs, get_bind, bind_ret _ (call_ret hrun), h.cr3, hchars]
  rfl

/-- A character after those in the buffer. -/
theorem stores (h : HasBuffer L c cur d buf k) (hp : Pending d buf pending k)
    (room : pending.length < 256) (b : Byte) :
    ∃ k', Jos.store c (buf + BitVec.ofNat 32 pending.length) b k = .ret () k' ∧
      HasBuffer L c cur d buf k' ∧ Pending d buf (pending ++ [b]) k' := by
  obtain ⟨k', hstore, h', hself, hother⟩ := h.store room b
  refine ⟨k', hstore, h', fun j hj => ?_⟩
  rw [List.length_append, List.length_singleton] at hj
  by_cases hlast : j = pending.length
  · subst hlast
    simpa using hself
  · rw [hother j (by omega) hlast, List.getElem_append_left (by omega)]
    exact hp j (by omega)

theorem idx_succ (pending : List Byte) (b : Byte) : BitVec.ofNat 32 pending.length + 1 =
    BitVec.ofNat 32 (pending ++ [b]).length := by
  rw [List.length_append, BitVec.ofNat_add]
  rfl

/-- A character that leaves the buffer room for another one waits there. -/
theorem putch_room (h : HasBuffer L c cur d buf k) (hp : Pending d buf pending k)
    (room : pending.length + 1 < 255) (ch cnt : Word) :
    let all := pending ++ [ch.setWidth 8]
    ∃ k', putch c cur buf ch ⟨BitVec.ofNat 32 pending.length, cnt⟩ k =
        .ret (⟨BitVec.ofNat 32 all.length, cnt + 1⟩, []) k' ∧
      HasBuffer L c cur d buf k' ∧ Pending d buf all k' := by
  obtain ⟨k', hstore, h', hp'⟩ := h.stores hp (by omega) (ch.setWidth 8)
  have hmore : BitVec.ofNat 32 (pending ++ [ch.setWidth 8]).length ≠ 256 - 1 := by
    rw [List.length_append, List.length_singleton]
    intro heq
    have hval := congrArg BitVec.toNat heq
    rw [BitVec.toNat_ofNat, show (256 - 1 : Word).toNat = 255 from rfl] at hval
    omega
  refine ⟨k', ?_, h', hp'⟩
  rw [putch, bind_ret _ hstore]
  dsimp only
  rw [idx_succ _ (ch.setWidth 8), if_neg hmore]
  rfl

/-- The 255th has the whole buffer printed. -/
theorem putch_full (h : HasBuffer L c cur d buf k) (hp : Pending d buf pending k)
    (full : pending.length + 1 = 255) (ch cnt : Word) :
    ∃ k', putch c cur buf ch ⟨BitVec.ofNat 32 pending.length, cnt⟩ k =
        .ret (⟨0, cnt + 1⟩, (pending ++ [ch.setWidth 8]).takeWhile (· ≠ 0)) k' ∧
      HasBuffer L c cur d buf k' := by
  obtain ⟨k', hstore, h', hp'⟩ := h.stores hp (by omega) (ch.setWidth 8)
  have hlen : (pending ++ [ch.setWidth 8]).length = 255 := by
    rw [List.length_append, List.length_singleton, full]
  refine ⟨k', ?_, h'⟩
  rw [putch, bind_ret _ hstore]
  dsimp only
  rw [idx_succ _ (ch.setWidth 8), if_pos (by rw [hlen]; rfl),
    bind_ret _ (h'.cputs hp' (by omega))]
  rfl

/-- All calls of `putch`: with what is still in the buffer, everything comes out as `shown`
says. -/
theorem putchs (h : HasBuffer L c cur d buf k) (hp : Pending d buf pending k)
    (room : pending.length < 255) (chs : List Word) (cnt : Word) :
    ∃ printed k' pending', putchs c cur buf chs ⟨BitVec.ofNat 32 pending.length, cnt⟩ k =
        .ret (⟨BitVec.ofNat 32 pending'.length, cnt + BitVec.ofNat 32 chs.length⟩, printed) k' ∧
      HasBuffer L c cur d buf k' ∧ Pending d buf pending' k' ∧ pending'.length < 255 ∧
      printed ++ pending'.takeWhile (· ≠ 0) = shown pending (chs.map (BitVec.setWidth 8)) := by
  induction chs generalizing k pending cnt with
  | nil =>
      refine ⟨[], k, pending, ?_, h, hp, room, rfl⟩
      rw [Jos.putchs, List.length_nil, show cnt + BitVec.ofNat 32 0 = cnt from BitVec.add_zero cnt]
      rfl
  | cons ch chs ih =>
      have hcnt : cnt + BitVec.ofNat 32 (ch :: chs).length =
          cnt + 1 + BitVec.ofNat 32 chs.length := (add_one_add_ofNat cnt chs.length).symm
      rw [hcnt, List.map_cons, shown]
      by_cases full : pending.length + 1 = 255
      · obtain ⟨k₁, hrun, h₁⟩ := h.putch_full hp full ch cnt
        obtain ⟨printed, k', pending', hrest, h', hp', room', hshown⟩ :=
          ih h₁ .nil (by decide) (cnt + 1)
        refine ⟨(pending ++ [ch.setWidth 8]).takeWhile (· ≠ 0) ++ printed, k', pending', ?_, h', hp',
          room', ?_⟩
        · rw [Jos.putchs, bind_ret _ hrun]
          exact bind_ret _ hrest
        · rw [if_pos full, List.append_assoc, hshown]
      · obtain ⟨k₁, hrun, h₁, hp₁⟩ := h.putch_room hp (by omega) ch cnt
        obtain ⟨printed, k', pending', hrest, h', hp', room', hshown⟩ :=
          ih h₁ hp₁ (by rw [List.length_append, List.length_singleton]; omega) (cnt + 1)
        refine ⟨printed, k', pending', ?_, h', hp', room', ?_⟩
        · rw [Jos.putchs, bind_ret _ hrun]
          exact bind_ret _ hrest
        · rw [if_neg full, hshown]

end HasBuffer

variable {L : Layout} {k : Kernel} {c d : Nat} {cur : EnvIdx} {buf : Word}

end Jos
