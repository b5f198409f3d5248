import Jos.Lib.Printfmt

/-!
# `vsnprintf` (`lib/printfmt.c`)

The buffer is written by the callback `sprintputch` alone. The state is the memory with the
`struct sprintbuf`; the addresses that are stored to are recorded.
-/

namespace Jos.Printfmt

/-- The memory, the addresses stored to, and `struct sprintbuf`. -/
structure Sprint where
  mem : Word → Byte
  stores : List Word
  buf : Word
  ebuf : Word
  cnt : Word

namespace Sprint

/-- `*b->buf = ch`. -/
def store (b : Sprint) (ch : Word) : Sprint :=
  { b with mem := Function.update b.mem b.buf (ch.setWidth 8), stores := b.stores ++ [b.buf] }

/-- `sprintputch`. -/
def putch (ch : Word) (b : Sprint) : Sprint :=
  let b := { b with cnt := b.cnt + 1 }
  if b.buf < b.ebuf then { b.store ch with buf := b.buf + 1 } else b

/-- The formatter with the callback `sprintputch`. -/
def ops : Ops Sprint where
  fetch a b := some (b.mem a)
  load a b := some (b.mem a)
  putch := putch

/-- The buffer of `n` bytes before anything is put. -/
def init (mem : Word → Byte) (buf n : Word) : Sprint := ⟨mem, [], buf, buf + n - 1, 0⟩

end Sprint

/-- `vsnprintf`: what is returned, the memory, and the addresses stored to. -/
def vsnprintf (mem : Word → Byte) (buf n fmt : Word) (args : Nat → Word) :
    Option (Word × (Word → Byte) × List Word) := do
  let b := Sprint.init mem buf n
  if buf = 0 ∨ n.slt 1 then some (-3, mem, [])
  else do
    let b ← vprintfmt Sprint.ops args fmt b
    let b := b.store 0
    some (b.cnt, b.mem, b.stores)

/-! ### What is emitted -/

/-- The formatter that only collects what it puts. -/
def collect (fetch load : Word → Option Byte) : Ops (List Word) where
  fetch a _ := fetch a
  load a _ := load a
  putch c out := out ++ [c]

/-- The formatter of `vsnprintf`, recording what it puts. -/
def recorded : Ops (Sprint × List Word) where
  fetch a s := Sprint.ops.fetch a s.1
  load a s := Sprint.ops.load a s.1
  putch c s := (s.1.putch c, s.2 ++ [c])

/-- `out` are the arguments of the calls of `sprintputch` in a call of `vsnprintf`. -/
def Emits (mem : Word → Byte) (buf n fmt : Word) (args : Nat → Word) (out : List Word) : Prop :=
  ∃ b, vprintfmt recorded args fmt (Sprint.init mem buf n, []) = some (b, out)

/-- The memory around the buffer. -/
def outside (mem : Word → Byte) (buf n a : Word) : Option Byte :=
  if (a - buf).toNat < n.toNat then none else some (mem a)

/-- The memory with the first `k` characters of `out` at `buf`. -/
def written (mem : Word → Byte) (buf : Word) (out : List Word) (k : Nat) (a : Word) : Byte :=
  if (a - buf).toNat < k then (out.getD (a - buf).toNat 0).setWidth 8 else mem a

/-- What `vsnprintf` leaves in memory: at most `n - 1` characters and a NUL. -/
def truncated (mem : Word → Byte) (buf n : Word) (out : List Word) (a : Word) : Byte :=
  let k := min out.length (n.toNat - 1)
  if (a - buf).toNat = k then 0 else written mem buf out k a

/-- The addresses from `buf` on. -/
def addresses (buf : Word) (k : Nat) : List Word :=
  (List.range k).map fun i : Nat => buf + BitVec.ofNat 32 i

/-- The state after `out`. -/
def Sprint.after (mem : Word → Byte) (buf n : Word) (out : List Word) : Sprint :=
  let k := min out.length (n.toNat - 1)
  ⟨written mem buf out k, addresses buf k, buf + BitVec.ofNat 32 k, buf + n - 1,
    BitVec.ofNat 32 out.length⟩

section Truncation

variable {mem : Word → Byte} {buf n : Word} {out : List Word}

/-- The offset of the byte `k` of the buffer. -/
theorem sub_buf {k : Nat} (hk : k < 4294967296) (buf : Word) :
    (buf + BitVec.ofNat 32 k - buf).toNat = k := by
  rw [BitVec.add_comm, BitVec.add_sub_cancel, BitVec.toNat_ofNat, Nat.mod_eq_of_lt hk]

theorem sub_buf_inj {a : Word} {k : Nat} (hk : k < 4294967296) (h : (a - buf).toNat = k) :
    a = buf + BitVec.ofNat 32 k := by
  have heq : a - buf = BitVec.ofNat 32 k := by
    rw [← BitVec.toNat_inj, h, BitVec.toNat_ofNat, Nat.mod_eq_of_lt hk]
  rw [← heq, BitVec.add_comm, BitVec.sub_add_cancel]

/-- One more character in the buffer. -/
theorem update_written {ch : Word} (hlt : out.length < 4294967296) :
    Function.update (written mem buf out out.length) (buf + BitVec.ofNat 32 out.length)
        (ch.setWidth 8) =
      written mem buf (out ++ [ch]) (out.length + 1) := by
  funext a
  by_cases ha : a = buf + BitVec.ofNat 32 out.length
  · subst ha
    rw [Function.update_self, written, sub_buf hlt, if_pos (Nat.lt_succ_self _)]
    simp
  · have hne : (a - buf).toNat ≠ out.length := fun h => ha (sub_buf_inj hlt h)
    rw [Function.update_of_ne ha, written, written]
    by_cases hin : (a - buf).toNat < out.length
    · rw [if_pos hin, if_pos (Nat.lt_succ_of_lt hin), List.getD_append _ _ _ _ hin]
    · rw [if_neg hin, if_neg (by omega)]

/-- Characters behind the end of the buffer change nothing in it. -/
theorem written_append {ch : Word} {k : Nat} (hk : k ≤ out.length) :
    written mem buf (out ++ [ch]) k = written mem buf out k := by
  funext a
  rw [written, written]
  by_cases hin : (a - buf).toNat < k
  · rw [if_pos hin, if_pos hin, List.getD_append _ _ _ _ (by omega)]
  · rw [if_neg hin, if_neg hin]

theorem addresses_succ (buf : Word) (k : Nat) :
    addresses buf (k + 1) = addresses buf k ++ [buf + BitVec.ofNat 32 k] := by
  rw [addresses, List.range_succ, List.map_append]
  rfl

theorem Sprint.after_nil : Sprint.after mem buf n [] = Sprint.init mem buf n := by
  have hzero : buf + BitVec.ofNat 32 0 = buf := BitVec.add_zero buf
  rw [Sprint.after, Sprint.init, List.length_nil, Nat.zero_min, hzero]
  rfl

/-- A call of `sprintputch`. -/
theorem Sprint.putch_after (hpos : 0 < n.toNat) (fits : buf.toNat + n.toNat ≤ 4294967296)
    (ch : Word) :
    (Sprint.after mem buf n out).putch ch = Sprint.after mem buf n (out ++ [ch]) := by
  have hend : (buf + n - 1).toNat = buf.toNat + (n.toNat - 1) := by
    rw [BitVec.toNat_sub, BitVec.toNat_add, show (1 : Word).toNat = 1 from rfl]
    omega
  have hcnt : BitVec.ofNat 32 out.length + 1 = BitVec.ofNat 32 (out.length + 1) :=
    (BitVec.ofNat_add _ _).symm
  have hptr : ∀ k ≤ n.toNat - 1, (buf + BitVec.ofNat 32 k).toNat = buf.toNat + k := by
    intro k hk
    rw [BitVec.toNat_add, BitVec.toNat_ofNat]
    omega
  rw [Sprint.after, Sprint.after, List.length_append, List.length_singleton, Sprint.putch]
  by_cases hroom : out.length < n.toNat - 1
  · -- the character is stored
    have hin : buf + BitVec.ofNat 32 out.length < buf + n - 1 := by
      rw [BitVec.lt_def, hend, hptr _ (by omega)]
      omega
    have hnext : buf + BitVec.ofNat 32 out.length + 1 = buf + BitVec.ofNat 32 (out.length + 1) :=
      add_ofNat buf out.length 1
    dsimp only
    rw [Nat.min_eq_left (Nat.le_of_lt hroom), Nat.min_eq_left hroom, if_pos hin, Sprint.store,
      update_written (by omega), addresses_succ, hnext, hcnt]
  · have hfull : ¬buf + BitVec.ofNat 32 (n.toNat - 1) < buf + n - 1 := by
      rw [BitVec.lt_def, hend, hptr _ (by omega)]
      omega
    dsimp only
    rw [Nat.min_eq_right (by omega), Nat.min_eq_right (by omega), if_neg hfull,
      written_append (by omega), hcnt]

/-- The NUL. -/
theorem Sprint.store_after (hpos : 0 < n.toNat) :
    ((Sprint.after mem buf n out).store 0).mem = truncated mem buf n out := by
  have hn := n.isLt
  funext a
  rw [Sprint.store, Sprint.after, truncated]
  dsimp only
  generalize hk : min out.length (n.toNat - 1) = k
  by_cases ha : a = buf + BitVec.ofNat 32 k
  · rw [ha, Function.update_self, sub_buf (by omega), if_pos rfl]
    rfl
  · have hne : (a - buf).toNat ≠ k := fun h => ha (sub_buf_inj (by omega) h)
    rw [Function.update_of_ne ha, if_neg hne]

/-- The run of `vsnprintf` is the recorded one. -/
theorem recorded_rel (hpos : 0 < n.toNat) (fits : buf.toNat + n.toNat ≤ 4294967296) :
    recorded.Rel Sprint.ops fun s b => b = s.1 ∧ s.1 = Sprint.after mem buf n s.2 where
  fetch := by
    rintro s _ ⟨rfl, -⟩ a
    exact .refl _
  load := by
    rintro s _ ⟨rfl, -⟩ a
    exact .refl _
  putch := by
    rintro ⟨b, out⟩ _ ⟨rfl, hb⟩ c
    refine ⟨rfl, ?_⟩
    exact (congrArg (Sprint.putch c) hb).trans (Sprint.putch_after hpos fits c)

/-- A run that reads nothing from the buffer does not depend on what is in it. -/
theorem collect_rel (hpos : 0 < n.toNat) (fits : buf.toNat + n.toNat ≤ 4294967296) :
    (collect (outside mem buf n) (outside mem buf n)).Rel recorded
      fun out s => s = (Sprint.after mem buf n out, out) := by
  have hread : ∀ out a, Sim Eq (outside mem buf n a)
      (some ((Sprint.after mem buf n out).mem a)) := by
    intro out a ch hch
    rw [outside] at hch
    split at hch
    · cases hch
    · refine ⟨_, rfl, (Option.some.inj hch).symm.trans ?_⟩
      exact (if_neg (by omega)).symm
  refine ⟨?_, ?_, ?_⟩
  · rintro out _ rfl a
    exact hread out a
  · rintro out _ rfl a
    exact hread out a
  · rintro out _ rfl c
    exact Prod.ext (Sprint.putch_after hpos fits c) rfl

end Truncation

/-- `vsnprintf` writes what it emits, truncated, and returns its length. What it emits is what
the formatter puts, if this reads nothing from the buffer. -/
theorem vsnprintf_truncates (mem : Word → Byte) (buf n fmt : Word) (args : Nat → Word) :
    (buf = 0 ∨ n.slt 1 → vsnprintf mem buf n fmt args = some (-3, mem, [])) ∧
      (¬(buf = 0 ∨ n.slt 1) → buf.toNat + n.toNat ≤ 4294967296 → ∀ out : List Word,
        (vprintfmt (collect (outside mem buf n) (outside mem buf n)) args fmt [] = some out →
            Emits mem buf n fmt args out) ∧
          (Emits mem buf n fmt args out → out.length < 2147483648 → ∃ ret : Word,
            ret.toInt = out.length ∧
            vsnprintf mem buf n fmt args = some (ret, truncated mem buf n out,
              addresses buf (min out.length (n.toNat - 1) + 1)))) := by
  refine ⟨fun hbad => if_pos hbad, fun hgood fits out => ?_⟩
  have hpos : 0 < n.toNat := by
    rw [Nat.pos_iff_ne_zero]
    intro hzero
    obtain rfl : n = 0 := BitVec.eq_of_toNat_eq hzero
    exact hgood (.inr rfl)
  constructor
  · intro hout
    obtain ⟨_, hrun, rfl⟩ := vprintfmt_sim (collect_rel hpos fits) args fmt
      (Prod.ext Sprint.after_nil.symm rfl :
        (Sprint.init mem buf n, []) = (Sprint.after mem buf n [], [])) out hout
    exact ⟨_, hrun⟩
  · rintro ⟨b, hrun⟩ hlen
    obtain ⟨b', hrun', heq, hb⟩ :=
      vprintfmt_sim (recorded_rel hpos fits) args fmt
        (⟨rfl, Sprint.after_nil.symm⟩ :
          Sprint.init mem buf n = Sprint.init mem buf n ∧ _ = Sprint.after mem buf n []) _ hrun
    replace hb : b' = Sprint.after mem buf n out := heq.trans hb
    refine ⟨BitVec.ofNat 32 out.length, ?_, ?_⟩
    · rw [BitVec.toInt_eq_toNat_of_lt, BitVec.toNat_ofNat, Nat.mod_eq_of_lt (by omega)]
      rw [BitVec.toNat_ofNat]
      omega
    · rw [vsnprintf, if_neg hgood, hrun', hb, ← Sprint.store_after hpos, addresses_succ]
      rfl

/-- The format `a%%b` at 0x1000. -/
def smallFormat (a : Word) : Byte :=
  if a = 0x1000 then 0x61 else if a = 0x1001 then 0x25 else if a = 0x1002 then 0x25
  else if a = 0x1003 then 0x62 else 0

/-- Three characters in a buffer of three bytes: two of them and a NUL are written. -/
theorem vsnprintf_truncates_small : ∃ ret : Word, ret.toInt = 3 ∧
    vsnprintf smallFormat 0x2000 3 0x1000 (fun _ => 0) =
      some (ret, truncated smallFormat 0x2000 3 [0x61, 0x25, 0x62],
        [0x2000, 0x2001, 0x2002]) := by
  obtain ⟨hcollect, hrun⟩ := (vsnprintf_truncates smallFormat 0x2000 3 0x1000 fun _ => 0).2
    (by decide) (by decide) [0x61, 0x25, 0x62]
  exact hrun (hcollect (by decide +kernel)) (by decide)

end Jos.Printfmt
