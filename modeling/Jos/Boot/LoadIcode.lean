import Jos.Boot.Elf

/-!
# What `load_icode` loads

The segments are in the address space of the environment as the image has them, and only
their pages and the page of the stack are mapped.
-/

namespace Jos

open Prog

namespace Elf

/-- A page that `load_icode` maps: one of a segment or the one of the stack. -/
def UsesPage (image : List Byte) (n : Nat) : Prop :=
  (∃ ph ∈ proghdrs image, ph.type = elfProgLoad ∧ ph.Touches n) ∨ n = stackPage

/-- The byte `i` of the segment in memory. -/
def Proghdr.byte (image : List Byte) (ph : Proghdr) (i : Nat) : Byte :=
  if i < ph.filesz.toNat then image.getD (ph.offset.toNat + i) 0 else 0

/-- The page at `va` has a frame of its own, and may be written. -/
structure OwnPage (d : Nat) (va : Word) (q : Phys) : Prop where
  access : q.userAccess d va true
  ref : ∀ pde pte, q.translate d va = some (pde, pte) → q.ref (pgnum pte) = 1
  distinct : ∀ va' < utop, ∀ pde pte pde' pte', q.translate d va = some (pde, pte) →
    q.translate d va' = some (pde', pte') → pgnum pte' = pgnum pte →
    va'.toNat / 4096 = va.toNat / 4096

/-- The image is loaded. -/
structure Loaded (image : List Byte) (d : Nat) (q : Phys) : Prop where
  bytes : ∀ ph ∈ proghdrs image, ph.type = elfProgLoad → ∀ i < ph.memsz.toNat,
    q.byteAt d (ph.va + BitVec.ofNat 32 i) = some (ph.byte image i)
  mapped : ∀ va < utop, q.translate d va ≠ none ↔ UsesPage image (va.toNat / 4096)
  own : ∀ va < utop, UsesPage image (va.toNat / 4096) → OwnPage d va q

/-- Enough pages: two for each page, as it may need a page table. -/
def needs (image : List Byte) : Nat := 2 * (((segments image).map Segment.pages).sum + 1)

section

variable {L : Layout} {dirs : EnvIdx → Option Nat} {p q : Phys} {e : EnvIdx} {d : Nat}
  {image : List Byte} {va : Word} {k : Kernel} {binary : Word}

theorem WellFormed.uses_iff (wf : WellFormed image) (n : Nat) :
    (program image).Uses n ↔ UsesPage image n := by
  refine or_congr ⟨?_, ?_⟩ Iff.rfl
  · rintro ⟨segment, hsegment, hpage⟩
    obtain ⟨ph, hph, hseg⟩ := List.mem_filterMap.mp hsegment
    have type := (Proghdr.segment_some hseg).1
    exact ⟨ph, hph, type, ((wf.ok ph hph type).touches_iff hseg n).mp hpage⟩
  · rintro ⟨ph, hph, type, touches⟩
    have ok := wf.ok ph hph type
    obtain ⟨segment, hseg, -⟩ := ok.exists_segment type
    exact ⟨segment, List.mem_filterMap.mpr ⟨ph, hph, hseg⟩, (ok.touches_iff hseg n).mpr touches⟩

/-- The segments of the image touch different pages. -/
theorem WellFormed.segments_apart (wf : WellFormed image) : (segments image).Pairwise Apart := by
  refine List.pairwise_filterMap.mpr ((List.pairwise_filter.mp wf.apart).imp_of_mem ?_)
  intro a b ha hb apart s hs s' hs' n hn hn'
  have typeA := (Proghdr.segment_some hs).1
  have typeB := (Proghdr.segment_some hs').1
  exact apart (by simpa using typeA) (by simpa using typeB) n
    (((wf.ok a ha typeA).touches_iff hs n).mp hn) (((wf.ok b hb typeB).touches_iff hs' n).mp hn')

theorem translate_ne_none_iff (h : q.Inv L dirs none) (hd : dirs e = some d) (hva : va < utop) :
    q.translate d va ≠ none ↔ q.target dirs (.pte e (pdx va) (ptx va)) ≠ none := by
  constructor
  · intro hmap
    obtain ⟨⟨pde, pte⟩, walk⟩ := Option.ne_none_iff_exists'.mp hmap
    rw [Phys.Inv.target_of_translate hd hva walk]
    exact Option.some_ne_none _
  · intro hmap
    obtain ⟨f, hf⟩ := Option.ne_none_iff_exists'.mp hmap
    have hbyte := h.byteAt_of_target hd hf
    intro hnone
    rw [Phys.byteAt, hnone] at hbyte
    simp at hbyte

/-- The frame of a private page. -/
theorem ownPage (h : q.Inv L dirs none) (hd : dirs e = some d) (hva : va < utop)
    (own : q.Private dirs e (pdx va) (ptx va)) : OwnPage d va q := by
  obtain ⟨f, hf, hentry, hsole⟩ := own
  have htarget : q.target dirs (.pte e (pdx va) (ptx va)) = some f := by
    rw [Phys.target, hentry, entryFrame_mkPte hf (by decide)]
  have hpage : ∀ {pde pte}, q.translate d va = some (pde, pte) → pgnum pte = f := fun walk =>
    Option.some.inj ((Phys.Inv.target_of_translate hd hva walk).symm.trans htarget)
  refine ⟨h.userAccess_of_entry hd hva hf hentry, fun pde pte walk => ?_,
    fun va' hva' pde pte pde' pte' walk walk' heq => ?_⟩
  · rw [hpage walk]
    refine h.counts.ref_eq_one (h.tables.owned _ _ htarget) htarget fun s hs => ?_
    have hplain := h.tables.unshared.page_not_structural htarget
    cases s with
    | dir e' => exact absurd (.inl ⟨e', hs⟩) hplain
    | pde e' i => exact absurd (.inr ⟨e', i, hs⟩) hplain
    | pte e' i j =>
        obtain ⟨rfl, rfl, rfl⟩ := hsole e' i j hs
        rfl
  · have htarget' := Phys.Inv.target_of_translate hd hva' walk'
    rw [heq, hpage walk] at htarget'
    obtain ⟨-, hpdx, hptx⟩ := hsole e _ _ htarget'
    rw [← pageNumber_va va', hpdx, hptx, pageNumber_va]

theorem Proghdr.Ok.data_getD {ph : Proghdr} {segment : Segment} (ok : ph.Ok image)
    (hseg : ph.segment image = some segment) (i : Nat) :
    segment.data.getD i 0 = ph.byte image i := by
  obtain ⟨-, -, -, hdata⟩ := Proghdr.segment_some hseg
  have hfile := ok.file
  have hlen : segment.data.length = ph.filesz.toNat := by
    rw [hdata, List.length_take, List.length_drop]
    omega
  rw [Proghdr.byte]
  by_cases hi : i < ph.filesz.toNat
  · rw [if_pos hi, List.getD_eq_getElem _ _ (by omega), List.getD_eq_getElem _ _ (by omega)]
    simp only [hdata, List.getElem_take, List.getElem_drop]
  · rw [if_neg hi, List.getD_eq_default _ _ (by omega)]

/-- In an address space with nothing in it, the program of the image is what is loaded. -/
theorem loaded_of_fills (hp : p.Inv L dirs none) (hq : q.Inv L dirs none) (hd : dirs e = some d)
    (wf : WellFormed image) (empty : ∀ va < utop, p.translate d va = none)
    (fills : Phys.Fills dirs e (program image).Uses p q)
    (loaded : ∀ segment ∈ segments image, segment.Loaded dirs e q) : Loaded image d q := by
  refine ⟨fun ph hph type i hi => ?_, fun va hva => ?_, fun va hva huses => ?_⟩
  · have ok := wf.ok ph hph type
    obtain ⟨segment, hseg, hbase, hmemsz, -⟩ := ok.exists_segment type
    obtain ⟨f, hf, hbyte⟩ :=
      loaded segment (List.mem_filterMap.mpr ⟨ph, hph, hseg⟩) i (by rwa [hmemsz])
    rw [hbase] at hf hbyte
    rw [hq.byteAt_of_target hd hf, hbyte, ok.data_getD hseg]
  · rw [translate_ne_none_iff hq hd hva, ← wf.uses_iff, ← pageNumber_va va]
    by_cases huses : (program image).Uses (pageNumber (pdx va) (ptx va))
    · obtain ⟨f, hf, -⟩ := (fills.mapped _ _ huses).target
      simp [hf, huses]
    · have hsame : q.target dirs (.pte e (pdx va) (ptx va)) =
          p.target dirs (.pte e (pdx va) (ptx va)) := fills.target fun hin => huses hin.2
      have hnone := (translate_ne_none_iff hp hd hva).not.mp (not_not.mpr (empty va hva))
      rw [hsame]
      exact iff_of_false hnone huses
  · rw [← wf.uses_iff, ← pageNumber_va va] at huses
    exact ownPage hq hd hva (fills.mapped _ _ huses)

/-- `load_icode` loads what the image says into an empty address space, if there is enough
memory; only the entry point and the segments of the image matter. -/
theorem load_icode_loads (h : MemInv L k) (hd : k.dirs e = some d)
    (empty : ∀ va < utop, k.phys.translate d va = none) (linked : Linked L image binary)
    (wf : WellFormed image) :
    (∀ k', loadIcode e binary k = .ret () k' →
      Loaded image d k'.phys ∧ (k'.envs e).tf.eip = entry image) ∧
    (k.phys.FreePages (needs image) → ∃ k', loadIcode e binary k = .ret () k') ∧
    ∀ image' binary', Linked L image' binary' → WellFormed image' → entry image' = entry image →
      segments image' = segments image → loadIcode e binary' k = loadIcode e binary k := by
  have hspec := loadIcode_spec h hd wf.loadable
  have heq := loadIcode_eq h hd linked wf
  refine ⟨fun k' hrun => ?_, fun room => ?_, fun image' binary' linked' wf' hentry hsegments => ?_⟩
  · obtain ⟨q, rfl, hq, fills, loaded, -⟩ := (wp_ret (heq.symm.trans hrun)).mp hspec
    refine ⟨loaded_of_fills h.phys hq hd wf empty fills (loaded wf.segments_apart), ?_⟩
    simp [Kernel.setTf, program]
  · obtain ⟨⟨⟩, k', hrun, -⟩ := exists_of_wp (wp_mono hspec (fun _ _ hs => hs) (fun _ _ hf => hf)
      fun _ hpanic => hpanic room)
    exact ⟨k', heq.trans hrun⟩
  · have hprogram : program image' = program image := by
      rw [program, program, hentry, hsegments, wf'.magic, wf.magic]
    rw [heq, loadIcode_eq h hd linked' wf', hprogram]

end

/-! ### A program image in the kernel -/

/-- A note and a segment of eight bytes: `int $0x30` and zeros. -/
def intImage : List Byte :=
  [0x7F, 0x45, 0x4C, 0x46] ++ List.replicate 20 0 ++ [0x20, 0, 0x80, 0] ++ [52, 0, 0, 0] ++
    List.replicate 12 0 ++ [2, 0] ++ List.replicate 6 0 ++
    ([4, 0, 0, 0] ++ List.replicate 28 0) ++
    ([1, 0, 0, 0] ++ [116, 0, 0, 0] ++ [0x20, 0, 0x80, 0] ++ List.replicate 4 0 ++ [2, 0, 0, 0] ++
      [8, 0, 0, 0] ++ List.replicate 8 0) ++ [0xCD, 0x30]

theorem intImage_proghdrs :
    proghdrs intImage = [⟨4, 0, 0, 0, 0⟩, ⟨1, 116, 0x800020, 2, 8⟩] := by decide

theorem intImage_wellFormed : WellFormed intImage := by
  refine ⟨by decide, by decide, by decide, ?_, ?_⟩
  · rw [intImage_proghdrs]
    intro ph hph type
    rcases List.mem_cons.mp hph with rfl | hph
    · exact absurd type (by decide)
    · obtain rfl := List.mem_singleton.mp hph
      exact ⟨by decide, by decide, by decide, by decide⟩
  · rw [intImage_proghdrs]
    exact List.pairwise_singleton _ _

/-- The page with the image. -/
def intPage : Page := fun i => intImage.getD i 0

end Elf

section Image

variable {m : Machine} {n f : Nat} {l : List Nat} {p : Phys}

/-- The pages of the kernel image do not matter for its page tables. -/
theorem KernTree.setPage (h : KernTree m.toHardware n l p) (reserved : ¬ m.Free f)
    (hne : m.kernPgdir ≠ f) (page : Page) :
    KernTree m.toHardware n l (p.setPage f page) ∧
      ∀ va, pdx va ≠ pdx uvpt →
        (p.setPage f page).translate m.kernPgdir va = p.translate m.kernPgdir va := by
  have hword : ∀ i, (p.setPage f page).word m.kernPgdir i = p.word m.kernPgdir i :=
    fun i => p.word_congr (p.mem_setPage_of_ne _ hne)
  have htable : ∀ i j, i ≠ pdx uvpt → p.word m.kernPgdir i &&& pteP ≠ 0 →
      (p.setPage f page).word (pgnum (p.word m.kernPgdir i)) j =
        p.word (pgnum (p.word m.kernPgdir i)) j := by
    intro i j hi hp
    refine p.word_congr (p.mem_setPage_of_ne _ ?_)
    rintro rfl
    exact reserved (h.table i hi hp).1
  refine ⟨⟨h.npages, h.userPages, h.free, h.managed, h.reserved, ?_, ?_, ?_, ?_, ?_, ?_⟩,
    fun va hva => ?_⟩
  · simpa only [hword] using h.user
  · rw [hword]
    exact h.self
  · simpa only [hword] using h.table
  · simpa only [hword] using h.distinct
  · intro i j hi
    rw [hword]
    intro hp
    rw [htable i j hi hp]
    exact h.readonly i j hi hp
  · simpa only [hword] using h.room
  · rw [Phys.translate, Phys.translate, hword]
    dsimp only
    split
    · rfl
    · rename_i hp
      rw [htable _ _ hva hp]

namespace Elf

/-- After `mem_init`, with the image in page 300. -/
theorem qemu_image : ∃ n l p, ∃ h : KernTree qemu.toHardware n l p,
    Linked h.layout intImage 0xF012C000 ∧ 5 ≤ l.length := by
  obtain ⟨p₁, hrun, room, test⟩ := qemu_memInitStart
  obtain ⟨q₁, l₁, hrun₁, h₁, hfree, -⟩ := KernTree.start qemu
  obtain rfl : q₁ = p₁ := by
    rw [hrun₁] at hrun
    simpa using hrun
  have hlen := qemu.length_free hfree
  have hsize : 2048 ≤ qemu.npages - qemu.firstFree := by decide
  have hne : l₁ ≠ [] := by
    rintro rfl
    rw [List.length_nil] at hlen
    omega
  obtain ⟨p₂, l₂, hrun₂, h₂⟩ := h₁.memInitRest hne
  obtain ⟨base, p₃, n₃, l₃, hrun₃, h₃, hM⟩ := KernTree.memInitRest_entries hrun room test
  obtain ⟨-, rfl⟩ := Outcome.ret.inj (hrun₂.symm.trans hrun₃)
  have hmaps := (h₃.kernelSpace hM).mapsKernbase
  have hlen₂ := h₂.length_ge
  have reserved : ¬ qemu.Free 300 := by
    rintro ⟨-, -, ⟨hlt, -⟩ | ⟨-, -, hnot⟩⟩
    · exact absurd hlt (by decide)
    · exact hnot (by decide)
  obtain ⟨htree, hsame⟩ := h₂.setPage reserved (by decide) intPage
  refine ⟨_, _, _, htree, ⟨by decide, by decide, fun i hi => ?_⟩, by omega⟩
  have hlt : i < 118 := hi
  generalize hva : 0xF012C000 + BitVec.ofNat 32 i = va
  have hnat : va.toNat = 4027760640 + i := by
    rw [← hva, BitVec.toNat_add, BitVec.toNat_ofNat,
      show (0xF012C000 : Word).toNat = 4027760640 from rfl]
    omega
  have hbase : kernbase.toNat = 4026531840 := by decide
  have hlow : kernbase ≤ va := by
    rw [BitVec.le_def]
    omega
  have hpdx : pdx va ≠ pdx uvpt := by
    intro heq
    have hval := pdx_val va
    rw [heq, show (pdx uvpt).val = 957 by decide] at hval
    omega
  obtain ⟨pde, pte, walk, -, -, hnum⟩ := hmaps va hlow
  have hpage : pgnum pte = 300 := by
    rw [hnum, pgnum_eq, BitVec.toNat_sub]
    omega
  have hoff : pgoff va = i := by
    rw [pgoff_eq]
    omega
  refine ⟨pde, pte, (hsame va hpdx).trans walk, ?_, ?_⟩
  · rw [hpage]
    exact fun hin => reserved (h₂.managed 300 hin).1
  · rw [hpage, hoff]
    change Function.update p₂.mem 300 intPage 300 i = _
    rw [Function.update_self]
    rfl

/-- The first environment gets the program; the note in the image is no part of it. -/
theorem load_icode_loads_int : ∃ k d k', loadIcode 0 0xF012C000 k = .ret () k' ∧
    Loaded intImage d k'.phys ∧ (k'.envs 0).tf.eip = 0x800020 ∧
    k'.phys.byteAt d 0x800020 = some 0xCD ∧ k'.phys.byteAt d 0x800022 = some 0 ∧
    k'.phys.translate d 0 = none := by
  obtain ⟨n, l, p, htree, linked, hlen⟩ := qemu_image
  have h := htree.memInv
  obtain ⟨hphys, hkern, -, head, -, hzero, hidle⟩ := envInit_spec qemu.toHardware p
  generalize envInit qemu.toHardware p = k₀ at h hphys hkern head hzero hidle
  have room : k₀.phys.FreePages 5 := by
    rw [hphys]
    exact ⟨l, htree.free, hlen⟩
  obtain ⟨d, hpage⟩ := room.head
  have hnone : k₀.dirs 0 = none := congrArg Env.pgdir (hzero 0)
  have h₁ := h.created hidle.slots head hpage 0
  have hdirs : ({ k₀.created 0 0 d with phys := k₀.phys.newDir k₀.kernPgdir d } : Kernel).dirs =
      Function.update k₀.dirs 0 (some d) := by
    funext e
    by_cases he : e = 0
    · subst he
      simp [Kernel.dirs, Kernel.created]
    · simp [Kernel.dirs, Kernel.created, Kernel.setEnv_envs_of_ne _ he, Function.update_of_ne he]
  generalize hk : ({ k₀.created 0 0 d with phys := k₀.phys.newDir k₀.kernPgdir d } : Kernel) = k
    at h₁ hdirs
  have hd : k.dirs 0 = some d := by rw [hdirs, Function.update_self]
  have hphys₁ : k.phys = k₀.phys.newDir htree.layout.kern d := by rw [← hk, ← h.kern]
  have empty : ∀ va < utop, k.phys.translate d va = none := by
    intro va hva
    by_contra hmap
    refine (translate_ne_none_iff h₁.phys hd hva).mp hmap ?_
    rw [Phys.target, hphys₁, hdirs, (h.phys.newDir hpage hnone).2.1,
      Phys.pteAt_of_none (by simp [Phys.target, Phys.pdeAt, hnone])]
    exact entryFrame_zero
  obtain ⟨hloads, htotal, -⟩ := load_icode_loads h₁ hd empty linked intImage_wellFormed
  have hroom : k.phys.FreePages (needs intImage) := by
    rw [hphys₁]
    exact newDir_freePages (n := 4) room hpage
  obtain ⟨k', hrun⟩ := htotal hroom
  obtain ⟨hloaded, heip⟩ := hloads k' hrun
  have hsegment := hloaded.bytes ⟨1, 116, 0x800020, 2, 8⟩
    (by rw [intImage_proghdrs]; exact List.mem_cons_of_mem _ (List.mem_singleton_self _)) rfl
  refine ⟨k, d, k', hrun, hloaded, heip, hsegment 0 (by decide), hsegment 2 (by decide), ?_⟩
  by_contra hmap
  rcases (hloaded.mapped 0 (by decide)).mp hmap with ⟨ph, hph, type, i, hi, hn⟩ | hstack
  · rw [intImage_proghdrs] at hph
    rcases List.mem_cons.mp hph with rfl | hph
    · exact absurd type (by decide)
    · obtain rfl := List.mem_singleton.mp hph
      have hfirst : (8388640 + i) / 4096 = 0 := hn
      omega
  · exact absurd hstack (by decide)

end Elf

end Image

end Jos
