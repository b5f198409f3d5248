import Jos.User.CowFamily
import Jos.User.Execute

/-!
# The code of a member

What a member of a family stores to pages of its own is seen by nobody else. `Ran` says what
such code leaves as it was, and `Shows` that the registers and the memory are those of a
`UserState`: each instruction that is executed there is executed on the kernel.
-/

namespace Jos

open Prog

variable {L : Layout} {k k' k'' : Kernel} {c d : Nat} {cur e : EnvIdx} {va : Word}
  {handler : Word} {G : Set EnvIdx}

theorem Kernel.page_of_present (h : k.entryAt e va &&& pteP ≠ 0) :
    ∃ f, k.pageAt e va = some f := ⟨_, Kernel.pte_present h⟩

theorem memberPage_utop (h : MemberPage va) : va < utop := by
  obtain hva | hva := h
  · exact forkPage_utop hva
  · have hval := onStack_iff.mp hva
    have htop : utop.toNat = 4005560320 := by decide
    rw [BitVec.lt_def]
    omega

/-- The member writes the page at `va` in place. -/
structure Kernel.Owns (k : Kernel) (e : EnvIdx) (va : Word) : Prop where
  member : MemberPage va
  page : ∃ f, k.pageAt e va = some f
  write : UserPte (k.entryAt e va) true

theorem Kernel.Owns.mayRead (h : k.Owns e va) : k.MayRead e va := by
  obtain ⟨f, hf⟩ := h.page
  exact ⟨Kernel.entry_present hf, h.write.1⟩

theorem Kernel.Owns.congr (h : k.Owns e va) (pte : ∀ e i j, k'.pte e i j = k.pte e i j) :
    k'.Owns e va := by
  have hentry : k'.entryAt e va = k.entryAt e va := pte e _ _
  obtain ⟨f, hf⟩ := h.page
  refine ⟨h.member, ⟨f, ?_⟩, by rw [hentry]; exact h.write⟩
  exact (congrArg entryFrame hentry).trans hf

/-- The same entries, the same mappings. -/
theorem Kernel.mappings_congr (pte : ∀ e i j, k'.pte e i j = k.pte e i j) (f : Nat) :
    k'.mappings f = k.mappings f := by
  ext ⟨e, i, j⟩
  rw [Kernel.mem_mappings, Kernel.mem_mappings, Kernel.target_pte, Kernel.target_pte, pte]

/-- Pages that are marked have been replaced, by pages that are mapped nowhere else. -/
structure Kernel.Copies (k : Kernel) (cur : EnvIdx) (k' : Kernel) : Prop where
  marked : ∀ i j, InLoop loopPages i j →
    k'.pte cur i j = k.pte cur i j ∨ k.pte cur i j &&& pteCow ≠ 0
  frames : ∀ f, k'.mappings f ⊆ k.mappings f ∨ ∃ x, k'.mappings f ⊆ {x}

namespace Kernel.Copies

theorem of_pte (pte : ∀ e i j, k'.pte e i j = k.pte e i j) : k.Copies cur k' :=
  ⟨fun i j _ => .inl (pte cur i j), fun f => .inl (Kernel.mappings_congr pte f).le⟩

theorem trans (h : k.Copies cur k') (h' : k'.Copies cur k'') : k.Copies cur k'' := by
  refine ⟨fun i j hin => ?_, fun f => ?_⟩
  · obtain hsame | hcow := h.marked i j hin
    · rw [← hsame]
      exact h'.marked i j hin
    · exact .inr hcow
  · obtain hsub' | hnew := h'.frames f
    · exact (h.frames f).imp hsub'.trans fun ⟨x, hx⟩ => ⟨x, hsub'.trans hx⟩
    · exact .inr hnew

end Kernel.Copies

/-- `cur` has run: it has written the bytes `W` of its own memory, and used up to `m` free pages for
copies. -/
structure Ran (L : Layout) (handler : Word) (G : Set EnvIdx) (c : Nat) (cur : EnvIdx) (d : Nat)
    (W : Set Word) (m : Nat) (k k' : Kernel) : Prop where
  family : CowFamily L handler G k'
  executes : k'.Executes c cur d
  access : k.KeepsAccess G k'
  owns : ∀ va, k.Owns cur va → k'.Owns cur va
  view : ∀ e va, e ≠ cur ∨ MemberPage va ∧ va ∉ W → k'.viewAt e va = k.viewAt e va
  pte : ∀ e i j, e ≠ cur ∨ m = 0 → k'.pte e i j = k.pte e i j
  copies : k.Copies cur k'
  like : ({ k with phys := k'.phys } : Kernel).Like k'
  room : ∀ n, k.phys.FreePages (n + m) → k'.phys.FreePages n

namespace Ran

variable {W W' : Set Word} {m m' : Nat}

theorem refl (h : CowFamily L handler G k) (hx : k.Executes c cur d) :
    Ran L handler G c cur d W 0 k k :=
  ⟨h, hx, .of_pte fun _ _ _ => rfl, fun _ ho => ho, fun _ _ _ => rfl, fun _ _ _ _ => rfl,
    .of_pte fun _ _ _ => rfl, .refl k, fun _ hn => hn⟩

theorem trans (h : Ran L handler G c cur d W m k k') (h' : Ran L handler G c cur d W m' k' k'') :
    Ran L handler G c cur d W (m + m') k k'' := by
  refine ⟨h'.family, h'.executes, h.access.trans h'.access, fun va ho => h'.owns va (h.owns va ho),
    fun e va hva => (h'.view e va hva).trans (h.view e va hva),
    fun e i j hpte => (h'.pte e i j (hpte.imp_right fun hz => by omega)).trans
      (h.pte e i j (hpte.imp_right fun hz => by omega)), h.copies.trans h'.copies,
    (h.like.withPhys k''.phys).trans h'.like, fun n hn => h'.room n (h.room _ ?_)⟩
  rwa [Nat.add_assoc, Nat.add_comm m' m]

theorem mono (h : Ran L handler G c cur d W m k k') (hW : W ⊆ W') (hm : m ≤ m') :
    Ran L handler G c cur d W' m' k k' := by
  refine ⟨h.family, h.executes, h.access, h.owns,
    fun e va hva => h.view e va (hva.imp_right fun hin => ⟨hin.1, fun hW' => hin.2 (hW hW')⟩),
    fun e i j hpte => h.pte e i j (hpte.imp_right fun hz => by omega), h.copies, h.like,
    fun n hn => h.room n (hn.mono (by omega))⟩

/-- Where it may read it still may. -/
theorem mayRead (h : Ran L handler G c cur d W m k k') (he : cur ∈ G) (hva : MemberPage va)
    (may : k.MayRead cur va) : k'.MayRead cur va := by
  obtain hva | ⟨hi, hj⟩ := hva
  · exact (h.access cur he va hva).2 may
  · obtain ⟨⟨g, hg⟩, hpte⟩ := h.family.stack cur he
    have hentry : k'.entryAt cur va = k'.entryAt cur uxstack := by
      rw [Kernel.entryAt, hi, hj, ← Kernel.entryAt]
    rw [Kernel.MayRead, hentry]
    exact ⟨Kernel.entry_present hg, hpte.1⟩

end Ran

theorem probe_page {f : Nat} (hcr3 : (k.cpus c).cr3 = d) (h : k.phys.UserPage d va f true) :
    probe c va k = .ret () k := by
  obtain ⟨pde, pte, walk, -, hpde, hpte, hwrite⟩ := h
  rw [probe, get_bind, hcr3, walk]
  dsimp only
  rw [if_neg (by
    rintro (hz | hz | hz | hz)
    exacts [hpde hz, hpte hz, (hwrite rfl).1 hz, (hwrite rfl).2 hz])]
  rfl

theorem probes_page {n : Nat} (hcr3 : (k.cpus c).cr3 = d)
    (h : ∀ i < n, ∃ f, k.phys.UserPage d (va + BitVec.ofNat 32 i) f true) :
    forRange n (fun i => probe c (va + BitVec.ofNat 32 i)) k = .ret () k := by
  induction n with
  | zero => rfl
  | succ n ih =>
      obtain ⟨f, hf⟩ := h n (Nat.lt_succ_self n)
      rw [forRange, bind_ret _ (ih fun i hi => h i (by omega))]
      exact probe_page hcr3 hf

namespace CowFamily

/-- A page that is written in place is mapped nowhere else. -/
theorem sole_of_owns (h : CowFamily L handler G k) (he : cur ∈ G) (owns : k.Owns cur va) :
    k.frames.Sole (cur, pdx va, ptx va) := by
  refine h.sole cur he _ _ ?_
  obtain hva | hva := owns.member
  · exact .inl ⟨hva, owns.write.2 rfl⟩
  · exact .inr hva

/-- The exception stack is written in place. -/
theorem owns_stack (h : CowFamily L handler G k) (he : cur ∈ G) (hva : OnStack va) :
    k.Owns cur va := by
  obtain ⟨⟨g, hg⟩, hpte⟩ := h.stack cur he
  have hentry : k.entryAt cur va = k.entryAt cur uxstack := by
    rw [Kernel.entryAt, hva.1, hva.2, ← Kernel.entryAt]
  exact ⟨.inr hva, ⟨g, (congrArg entryFrame hentry).trans hg⟩, by rwa [hentry]⟩

/-- So is every other page with `PTE_W`. -/
theorem owns_fork (h : CowFamily L handler G k) (he : cur ∈ G) (hva : ForkPage va)
    (hp : k.entryAt cur va &&& pteP ≠ 0) (hw : k.entryAt cur va &&& pteW ≠ 0) : k.Owns cur va :=
  ⟨.inl hva, Kernel.page_of_present hp, h.user cur he _ _ hva hp (.inl hw), fun _ => hw⟩

section Step

variable (h : CowFamily L handler G k) (he : cur ∈ G) (hx : k.Executes c cur d)

include h he hx

theorem userPage {f : Nat} (owns : k.Owns cur va) (hf : k.pageAt cur va = some f) :
    k.phys.UserPage d va f true :=
  ((h.inUser he hx).userPage_iff (memberPage_utop owns.member)).mpr ⟨hf, owns.write⟩

/-- Other contents of a page that is written in place. -/
theorem setPage_ran {f : Nat} (owns : k.Owns cur va) (hf : k.pageAt cur va = some f) {W : Set Word}
    {m : Page} (rest : ∀ a, pdx a = pdx va → ptx a = ptx va → a ∉ W →
      m (pgoff a) = k.phys.mem f (pgoff a)) :
    Ran L handler G c cur d W 0 k { k with phys := k.phys.setPage f m } := by
  obtain ⟨hfamily, hwrites, hpte⟩ := h.setPage hf m
  have hsole := h.sole_of_owns he owns
  refine ⟨hfamily, ⟨hx.unlocked, hx.cpu, hx.running, hx.pgdir⟩, .of_pte hpte,
    fun a ho => ho.congr hpte, fun e' a hin => ?_, fun e' i j _ => hpte e' i j, .of_pte hpte,
    .refl _, fun n hn => hn.congr rfl rfl⟩
  by_cases hslot : (e', pdx a, ptx a) = (cur, pdx va, ptx va)
  · obtain ⟨rfl, hpdx, hptx⟩ : e' = cur ∧ pdx a = pdx va ∧ ptx a = ptx va := by simpa using hslot
    have hold : k.pageAt e' a = some f := by rw [Kernel.pageAt, hpdx, hptx, ← Kernel.pageAt, hf]
    have hnew : Kernel.pageAt { k with phys := k.phys.setPage f m } e' a = some f :=
      (congrArg entryFrame (hpte e' _ _)).trans hold
    have hmem : (k.phys.setPage f m).mem f = m := by simp [Phys.setPage]
    rw [Kernel.viewAt, Kernel.viewAt, hnew, hold, Option.map_some, Option.map_some, hmem,
      rest a hpdx hptx (hin.resolve_left fun hne => hne rfl).2]
  · exact Kernel.viewAt_congr (hwrites.view_of_ne hsole hslot)

/-- A store to a page that is written in place. -/
theorem put (owns : k.Owns cur va) (b : Byte) :
    ∃ k', store c va b k = .ret () k' ∧ Ran L handler G c cur d {va} 0 k k' ∧
      k'.viewAt cur va = some b := by
  obtain ⟨f, hf⟩ := owns.page
  have hran := h.setPage_ran he hx owns hf (W := {va})
    (m := Function.update (k.phys.mem f) (pgoff va) b) fun a hpdx hptx hne => by
      refine Function.update_of_ne (fun hoff => hne ?_) _ _
      exact va_eq_of_page hpdx hptx hoff
  refine ⟨_, store_page (h.inUser he hx).cr3 (h.userPage he hx owns hf) b, hran, ?_⟩
  have hnew : Kernel.pageAt { k with phys := k.phys.setByte f (pgoff va) b } cur va = some f :=
    (congrArg entryFrame ((h.setPage hf _).2.2 cur _ _)).trans hf
  have hmem : (k.phys.setByte f (pgoff va) b).mem f (pgoff va) = b := by
    simp [Phys.setByte, Phys.setPage]
  rw [Kernel.viewAt, hnew, Option.map_some, hmem]

theorem probes_owned {n : Nat} (owns : ∀ i < n, k.Owns cur (va + BitVec.ofNat 32 i)) :
    forRange n (fun i => probe c (va + BitVec.ofNat 32 i)) k = .ret () k :=
  probes_page (congrArg Cpu.cr3 hx.cpu) fun i hi => by
    obtain ⟨f, hf⟩ := (owns i hi).page
    exact ⟨f, h.userPage he hx (owns i hi) hf⟩

/-- The bytes of a word, one after the other. -/
theorem puts {n : Nat} (hn : n ≤ 4) (w : Word)
    (owns : ∀ i < 4, k.Owns cur (va + BitVec.ofNat 32 i)) :
    ∃ k', forRange n (fun i => store c (va + BitVec.ofNat 32 i) (w.extractLsb' (8 * i) 8)) k =
        .ret () k' ∧
      Ran L handler G c cur d {a | Bytes.InWord va a} 0 k k' ∧
      ∀ i < n, k'.viewAt cur (va + BitVec.ofNat 32 i) = some (w.extractLsb' (8 * i) 8) := by
  induction n with
  | zero => exact ⟨k, rfl, .refl h hx, fun i hi => absurd hi (by omega)⟩
  | succ n ih =>
      obtain ⟨k₁, hrun₁, hran₁, hview₁⟩ := ih (by omega)
      have hn' := hran₁.owns _ (owns n (by omega))
      obtain ⟨k₂, hrun₂, hran₂, hview₂⟩ := hran₁.family.put he hran₁.executes hn'
        (w.extractLsb' (8 * n) 8)
      have hin : {va + BitVec.ofNat 32 n} ⊆ {a | Bytes.InWord va a} := by
        rw [Set.singleton_subset_iff, Set.mem_ofPred_eq, Bytes.InWord, Bytes.add_sub_self_nat (by omega)]
        omega
      refine ⟨k₂, ?_, hran₁.trans (hran₂.mono hin (Nat.le_refl 0)), fun i hi => ?_⟩
      · rw [forRange, bind_ret _ hrun₁]
        exact hrun₂
      · by_cases heq : i = n
        · rw [heq, hview₂]
        · have hne : va + BitVec.ofNat 32 i ≠ va + BitVec.ofNat 32 n := by
            intro hsame
            have hi' := Bytes.add_sub_self_nat (a := va) (i := i) (by omega)
            rw [hsame, Bytes.add_sub_self_nat (by omega)] at hi'
            omega
          rw [hran₂.view cur _ (.inr ⟨(owns i (by omega)).member, hne⟩)]
          exact hview₁ i (by omega)

/-- A store of a word to pages that are written in place. -/
theorem putWord (w : Word) (owns : ∀ i < 4, k.Owns cur (va + BitVec.ofNat 32 i)) :
    ∃ k', storeWord c va w k = .ret () k' ∧
      Ran L handler G c cur d {a | Bytes.InWord va a} 0 k k' ∧
      ∀ i < 4, k'.viewAt cur (va + BitVec.ofNat 32 i) = some (w.extractLsb' (8 * i) 8) := by
  obtain ⟨k', hrun, hran, hview⟩ := h.puts he hx (Nat.le_refl 4) w owns
  refine ⟨k', ?_, hran, hview⟩
  rw [storeWord, bind_ret _ (h.probes_owned he hx owns)]
  exact hrun

end Step

end CowFamily

/-! ### Registers and memory -/

/-- The registers of `cur` are those of `u`, and its memory is that of `u` where `u` may read. -/
structure Shows (k : Kernel) (cur : EnvIdx) (r : Registers) (u : UserState) : Prop where
  regs : r.regs = u.regs
  eip : r.eip = u.eip
  eflags : r.eflags = u.eflags
  bytes : ∀ a, u.readable a → MemberPage a ∧ k.MayRead cur a ∧ k.viewAt cur a = some (u.mem a)
  owns : ∀ a, u.writable a → u.readable a ∧ k.Owns cur a

namespace Shows

variable {r : Registers} {u u' : UserState} {a w : Word} {W : Set Word} {m : Nat}

/-- Code that writes elsewhere. -/
theorem ran (s : Shows k cur r u) (hran : Ran L handler G c cur d W m k k') (he : cur ∈ G)
    (apart : ∀ a, u.readable a → a ∉ W) : Shows k' cur r u := by
  refine ⟨s.regs, s.eip, s.eflags, fun a ha => ?_, fun a ha => ?_⟩
  · obtain ⟨hpage, hread, hview⟩ := s.bytes a ha
    refine ⟨hpage, hran.mayRead he hpage hread, ?_⟩
    rw [hran.view cur a (.inr ⟨hpage, apart a ha⟩), hview]
  · exact ⟨(s.owns a ha).1, hran.owns a (s.owns a ha).2⟩

theorem setReg (s : Shows k cur r u) (x : Reg) (w : Word) :
    Shows k cur (r.setReg x w) (u.setReg x w) :=
  ⟨by rw [Registers.setReg, s.regs]; rfl, s.eip, s.eflags, s.bytes, s.owns⟩

theorem setEip (s : Shows k cur r u) (w : Word) : Shows k cur { r with eip := w } (u.setEip w) :=
  ⟨s.regs, rfl, s.eflags, s.bytes, s.owns⟩

theorem setEflags (s : Shows k cur r u) (w : Word) :
    Shows k cur { r with eflags := w } (u.setEflags w) :=
  ⟨s.regs, s.eip, rfl, s.bytes, s.owns⟩

theorem setStatusFlags (s : Shows k cur r u) (flags : Word) :
    Shows k cur (r.setStatusFlags flags) (u.setStatusFlags flags) := by
  rw [Registers.setStatusFlags, s.eflags]
  exact s.setEflags _

theorem load_byte (s : Shows k cur r u) (hu : InUser L c cur d k) (ha : u.readable a) :
    Jos.load c a k = .ret (u.mem a) k := by
  obtain ⟨hpage, hread, hview⟩ := s.bytes a ha
  obtain ⟨f, hf⟩ := Kernel.page_of_present hread.1
  have huser : k.phys.UserPage d a f false := (hu.userPage_iff (memberPage_utop hpage)).mpr
    ⟨hf, hread.2, fun hno => absurd hno (by decide)⟩
  rw [Kernel.viewAt, hf, Option.map_some] at hview
  rw [load_page hu.cr3 huser, Option.some.inj hview]

theorem load (s : Shows k cur r u) (hu : InUser L c cur d k) (h : u.load a = some w) :
    loadWord c a k = .ret w k := by
  rw [UserState.load] at h
  split at h
  · rename_i can
    have hbyte : ∀ i < 4, Jos.load c (a + BitVec.ofNat 32 i) k =
        .ret (u.mem (a + BitVec.ofNat 32 i)) k := fun i hi => s.load_byte hu (can i hi)
    have hzero := hbyte 0 (by decide)
    rw [show a + BitVec.ofNat 32 0 = a from BitVec.add_zero a] at hzero
    rw [← Option.some.inj h, loadWord, bind_ret _ hzero]
    refine (bind_ret _ (hbyte 1 (by decide))).trans ?_
    refine (bind_ret _ (hbyte 2 (by decide))).trans ?_
    exact (bind_ret _ (hbyte 3 (by decide))).trans rfl
  · simp at h

theorem pop (s : Shows k cur r u) (hu : InUser L c cur d k) (h : u.pop = some (w, u')) :
    ∃ r', r.pop c k = .ret (w, r') k ∧ Shows k cur r' u' ∧ u'.writable = u.writable := by
  rw [UserState.pop] at h
  obtain ⟨w', hload, hw⟩ := Option.bind_eq_some_iff.mp h
  obtain ⟨rfl, rfl⟩ := Prod.mk.inj (Option.some.inj hw)
  have hesp : r.regs .esp = u.regs .esp := congrFun s.regs .esp
  refine ⟨r.setReg .esp (r.regs .esp + 4), ?_, ?_, rfl⟩
  · rw [Registers.pop, hesp, bind_ret _ (s.load hu hload)]
    rfl
  · rw [hesp]
    exact s.setReg _ _

section Step

variable (s : Shows k cur r u) (h : CowFamily L handler G k) (he : cur ∈ G)
  (hx : k.Executes c cur d)

include s h he hx

theorem store (hst : u.store a w = some u') :
    ∃ k', storeWord c a w k = .ret () k' ∧ Shows k' cur r u' ∧
      Ran L handler G c cur d {a | u.writable a} 0 k k' ∧ u'.writable = u.writable := by
  rw [UserState.store] at hst
  split at hst
  · rename_i can
    obtain ⟨k', hrun, hran, hview⟩ := h.putWord he hx w fun i hi => (s.owns _ (can i hi)).2
    have hin : ∀ b, Bytes.InWord a b → ∃ i < 4, b = a + BitVec.ofNat 32 i := by
      intro b hb
      refine ⟨(b - a).toNat, hb, ?_⟩
      rw [BitVec.ofNat_toNat, BitVec.setWidth_eq, BitVec.add_comm, BitVec.sub_add_cancel]
    rw [← Option.some.inj hst]
    refine ⟨k', hrun, ⟨s.regs, s.eip, s.eflags, fun b hb => ?_, fun b hb => ?_⟩,
      hran.mono (fun b hb => ?_) (Nat.le_refl 0), rfl⟩
    · obtain ⟨hpage, hread, hold⟩ := s.bytes b hb
      refine ⟨hpage, hran.mayRead he hpage hread, ?_⟩
      by_cases hword : Bytes.InWord a b
      · obtain ⟨i, hi, rfl⟩ := hin b hword
        rw [hview i hi]
        exact congrArg some (Bytes.store_byte hi).symm
      · rw [hran.view cur b (.inr ⟨hpage, hword⟩), hold]
        exact congrArg some (Bytes.store_of_not_inWord hword).symm
    · exact ⟨(s.owns b hb).1, hran.owns b (s.owns b hb).2⟩
    · obtain ⟨i, hi, rfl⟩ := hin b hb
      exact can i hi
  · simp at hst

theorem push (hpush : u.push w = some u') :
    ∃ k', r.push c w k = .ret (r.setReg .esp (r.regs .esp - 4)) k' ∧
      Shows k' cur (r.setReg .esp (r.regs .esp - 4)) u' ∧
      Ran L handler G c cur d {a | u.writable a} 0 k k' ∧ u'.writable = u.writable := by
  rw [UserState.push] at hpush
  obtain ⟨v, hst, hv⟩ := Option.bind_eq_some_iff.mp hpush
  obtain ⟨k', hrun, hshows, hran, hwritable⟩ := s.store h he hx hst
  have hesp : r.regs .esp = u.regs .esp := congrFun s.regs .esp
  refine ⟨k', ?_, ?_, hran, ?_⟩
  · rw [Registers.push, hesp, bind_ret _ hrun]
    rfl
  · rw [hesp, ← Option.some.inj hv]
    exact hshows.setReg _ _
  · rw [← Option.some.inj hv]
    exact hwritable

/-- What `u` executes the environment executes. -/
theorem exec {i : Instr} (hexec : u.exec i = some u') :
    ∃ r' k', r.exec c i k = .ret r' k' ∧ Shows k' cur r' u' ∧
      Ran L handler G c cur d {a | u.writable a} 0 k k' ∧ u'.writable = u.writable := by
  have hu := h.inUser he hx
  have hrefl : Ran L handler G c cur d {a | u.writable a} 0 k k := .refl h hx
  have hreg : ∀ x, r.regs x = u.regs x := fun x => congrFun s.regs x
  cases i with
  | pushl src =>
      rw [UserState.exec, ← hreg] at hexec
      obtain ⟨k', hrun, hshows, hran, hwritable⟩ := s.push h he hx hexec
      exact ⟨_, k', hrun, hshows, hran, hwritable⟩
  | movlAbs addr dst =>
      obtain ⟨w, hload, hw⟩ := Option.bind_eq_some_iff.mp hexec
      refine ⟨r.setReg dst w, k, ?_, ?_, hrefl, ?_⟩
      · exact bind_ret _ (s.load hu hload)
      · exact Option.some.inj hw ▸ s.setReg dst w
      · rw [← Option.some.inj hw]
        rfl
  | movlLoad off base dst =>
      obtain ⟨w, hload, hw⟩ := Option.bind_eq_some_iff.mp hexec
      rw [← hreg] at hload
      refine ⟨r.setReg dst w, k, ?_, ?_, hrefl, ?_⟩
      · exact bind_ret _ (s.load hu hload)
      · exact Option.some.inj hw ▸ s.setReg dst w
      · rw [← Option.some.inj hw]
        rfl
  | movlStore src off base =>
      rw [UserState.exec, ← hreg, ← hreg] at hexec
      obtain ⟨k', hrun, hshows, hran, hwritable⟩ := s.store h he hx hexec
      exact ⟨r, k', bind_ret _ hrun, hshows, hran, hwritable⟩
  | addl imm dst =>
      rw [UserState.exec, ← hreg] at hexec
      refine ⟨_, k, rfl, ?_, hrefl, ?_⟩
      · exact Option.some.inj hexec ▸ (s.setReg _ _).setStatusFlags _
      · rw [← Option.some.inj hexec]
        rfl
  | subl imm dst =>
      rw [UserState.exec, ← hreg] at hexec
      refine ⟨_, k, rfl, ?_, hrefl, ?_⟩
      · exact Option.some.inj hexec ▸ (s.setReg _ _).setStatusFlags _
      · rw [← Option.some.inj hexec]
        rfl
  | call src next =>
      obtain ⟨v, hpush, hv⟩ := Option.bind_eq_some_iff.mp hexec
      obtain ⟨k', hrun, hshows, hran, hwritable⟩ := s.push h he hx hpush
      refine ⟨_, k', bind_ret _ hrun, ?_, hran, ?_⟩
      · rw [← Option.some.inj hv, ← hreg]
        exact hshows.setEip _
      · rw [← Option.some.inj hv]
        exact hwritable
  | popal =>
      obtain ⟨⟨edi, u₁⟩, e₁, hexec⟩ := Option.bind_eq_some_iff.mp hexec
      obtain ⟨⟨esi, u₂⟩, e₂, hexec⟩ := Option.bind_eq_some_iff.mp hexec
      obtain ⟨⟨ebp, u₃⟩, e₃, hexec⟩ := Option.bind_eq_some_iff.mp hexec
      obtain ⟨⟨esp, u₄⟩, e₄, hexec⟩ := Option.bind_eq_some_iff.mp hexec
      obtain ⟨⟨ebx, u₅⟩, e₅, hexec⟩ := Option.bind_eq_some_iff.mp hexec
      obtain ⟨⟨edx, u₆⟩, e₆, hexec⟩ := Option.bind_eq_some_iff.mp hexec
      obtain ⟨⟨ecx, u₇⟩, e₇, hexec⟩ := Option.bind_eq_some_iff.mp hexec
      obtain ⟨⟨eax, u₈⟩, e₈, hexec⟩ := Option.bind_eq_some_iff.mp hexec
      obtain ⟨r₁, run₁, s₁, w₁⟩ := s.pop hu e₁
      obtain ⟨r₂, run₂, s₂, w₂⟩ := s₁.pop hu e₂
      obtain ⟨r₃, run₃, s₃, w₃⟩ := s₂.pop hu e₃
      obtain ⟨r₄, run₄, s₄, w₄⟩ := s₃.pop hu e₄
      obtain ⟨r₅, run₅, s₅, w₅⟩ := s₄.pop hu e₅
      obtain ⟨r₆, run₆, s₆, w₆⟩ := s₅.pop hu e₆
      obtain ⟨r₇, run₇, s₇, w₇⟩ := s₆.pop hu e₇
      obtain ⟨r₈, run₈, s₈, w₈⟩ := s₇.pop hu e₈
      refine ⟨(((((((r₈.setReg .edi edi).setReg .esi esi).setReg .ebp ebp).setReg .ebx ebx).setReg
        .edx edx).setReg .ecx ecx).setReg .eax eax), k, ?_, ?_, hrefl, ?_⟩
      · simp only [Registers.exec, bind_ret _ run₁, bind_ret _ run₂, bind_ret _ run₃, bind_ret _ run₄,
          bind_ret _ run₅, bind_ret _ run₆, bind_ret _ run₇, bind_ret _ run₈, pure_run]
      · rw [← Option.some.inj hexec]
        exact (((((((s₈.setReg .edi edi).setReg .esi esi).setReg .ebp ebp).setReg .ebx ebx).setReg
          .edx edx).setReg .ecx ecx).setReg .eax eax)
      · rw [← Option.some.inj hexec]
        exact w₈.trans (w₇.trans (w₆.trans (w₅.trans (w₄.trans (w₃.trans (w₂.trans w₁))))))
  | popfl =>
      obtain ⟨⟨w, v⟩, hpop, hv⟩ := Option.bind_eq_some_iff.mp hexec
      obtain ⟨r', hrun, hshows, hwritable⟩ := s.pop hu hpop
      refine ⟨_, k, bind_ret _ hrun, ?_, hrefl, ?_⟩
      · rw [← Option.some.inj hv, hshows.eflags]
        exact hshows.setEflags _
      · rw [← Option.some.inj hv]
        exact hwritable
  | popl dst =>
      obtain ⟨⟨w, v⟩, hpop, hv⟩ := Option.bind_eq_some_iff.mp hexec
      obtain ⟨r', hrun, hshows, hwritable⟩ := s.pop hu hpop
      refine ⟨_, k, bind_ret _ hrun, ?_, hrefl, ?_⟩
      · rw [← Option.some.inj hv]
        exact hshows.setReg _ _
      · rw [← Option.some.inj hv]
        exact hwritable
  | ret =>
      obtain ⟨⟨w, v⟩, hpop, hv⟩ := Option.bind_eq_some_iff.mp hexec
      obtain ⟨r', hrun, hshows, hwritable⟩ := s.pop hu hpop
      refine ⟨_, k, bind_ret _ hrun, ?_, hrefl, ?_⟩
      · rw [← Option.some.inj hv]
        exact hshows.setEip _
      · rw [← Option.some.inj hv]
        exact hwritable

end Step

theorem execs (s : Shows k cur r u) (h : CowFamily L handler G k) (he : cur ∈ G)
    (hx : k.Executes c cur d) (handle : Registers → Word → User Unit) {is : List Instr}
    (hexecs : u.execs is = some u') :
    ∃ r' k', r.execs c handle is k = .ret r' k' ∧ Shows k' cur r' u' ∧
      Ran L handler G c cur d {a | u.writable a} 0 k k' ∧ u'.writable = u.writable := by
  induction is generalizing k r u with
  | nil =>
      obtain rfl := Option.some.inj hexecs
      exact ⟨r, k, rfl, s, .refl h hx, rfl⟩
  | cons i is ih =>
      obtain ⟨v, hexec, hrest⟩ := Option.bind_eq_some_iff.mp hexecs
      obtain ⟨r₁, k₁, hrun, s₁, hran, hwritable⟩ := s.exec h he hx hexec
      obtain ⟨r₂, k₂, hrun₂, s₂, hran₂, hwritable₂⟩ := ih s₁ hran.family hran.executes hrest
      rw [hwritable] at hran₂ hwritable₂
      refine ⟨r₂, k₂, ?_, s₂, hran.trans hran₂, hwritable₂⟩
      rw [Registers.execs, bind_ret _ (retry_ret hrun)]
      exact hrun₂

end Shows

end Jos
