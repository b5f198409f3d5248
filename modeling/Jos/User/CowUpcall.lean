import Jos.User.Member

/-!
# The upcall of a member

From the page fault of a member to the `ret` of `_pgfault_upcall`. `pgfault` copies the page, and
the upcall stores the trap-time `%eip` below the trap-time stack pointer. That word may be on a
copy-on-write page itself. The nested fault has its record below the first one, and its upcall
stores to the exception stack, which needs no copy.
-/

namespace Jos

open Prog

variable {L : Layout} {k k' : Kernel} {c d n : Nat} {cur e : EnvIdx} {va : Word}
  {handler : Word} {G : Set EnvIdx} {code : ForkCode} {f : PageFault} {r : Registers} {b : Word}

theorem forkPage_iff : ForkPage va ↔ 8388608 ≤ va.toNat ∧ va.toNat < 4005556224 := by
  rw [ForkPage, InLoop, pageNumber_va, loopPages, pgnum_utext, pgnum_uxstack]
  omega

theorem forkPage_not_below {top : Word} (h : ForkPage va) : ¬ Below top va := by
  rintro ⟨hbase, -⟩
  have hpage : (uxstacktop - 4096).toNat = 4005556224 := by decide
  have hlt := (forkPage_iff.mp h).2
  omega

namespace ForkCode

/-- The program can read its variable `_pgfault_handler`. -/
def Readable (code : ForkCode) (k : Kernel) (e : EnvIdx) : Prop :=
  ∀ i < 4, ForkPage (code.handler + BitVec.ofNat 32 i) ∧
    k.MayRead e (code.handler + BitVec.ofNat 32 i)

/-- `_pgfault_handler` is `pgfault`. -/
def IsSet (code : ForkCode) (k : Kernel) (e : EnvIdx) : Prop :=
  ∀ i < 4, k.viewAt e (code.handler + BitVec.ofNat 32 i) =
    some (code.pgfault.extractLsb' (8 * i) 8)

variable {W : Set Word} {m : Nat}

theorem Readable.ran (h : code.Readable k cur) (hran : Ran L handler G c cur d W m k k')
    (he : cur ∈ G) : code.Readable k' cur := fun i hi =>
  ⟨(h i hi).1, (hran.access cur he _ (h i hi).1).2 (h i hi).2⟩

/-- The variable is not on the exception stack. -/
theorem IsSet.ran {top : Word} (h : code.IsSet k cur) (reads : code.Readable k cur)
    (hran : Ran L handler G c cur d {a | Below top a} m k k') : code.IsSet k' cur := fun i hi =>
  (hran.view cur _ (.inr ⟨.inl (reads i hi).1, forkPage_not_below (reads i hi).1⟩)).trans (h i hi)

end ForkCode

/-- The record at `b` and the argument and the return address below it are on the exception
stack. -/
structure OnStackFrame (b : Word) : Prop where
  low : 4005556232 ≤ b.toNat
  high : b.toNat + 52 ≤ 4005560320

/-- The bytes of the record, the argument and the return address. -/
def InStackFrame (b a : Word) : Prop := b.toNat - 8 ≤ a.toNat ∧ a.toNat < b.toNat + 52

instance (b a : Word) : Decidable (InStackFrame b a) := instDecidableAnd

namespace OnStackFrame

theorem record (h : OnStackFrame b) : OnStack b ∧ b.toNat + 52 ≤ uxstacktop.toNat := by
  have htop : uxstacktop.toNat = 4005560320 := by decide
  obtain ⟨hlow, hhigh⟩ := h
  exact ⟨onStack_iff.mpr (by omega), by omega⟩

theorem onStack {a : Word} (h : OnStackFrame b) (ha : InStackFrame b a) : OnStack a := by
  obtain ⟨hlow, hhigh⟩ := h
  obtain ⟨h₁, h₂⟩ := ha
  exact onStack_iff.mpr (by omega)

theorem below {a : Word} (h : OnStackFrame b) (ha : InStackFrame b a) : Below (b + 52) a := by
  have hpage : (uxstacktop - 4096).toNat = 4005556224 := by decide
  obtain ⟨hlow, hhigh⟩ := h
  obtain ⟨h₁, h₂⟩ := ha
  rw [Below, hpage, BitVec.toNat_add, show (52 : Word).toNat = 52 from rfl]
  omega

end OnStackFrame

theorem Ran.sameMaps {W : Set Word} {m : Nat} {k'' : Kernel}
    (h : Ran L handler G c cur d W m k k') (same : k'.Like k'') (hx : k''.Executes c cur d) :
    Ran L handler G c cur d W m k k'' := by
  have hmaps := same.sameMaps
  have hview : ∀ e a, k''.viewAt e a = k'.viewAt e a := by
    intro e a
    have hframes : k''.frames = k'.frames := by
      rw [Kernel.frames, hmaps.phys, hmaps.dirs]
      rfl
    rw [Kernel.viewAt_eq, hframes, ← Kernel.viewAt_eq]
  refine ⟨h.family.sameMaps hmaps fun e _ => same.field (fun _ => rfl) e, hx,
    h.access.trans (.of_pte hmaps.pte), fun a ho => (h.owns a ho).congr hmaps.pte,
    fun e a ha => (hview e a).trans (h.view e a ha),
    fun e i j hpte => (hmaps.pte e i j).trans (h.pte e i j hpte),
    h.copies.trans (.of_pte hmaps.pte), ?_, fun n hn => ?_⟩
  · rw [same.phys]
    exact h.like.trans same
  · rw [hmaps.phys]
    exact h.room n hn

theorem Registers.trapframe_esp (r : Registers) (f : PageFault) : (r.trapframe f).esp = r.regs .esp :=
  rfl

/-- The upcall starts with its record on the exception stack. -/
theorem CowFamily.startUpcall (h : CowFamily L handler G k) (he : cur ∈ G)
    (hx : k.Executes c cur d) (hup : handler ≠ 0) (hb : utrapframeAddr (r.regs .esp) = b)
    (frame : OnStackFrame b) (f : PageFault) :
    ∃ k', trap c (r.trapframe f) f.va 0 k = .exit () k' ∧
      (k'.envs cur).tf.registers = ⟨Function.update r.regs .esp b, handler, r.eflags⟩ ∧
      Ran L handler G c cur d {a | Below (b + 52) a} 0 k k' ∧
      ∀ i < 52, k'.viewAt cur (b + BitVec.ofNat 32 i) = (utrapframe (r.trapframe f) f.va)[i]? := by
  have fault : UserFault (r.trapframe f) := by
    refine ⟨?_, rfl, ?_⟩
    · change (gdUt ||| 3) &&& 3 = 3
      decide
    · rw [Registers.trapframe_esp, hb]
      exact frame.record
  have howns : k.Owns cur uxstack := h.owns_stack he ⟨rfl, rfl⟩
  obtain ⟨g, hg⟩ := howns.page
  obtain ⟨m, k', htrap, hbytes, hlike, htf, hrest⟩ := (h.inUser he hx).upcall hx
    (by rwa [h.upcall cur he]) hg (h.stack cur he) fault f.va 0
  rw [Registers.trapframe_esp, hb] at hbytes htf hrest
  obtain ⟨hlow, hhigh⟩ := frame
  have hval : uxstack.toNat = 4005556224 := by decide
  have hran := h.setPage_ran he hx howns hg (W := {a | Below (b + 52) a}) (m := m)
    fun a hi hj hout => by
      refine hrest _ fun i hn hoff => hout ?_
      have ha := onStack_iff.mp ⟨hi, hj⟩
      have hbi : (b + BitVec.ofNat 32 i).toNat = b.toNat + i := by
        rw [BitVec.toNat_add, BitVec.toNat_ofNat]
        omega
      have hpage : (uxstacktop - 4096).toNat = 4005556224 := by decide
      rw [pgoff_eq, pgoff_eq, hbi] at hoff
      rw [Set.mem_ofPred_eq, Below, hpage, BitVec.toNat_add, show (52 : Word).toNat = 52 from rfl]
      omega
  have hx' := hlike.executes hran.executes
  have hran' := hran.sameMaps hlike hx'
  refine ⟨k', htrap, ?_, hran', fun i hi => ?_⟩
  · rw [htf, h.upcall cur he, Registers.ext_iff]
    refine ⟨funext fun x => ?_, rfl, rfl⟩
    cases x <;> rfl
  · have hstack : OnStack (b + BitVec.ofNat 32 i) := by
      rw [onStack_iff, BitVec.toNat_add, BitVec.toNat_ofNat]
      omega
    obtain ⟨g', hg'⟩ := (hran'.family.owns_stack he hstack).page
    have hbyte := hran'.family.mem.phys.byteAt_of_target hx'.pgdir hg'
    rw [← hbytes i hi, hbyte, Kernel.viewAt, hg', Option.map_some]

/-! ### The handler -/

/-- A word whose bytes are known. -/
theorem load_of_bytes {m : Bytes} {a w : Word}
    (h : ∀ i < 4, m (a + BitVec.ofNat 32 i) = w.extractLsb' (8 * i) 8) : m.load a = w := by
  have hsame : m.load a = (m.store a w).load a := by
    refine Bytes.load_congr fun x hx => ?_
    have hxa : x = a + BitVec.ofNat 32 (x - a).toNat := by
      rw [BitVec.ofNat_toNat, BitVec.setWidth_eq, BitVec.add_comm, BitVec.sub_add_cancel]
    rw [hxa, Bytes.store_byte hx]
    exact h _ hx
  rw [hsame, Bytes.load_store_self]

/-- Words that are laid out byte by byte. -/
theorem load_of_words {m : Bytes} {ws : List Word} {a w : Word} {i : Nat}
    (h : ∀ i < 4 * ws.length, some (m (a + BitVec.ofNat 32 i)) = (ws.flatMap wordBytes)[i]?)
    (hi : ws[i]? = some w) : m.load (a + BitVec.ofNat 32 (4 * i)) = w := by
  have hlt : i < ws.length := by
    by_contra hge
    rw [List.getElem?_eq_none (by omega)] at hi
    simp at hi
  have hbyte : ∀ j < 4, some (m (a + BitVec.ofNat 32 (4 * i) + BitVec.ofNat 32 j)) =
      (wordBytes w)[j]? := by
    intro j hj
    rw [BitVec.add_assoc, ← BitVec.ofNat_add, h _ (by omega), wordBytes_getElem? ws i hj, hi]
    rfl
  refine load_of_bytes fun j hj => ?_
  have hb := hbyte j hj
  obtain rfl | rfl | rfl | rfl : j = 0 ∨ j = 1 ∨ j = 2 ∨ j = 3 := by omega
  all_goals exact Option.some.inj hb

/-- The page that is replaced was marked. -/
theorem PageCopied.copies {f f' : Nat} {i j : Idx} (h : PageCopied L k cur i j f f' k')
    (marked : k.pte cur i j &&& pteCow ≠ 0) : k.Copies cur k' := by
  refine ⟨fun i' j' hin => ?_, fun p => ?_⟩
  · by_cases hslot : i' = i ∧ j' = j
    · rw [hslot.1, hslot.2]
      exact .inr marked
    · refine .inl (h.rest cur i' j' (fun heq => hslot heq.2) ?_)
      rintro ⟨-, rfl, rfl⟩
      exact temp_not_inLoop hin
  · by_cases hp : p = f'
    · rw [hp, h.sole]
      exact .inr ⟨_, Set.Subset.rfl⟩
    refine .inl ?_
    rintro ⟨e, i', j'⟩ hmap
    rw [Kernel.mem_mappings] at hmap ⊢
    have hslot : ¬ (e = cur ∧ i' = i ∧ j' = j) := by
      rintro ⟨rfl, rfl, rfl⟩
      have hown : (e, i', j') ∈ k'.mappings f' := by
        rw [h.sole]
        exact Set.mem_singleton _
      exact hp (Option.some.inj (hmap.symm.trans (Kernel.mem_mappings.mp hown)))
    have htemp : ¬ (e = cur ∧ i' = tempPde ∧ j' = tempPte) := by
      rintro ⟨rfl, rfl, rfl⟩
      have hnone : entryFrame 0 = none := entryFrame_zero
      rw [Kernel.target_pte, h.temp, hnone] at hmap
      simp at hmap
    exact (congrArg entryFrame (h.rest e i' j' hslot htemp)).symm.trans hmap

namespace CowFamily

variable (h : CowFamily L handler G k) (he : cur ∈ G) (hx : k.Executes c cur d)

include h he hx

/-- `pgfault` has made a copy for the member, or it could not. -/
theorem pgfault_run (hva : ForkPage va)
    (hfault : ¬ (k.entryAt cur va &&& pteP ≠ 0 ∧ k.entryAt cur va &&& pteW ≠ 0)) {utf : Word}
    (haddr : loadWord c utf k = .ret va k) (herror : loadWord c (utf + 4) k = .ret tPgflt k) :
    wp (pgfault c cur utf) (fun _ k' => Ran L handler G c cur d ∅ 3 k k' ∧ k'.Owns cur va)
      (fun _ _ => ¬ (k.phys.FreePages 3 ∧ k.Writable cur va)) (fun _ => False) k := by
  have hutop := forkPage_utop hva
  have hu := h.inUser he hx
  have hcow : k.Writable cur va → k.entryAt cur va &&& pteCow ≠ 0 := fun hok =>
    hok.2.resolve_left fun hno => hfault ⟨hok.1, hno⟩
  rw [pgfault, wp_bind]
  obtain ⟨hcopies, hpanics, hfaults⟩ := pgfaultTest_cases hu.cr3 hu.selfMap haddr herror (by decide)
  by_cases htable : k.phys.HasTable d va
  swap
  · obtain ⟨va', hexit⟩ := hfaults htable
    rw [wp_exit_eq hexit]
    intro hable
    obtain ⟨f, hf⟩ := Kernel.page_of_present hable.2.1
    exact htable (hu.entry hutop hf).1
  have hentry := hu.entry_of_table hutop htable
  by_cases hmarked : k.phys.entryAt d va &&& pteCow = 0
  · rw [wp_exit_eq (hpanics htable hmarked)]
    intro hable
    rw [hentry] at hmarked
    exact hcow hable.2 hmarked
  rw [wp_ret (hcopies htable hmarked)]
  rw [hentry] at hmarked
  obtain ⟨f, hf⟩ := hu.page_of_cow hmarked
  have huser := h.user cur he _ _ hva (Kernel.entry_present hf) (.inr hmarked)
  have htemp : ¬ (pdx va = tempPde ∧ ptx va = tempPte) := by
    rintro ⟨hpdx, hptx⟩
    rw [ForkPage, hpdx, hptx] at hva
    exact temp_not_inLoop hva
  refine wp_mono (copyPage_spec hu hutop htemp hf ⟨huser, fun hno => absurd hno (by decide)⟩)
    (fun _ k₂ hk₂ => ?_) (fun _ _ hroom hable => hroom hable.1) (fun _ hno => hno)
  obtain ⟨f', hcopy⟩ := hk₂
  obtain ⟨h₂, hkeeps, hviews⟩ := h.pageCopied he hva hf hcopy
  have hx₂ : k₂.Executes c cur d := by
    rw [hcopy.ends.1]
    exact ⟨hx.unlocked, hx.cpu, hx.running, hx.pgdir⟩
  have howns : ∀ {a}, pdx a = pdx va → ptx a = ptx va → k₂.Owns cur a := by
    intro a hi hj
    have hentry : k₂.entryAt cur a = mkPte f' stackPerm := by
      rw [Kernel.entryAt, hi, hj]
      exact hcopy.own
    refine ⟨.inl (by rw [hi, hj]; exact hva), Kernel.page_of_present ?_, ?_⟩
    · rw [hentry]
      exact mkPte_present _ _
    · rw [hentry]
      exact stackPerm_user f'
  refine ⟨⟨h₂, hx₂, hkeeps, fun a ho => ?_, fun e' a ha => ?_, fun e' i j hne => ?_,
    hcopy.copies hmarked, ?_, hcopy.free⟩, howns rfl rfl⟩
  · by_cases hslot : pdx a = pdx va ∧ ptx a = ptx va
    · exact howns hslot.1 hslot.2
    · have hpte : k₂.entryAt cur a = k.entryAt cur a := by
        refine hcopy.rest cur _ _ (fun heq => hslot heq.2) ?_
        rintro ⟨-, hi, hj⟩
        obtain hin | ⟨hi', -⟩ := ho.member
        · rw [hi, hj] at hin
          exact temp_not_inLoop hin
        · exact stack_ne_temp (hi'.symm.trans hi)
      obtain ⟨g, hg⟩ := ho.page
      exact ⟨ho.member, ⟨g, (congrArg entryFrame hpte).trans hg⟩, by rw [hpte]; exact ho.write⟩
  · exact Kernel.viewAt_congr (hviews e' _ _ (ha.imp_right fun hin => hin.1))
  · have hother := hne.resolve_right (by decide)
    exact hcopy.rest e' i j (fun heq => hother heq.1) fun heq => hother heq.1
  · rw [← hcopy.ends.1]
    exact .refl k₂

/-- The upcall calls the handler with its record. -/
theorem enter_run (hesp : r.regs .esp = b) (frame : OnStackFrame b) (reads : code.Readable k cur)
    {ws : List Word} (hlen : ws.length = 13)
    (record : ∀ i < 52, k.viewAt cur (b + BitVec.ofNat 32 i) = (ws.flatMap wordBytes)[i]?)
    (handle : Registers → Word → User Unit) :
    ∃ s k' v, r.execs c handle code.enter k = .ret s k' ∧ Shows k' cur s v ∧
      Ran L handler G c cur d {a | Below (b + 52) a} 0 k k' ∧
      (∀ a, InStackFrame b a → v.readable a ∧ v.writable a) ∧
      (∀ a, v.writable a → InStackFrame b a) ∧ v.regs .esp = b - 8 ∧ v.eflags = r.eflags ∧
      v.mem.load (b - 4) = b ∧
      (∀ i w, ws[i]? = some w → v.mem.load (b + BitVec.ofNat 32 (4 * i)) = w) ∧
      (code.IsSet k cur → s.eip = code.pgfault) := by
  set m : Bytes := fun a => (k.viewAt cur a).getD 0 with hm
  set u := r.inMemory m
    (fun a => decide (InStackFrame b a) || decide (Bytes.InWord code.handler a))
    (fun a => decide (InStackFrame b a)) with hu
  have hview : ∀ a, k.MayRead cur a → k.viewAt cur a = some (m a) := by
    intro a ha
    obtain ⟨f, hf⟩ := Kernel.page_of_present ha.1
    have hbyte : k.viewAt cur a = some (k.phys.mem f (pgoff a)) := by rw [Kernel.viewAt, hf]; rfl
    simp only [hm, hbyte, Option.getD_some]
  have howns : ∀ a, InStackFrame b a → k.Owns cur a := fun a ha => h.owns_stack he (frame.onStack ha)
  have hhandler : ∀ a, Bytes.InWord code.handler a → ForkPage a ∧ k.MayRead cur a := by
    intro a ha
    have hoff : a = code.handler + BitVec.ofNat 32 (a - code.handler).toNat := by
      rw [BitVec.ofNat_toNat, BitVec.setWidth_eq, BitVec.add_comm, BitVec.sub_add_cancel]
    rw [hoff]
    exact reads _ ha
  have hshows : Shows k cur r u := by
    refine ⟨rfl, rfl, rfl, fun a ha => ?_, fun a ha => ?_⟩
    · have hcases : InStackFrame b a ∨ Bytes.InWord code.handler a := by
        simpa [hu, Registers.inMemory] using ha
      obtain hin | hin := hcases
      · have hmay := (howns a hin).mayRead
        exact ⟨(howns a hin).member, hmay, hview a hmay⟩
      · exact ⟨.inl (hhandler a hin).1, (hhandler a hin).2, hview a (hhandler a hin).2⟩
    · have hin : InStackFrame b a := by simpa [hu, Registers.inMemory] using ha
      exact ⟨by simp [hu, Registers.inMemory, hin], howns a hin⟩
  obtain ⟨hlow, hhigh⟩ := id frame
  have hword : ∀ a : Word, b.toNat - 8 ≤ a.toNat → a.toNat < b.toNat - 3 → u.CanWrite a := by
    intro a h₁ h₂ i hi
    have hin : InStackFrame b (a + BitVec.ofNat 32 i) := by
      rw [InStackFrame, BitVec.toNat_add, BitVec.toNat_ofNat]
      omega
    simp [hu, Registers.inMemory, hin]
  have h4 : (b - 4).toNat = b.toNat - 4 := by
    rw [BitVec.toNat_sub, show (4 : Word).toNat = 4 from rfl]
    omega
  have h8 : (b - 8).toNat = b.toNat - 8 := by
    rw [BitVec.toNat_sub, show (8 : Word).toNat = 8 from rfl]
    omega
  have hcan : u.CanRead code.handler := by
    intro i hi
    have hin : Bytes.InWord code.handler (code.handler + BitVec.ofNat 32 i) := by
      rw [Bytes.InWord, Bytes.add_sub_self_nat hi]
      exact hi
    simp [hu, Registers.inMemory, hin]
  obtain ⟨v, hv, hsp, heip, hflags, hmem, hreadable, hwritable⟩ := UserState.enter_run code.toUpcall
    (w := u) (b := b) hesp ⟨hword _ (by omega) (by omega), hword _ (by omega) (by omega)⟩ hcan
  obtain ⟨s, k', hrun, s', hran, -⟩ := hshows.execs h he hx handle hv
  have hin : ∀ a, u.writable a → InStackFrame b a := fun a ha => by
    simpa [hu, Registers.inMemory] using ha
  have hload : ∀ a w : Word, Bytes.Apart (b - 4) a → Bytes.Apart (b - 8) a → m.load a = w →
      v.mem.load a = w := by
    intro a w h₁ h₂ hw
    rw [hmem, Bytes.load_store_of_apart h₂, Bytes.load_store_of_apart h₁]
    exact hw
  refine ⟨s, k', v, hrun, s', hran.mono (fun a ha => frame.below (hin a ha)) (Nat.le_refl 0),
    fun a ha => ?_, fun a ha => ?_, hsp, hflags, ?_, fun i w hw => ?_, fun set => ?_⟩
  · rw [hreadable, hwritable]
    simp [hu, Registers.inMemory, ha]
  · rw [hwritable] at ha
    exact hin a ha
  · rw [hmem, Bytes.load_store_of_apart, Bytes.load_store_self]
    constructor <;> rw [BitVec.toNat_sub, h4, h8] <;> omega
  · have hi : i < 13 := by
      by_contra hge
      rw [List.getElem?_eq_none (by omega)] at hw
      simp at hw
    refine hload _ _ ?_ ?_ (load_of_words (fun j (hj : j < 4 * ws.length) => ?_) hw)
    · constructor <;> rw [BitVec.toNat_sub, BitVec.toNat_add, BitVec.toNat_ofNat, h4] <;> omega
    · constructor <;> rw [BitVec.toNat_sub, BitVec.toNat_add, BitVec.toNat_ofNat, h8] <;> omega
    · rw [hlen] at hj
      have hstack : InStackFrame b (b + BitVec.ofNat 32 j) := by
        rw [InStackFrame, BitVec.toNat_add, BitVec.toNat_ofNat]
        omega
      rw [← record j (by omega), hview _ (howns _ hstack).mayRead]
  · have hset : m.load code.handler = code.pgfault := load_of_bytes fun i hi => by
      rw [hm]
      exact congrArg (Option.getD · 0) (set i hi)
    have hlast := forkPage_iff.mp (reads 3 (by decide)).1
    have hfirst := forkPage_iff.mp (reads 0 (by decide)).1
    rw [show code.handler + BitVec.ofNat 32 0 = code.handler from BitVec.add_zero _] at hfirst
    rw [s'.eip, heip, Bytes.load_store_of_apart]
    · exact hset
    · constructor <;> rw [BitVec.toNat_sub, h4] <;> omega

end CowFamily

/-! ### The way back -/

/-- Where the upcall stores the trap-time `%eip`: below the stack of the program, or, after a nested
fault, between its record and that of the outer fault. -/
def ScratchAt (esp b : Word) : Prop :=
  4 ≤ esp.toNat ∧ (esp.toNat ≤ 4005552128 ∨ esp.toNat = b.toNat + 56)

/-- The member has stored the word. -/
def Kernel.HasWord (k : Kernel) (e : EnvIdx) (va w : Word) : Prop :=
  ∀ i < 4, k.Owns e (va + BitVec.ofNat 32 i) ∧
    k.viewAt e (va + BitVec.ofNat 32 i) = some (w.extractLsb' (8 * i) 8)

/-- The bytes that a fault with the record at `b` and the trap-time stack pointer `esp` changes. -/
def faultBytes (b esp : Word) : Set Word := {a | Below b a ∨ Bytes.InWord (esp - 4) a}

/-- What the record says of the registers. -/
theorem popped_record {m : Bytes} (r : Registers)
    (record : ∀ i w, ((r.inMemory m (fun _ => false) fun _ => false).utf f)[i]? = some w →
      m.load (b + BitVec.ofNat 32 (4 * i)) = w) :
    Function.update (UserState.Became.popped m (b + 8)) .esp (r.regs .esp) = r.regs := by
  have hreg : ∀ i w, ((r.inMemory m (fun _ => false) fun _ => false).utf f)[i + 2]? = some w →
      m.load (b + 8 + BitVec.ofNat 32 (4 * i)) = w := by
    intro i w hw
    rw [UserState.add_shift]
    exact record (i + 2) w hw
  funext x
  cases x with
  | edi =>
      have hfirst := hreg 0 (r.regs .edi) rfl
      rwa [show b + 8 + BitVec.ofNat 32 (4 * 0) = b + 8 from BitVec.add_zero _] at hfirst
  | esi => exact hreg 1 (r.regs .esi) rfl
  | ebp => exact hreg 2 (r.regs .ebp) rfl
  | ebx => exact hreg 4 (r.regs .ebx) rfl
  | edx => exact hreg 5 (r.regs .edx) rfl
  | ecx => exact hreg 6 (r.regs .ecx) rfl
  | eax => exact hreg 7 (r.regs .eax) rfl
  | esp => exact Function.update_self ..

theorem ScratchAt.inWord {esp a : Word} (h : ScratchAt esp b) :
    Bytes.InWord (esp - 4) a ↔ esp.toNat - 4 ≤ a.toNat ∧ a.toNat < esp.toNat := by
  obtain ⟨hroom, -⟩ := h
  have h4 : (esp - 4).toNat = esp.toNat - 4 := by
    rw [BitVec.toNat_sub, show (4 : Word).toNat = 4 from rfl]
    omega
  rw [Bytes.InWord, BitVec.toNat_sub, h4]
  omega

/-- The word is not in the record. -/
theorem ScratchAt.apart {esp : Word} (h : ScratchAt esp b) (frame : OnStackFrame b) {i : Nat}
    (hi : i < 13) : Bytes.Apart (esp - 4) (b + BitVec.ofNat 32 (4 * i)) := by
  obtain ⟨hroom, hwhere⟩ := h
  obtain ⟨hlow, hhigh⟩ := frame
  have h4 : (esp - 4).toNat = esp.toNat - 4 := by
    rw [BitVec.toNat_sub, show (4 : Word).toNat = 4 from rfl]
    omega
  have hval : (b + BitVec.ofNat 32 (4 * i)).toNat = b.toNat + 4 * i := by
    rw [BitVec.toNat_add, BitVec.toNat_ofNat]
    omega
  constructor <;> rw [BitVec.toNat_sub, h4, hval] <;> omega

theorem inWord_offset {a x : Word} (h : Bytes.InWord a x) : ∃ i < 4, x = a + BitVec.ofNat 32 i := by
  refine ⟨(x - a).toNat, h, ?_⟩
  rw [BitVec.ofNat_toNat, BitVec.setWidth_eq, BitVec.add_comm, BitVec.sub_add_cancel]

/-- Behind its store the upcall reads the record and the word that it has stored, and the registers
are those of the fault. -/
theorem leaveRest_returns {s : Registers} {m : Bytes} (h : CowFamily L handler G k) (he : cur ∈ G)
    (hx : k.Executes c cur d) (frame : OnStackFrame b) (scratch : ScratchAt (r.regs .esp) b)
    (hesp : s.regs .esp = b) (hflags : s.eflags &&& ~~~userFlags = r.eflags &&& ~~~userFlags)
    (record : ∀ i w, ((r.inMemory m (fun _ => false) fun _ => false).utf f)[i]? = some w →
      m.load (b + BitVec.ofNat 32 (4 * i)) = w)
    (bytes : ∀ a : Word, b.toNat ≤ a.toNat → a.toNat < b.toNat + 52 →
      k.viewAt cur a = some (UserState.left m b (r.regs .esp) a))
    (word : k.HasWord cur (r.regs .esp - 4) r.eip) (handle : Registers → Word → User Unit) :
    ∃ k', s.execs c handle UserState.leaveRest k = .ret r k' ∧
      Ran L handler G c cur d ∅ 0 k k' := by
  generalize hesp' : r.regs .esp = e at scratch bytes word
  obtain ⟨hlow, hhigh⟩ := id frame
  have hleft : ∀ i < 12, (UserState.left m b e).load (b + BitVec.ofNat 32 (4 * i)) =
      m.load (b + BitVec.ofNat 32 (4 * i)) :=
    fun i hi => UserState.left_frame (fun j hj => scratch.apart frame hj) hi
  have heipWord : m.load (b + 40) = r.eip := record 10 r.eip rfl
  have hself : (UserState.left m b e).load (e - 4) = r.eip := by
    rw [UserState.left, Bytes.load_store_self]
    exact heipWord
  set u : UserState := s.inMemory (UserState.left m b e)
    (fun a => decide (b.toNat ≤ a.toNat ∧ a.toNat < b.toNat + 52) ||
      decide (Bytes.InWord (e - 4) a)) (fun _ => false) with hu
  have hreads : ∀ a, b.toNat ≤ a.toNat ∧ a.toNat < b.toNat + 52 ∨ Bytes.InWord (e - 4) a →
      u.readable a := fun a ha => by simpa [hu, Registers.inMemory] using ha
  have hshows : Shows k cur s u := by
    refine ⟨rfl, rfl, rfl, fun a ha => ?_, fun a ha => absurd ha (by simp [hu, Registers.inMemory])⟩
    have hcases : b.toNat ≤ a.toNat ∧ a.toNat < b.toNat + 52 ∨ Bytes.InWord (e - 4) a := by
      simpa [hu, Registers.inMemory] using ha
    obtain hin | hin := hcases
    · have howns := h.owns_stack he (frame.onStack (a := a) ⟨by omega, hin.2⟩)
      exact ⟨howns.member, howns.mayRead, bytes a hin.1 hin.2⟩
    · obtain ⟨i, hi, rfl⟩ := inWord_offset hin
      obtain ⟨howns, hview⟩ := word i hi
      refine ⟨howns.member, howns.mayRead, hview.trans (congrArg some ?_)⟩
      change _ = UserState.left m b e _
      rw [UserState.left, Bytes.store_byte hi, heipWord]
  have hread : ∀ i < 13, u.CanRead (b + BitVec.ofNat 32 (4 * i)) := by
    intro i hi j hj
    have hval : (b + BitVec.ofNat 32 (4 * i) + BitVec.ofNat 32 j).toNat = b.toNat + 4 * i + j := by
      rw [BitVec.toNat_add, BitVec.toNat_add, BitVec.toNat_ofNat, BitVec.toNat_ofNat]
      omega
    exact hreads _ (.inl (by omega))
  have hscratch : u.CanRead (e - 4) := by
    intro j hj
    refine hreads _ (.inr ?_)
    rw [Bytes.InWord, Bytes.add_sub_self_nat hj]
    exact hj
  obtain ⟨z, hz, hregs, heip, heflags, -, -, -⟩ := UserState.leaveRest_run (w := u) hesp hread
    hscratch (UserState.left_esp fun i hi => scratch.apart frame hi)
  obtain ⟨s', k', hrun, hshows', hran, -⟩ := hshows.execs h he hx handle hz
  have hempty : {a | u.writable a} ⊆ (∅ : Set Word) := fun a ha => by
    simp [hu, Registers.inMemory] at ha
  refine ⟨k', ?_, hran.mono hempty (Nat.le_refl 0)⟩
  suffices hsame : s' = r by rw [hrun, hsame]
  rw [Registers.ext_iff]
  refine ⟨hshows'.regs.trans ?_, hshows'.eip.trans (heip.trans hself), hshows'.eflags.trans ?_⟩
  · rw [hregs]
    change Function.update (UserState.Became.popped (UserState.left m b e) (b + 8)) .esp e = _
    rw [UserState.popped_left fun i hi => scratch.apart frame hi, ← hesp']
    exact popped_record r record
  · have hsaved : (UserState.left m b e).load (b + 44) = r.eflags :=
      (hleft 11 (by decide)).trans (record 11 r.eflags rfl)
    rw [heflags]
    change s.eflags &&& ~~~userFlags ||| (UserState.left m b e).load (b + 44) &&& userFlags = _
    rw [hsaved]
    exact UserState.flags_restored hflags

/-- `pgfault` returns, and the upcall goes back to where the fault was. Its store below the trap-time
stack pointer is what may go wrong. -/
theorem Shows.leave_run {s : Registers} {v : UserState} (shows : Shows k cur s v)
    (h : CowFamily L handler G k) (he : cur ∈ G) (hx : k.Executes c cur d)
    (frame : OnStackFrame b) (scratch : ScratchAt (r.regs .esp) b) (hesp : v.regs .esp = b - 8)
    (hflags : v.eflags = r.eflags) (access : ∀ a, InStackFrame b a → v.readable a ∧ v.writable a)
    (only : ∀ a, v.writable a → InStackFrame b a)
    (record : ∀ i w, ((r.inMemory v.mem (fun _ => false) fun _ => false).utf f)[i]? = some w →
      v.mem.load (b + BitVec.ofNat 32 (4 * i)) = w)
    (handle : Registers → Word → User Unit) {m : Nat} {P : Prop}
    (hstore : ∀ k₁ s₁, Ran L handler G c cur d {a | Below (b + 52) a} 0 k k₁ → s₁.regs .esp = b →
      wp (retry (handle s₁) 2 (storeWord c (r.regs .esp - 4) r.eip))
        (fun _ k₂ => Ran L handler G c cur d (faultBytes b (r.regs .esp)) m k₁ k₂ ∧
          k₂.HasWord cur (r.regs .esp - 4) r.eip) (fun _ _ => P) (fun _ => False) k₁) :
    wp (s.execs c handle (.ret :: Upcall.leave))
      (fun s' k' => s' = r ∧
        Ran L handler G c cur d (faultBytes (b + 52) (r.regs .esp)) m k k' ∧
        k'.HasWord cur (r.regs .esp - 4) r.eip) (fun _ _ => P) (fun _ => False) k := by
  generalize hesp' : r.regs .esp = e at scratch hstore ⊢
  obtain ⟨hlow, hhigh⟩ := id frame
  have hcan : ∀ a : Word, b.toNat - 8 ≤ a.toNat → a.toNat + 3 < b.toNat + 52 →
      v.CanRead a ∧ v.CanWrite a := by
    intro a h₁ h₂
    have hin : ∀ i < 4, InStackFrame b (a + BitVec.ofNat 32 i) := fun i hi => by
      rw [InStackFrame, BitVec.toNat_add, BitVec.toNat_ofNat]
      omega
    exact ⟨fun i hi => (access _ (hin i hi)).1, fun i hi => (access _ (hin i hi)).2⟩
  have hframe : ∀ i < 13, v.CanRead (b + BitVec.ofNat 32 (4 * i)) ∧
      v.CanWrite (b + BitVec.ofNat 32 (4 * i)) := by
    intro i hi
    have hval : (b + BitVec.ofNat 32 (4 * i)).toNat = b.toNat + 4 * i := by
      rw [BitVec.toNat_add, BitVec.toNat_ofNat]
      omega
    exact hcan _ (by omega) (by omega)
  -- up to the store
  have h8 : (b - 8).toNat = b.toNat - 8 := by
    rw [BitVec.toNat_sub, show (8 : Word).toNat = 8 from rfl]
    omega
  have hret : v.exec .ret = some ((v.setReg .esp (b - 4)).setEip (v.mem.load (b - 8))) := by
    have hread := (hcan (b - 8) (by omega) (by omega)).1
    have hnext : b - 8 + 4 = b - 4 := by bv_omega
    rw [UserState.exec, UserState.pop_eq (by rwa [hesp]), hesp, hnext]
    rfl
  obtain ⟨x, hfirst, hx₁, hsp, hbp, hax⟩ := UserState.leaveFirst_run (b := b) (e := e)
    (w := (v.setReg .esp (b - 4)).setEip (v.mem.load (b - 8))) (by simp)
    ⟨(hframe 10 (by decide)).1, (hframe 12 (by decide)).1⟩ (hframe 12 (by decide)).2
    (record 12 e (congrArg some hesp'))
  have hexecs : v.execs (.ret :: UserState.leaveFirst) = some x :=
    (UserState.execs_cons _ hret).trans hfirst
  obtain ⟨s₁, k₁, hrun₁, shows₁, hran₁, -⟩ := shows.execs h he hx handle hexecs
  have hran₁' : Ran L handler G c cur d {a | Below (b + 52) a} 0 k k₁ :=
    hran₁.mono (fun a ha => frame.below (only a ha)) (Nat.le_refl 0)
  have hlist : .ret :: Upcall.leave =
      (.ret :: UserState.leaveFirst) ++ .movlStore .eax 0 .ebp :: UserState.leaveRest := rfl
  have heip : s₁.regs .eax = r.eip := by
    rw [shows₁.regs, hax]
    exact record 10 r.eip rfl
  have hsp₁ : s₁.regs .esp = b := (congrFun shows₁.regs .esp).trans hsp
  have hbp₁ : s₁.regs .ebp + 0 = e - 4 := by
    rw [shows₁.regs, hbp]
    exact BitVec.add_zero _
  have hop : retry (handle s₁) 2 (s₁.exec c (.movlStore .eax 0 .ebp)) k₁ =
      (retry (handle s₁) 2 (storeWord c (e - 4) r.eip) >>= fun _ => pure s₁) k₁ := by
    rw [Registers.exec, heip, hbp₁]
    exact retry_bind_pure s₁
  have hsplit : s.execs c handle (.ret :: Upcall.leave) k =
      (retry (handle s₁) 2 (storeWord c (e - 4) r.eip) >>= fun _ =>
        s₁.execs c handle UserState.leaveRest) k₁ := by
    rw [hlist, Registers.execs_append _ hrun₁, Registers.execs, bind_congr_run _ hop, bind_bind]
    rfl
  rw [wp, hsplit, ← wp, wp_bind]
  refine wp_imp (hstore k₁ s₁ hran₁' hsp₁) fun _ k₂ hk₂ => ?_
  obtain ⟨hran₂, hword⟩ := hk₂
  -- what is left reads the record and that word
  have heflags : s₁.eflags &&& ~~~userFlags = r.eflags &&& ~~~userFlags := by
    rw [shows₁.eflags, hx₁.eflags, ← hflags]
    rfl
  have hbytes : ∀ a : Word, b.toNat ≤ a.toNat → a.toNat < b.toNat + 52 →
      k₂.viewAt cur a = some (UserState.left v.mem b e a) := by
    intro a hlow' hhigh'
    have hin : InStackFrame b a := ⟨by omega, hhigh'⟩
    have hread : x.readable a := by
      rw [hx₁.readable]
      exact (access a hin).1
    obtain ⟨hpage, -, hview⟩ := shows₁.bytes a hread
    have hnot : ¬ Bytes.InWord (e - 4) a := by
      rw [scratch.inWord]
      have hwhere := scratch.2
      omega
    rw [hran₂.view cur a (.inr ⟨hpage, ?_⟩), hview, hx₁.mem, UserState.left,
      Bytes.store_of_not_inWord hnot]
    · rfl
    · rintro (hbelow | hbad)
      · exact absurd hbelow.2 (by omega)
      · exact hnot hbad
  subst hesp'
  obtain ⟨k₃, hrun₃, hran₃⟩ := leaveRest_returns hran₂.family he hran₂.executes frame scratch hsp₁
    heflags record hbytes hword handle
  rw [wp_ret hrun₃]
  have hsub : {a | Below (b + 52) a} ⊆ faultBytes (b + 52) (r.regs .esp) := fun a ha => .inl ha
  have hsub' : faultBytes b (r.regs .esp) ⊆ faultBytes (b + 52) (r.regs .esp) := by
    rintro a (⟨hbase, hlt⟩ | hin)
    · refine .inl ⟨hbase, ?_⟩
      rw [BitVec.toNat_add, show (52 : Word).toNat = 52 from rfl]
      omega
    · exact .inr hin
  have hran := ((hran₁'.mono hsub (Nat.le_refl 0)).trans (hran₂.mono hsub' (Nat.le_refl m))).trans
    (hran₃.mono (Set.empty_subset _) (Nat.le_refl 0))
  refine ⟨rfl, hran.mono Set.Subset.rfl (by omega), fun i hi => ?_⟩
  obtain ⟨howns, hview⟩ := hword i hi
  exact ⟨hran₃.owns _ howns, (hran₃.view cur _ (.inr ⟨howns.member, id⟩)).trans hview⟩

/-! ### A page fault -/

theorem handled_run {k₁ : Kernel} (ht : trap c (r.trapframe { f with va }) va 0 k = .exit () k₁)
    (own : k₁.curenv c = some cur) (eip : (k₁.envs cur).tf.eip = code.entry) :
    handled c cur code f (n + 1) r va k = (do
      let s ← (k₁.envs cur).tf.registers.execs c (handled c cur code f n) code.enter
      if s.eip = code.pgfault then do
        let utf ← loadWord c (s.regs .esp + 4)
        pgfault c cur utf
        let s ← s.execs c (handled c cur code f n) (.ret :: Upcall.leave)
        if s = r then pure () else exit .left
      else exit .left) k₁ := by
  rw [handled]
  dsimp only
  rw [ht]
  dsimp only
  rw [if_pos ⟨own, eip⟩]

namespace CowFamily

/-- A fault that ends: the page is a copy of the member's own, and the trap-time `%eip` is below the
trap-time stack. -/
def Handled (L : Layout) (handler : Word) (G : Set EnvIdx) (c : Nat) (cur : EnvIdx) (d : Nat)
    (r : Registers) (b va : Word) (m : Nat) (k k' : Kernel) : Prop :=
  Ran L handler G c cur d (faultBytes (b + 52) (r.regs .esp)) m k k' ∧ k'.Owns cur va ∧
    k'.HasWord cur (r.regs .esp - 4) r.eip

/-- A page fault at a page of `fork`, given what becomes of the store of the upcall. -/
theorem handled_of_store (h : CowFamily L code.entry G k) (he : cur ∈ G) (hx : k.Executes c cur d)
    (hup : code.entry ≠ 0) (hb : utrapframeAddr (r.regs .esp) = b) (frame : OnStackFrame b)
    (scratch : ScratchAt (r.regs .esp) b) (reads : code.Readable k cur) (hva : ForkPage va)
    (hfault : ¬ (k.entryAt cur va &&& pteP ≠ 0 ∧ k.entryAt cur va &&& pteW ≠ 0)) {m : Nat} {P : Prop}
    (hstore : ∀ k₁ s₁, Ran L code.entry G c cur d {a | Below (b + 52) a} 3 k k₁ → k₁.Owns cur va →
      s₁.regs .esp = b →
      wp (retry (handled c cur code f n s₁) 2 (storeWord c (r.regs .esp - 4) r.eip))
        (fun _ k₂ => Ran L code.entry G c cur d (faultBytes b (r.regs .esp)) m k₁ k₂ ∧
          k₂.HasWord cur (r.regs .esp - 4) r.eip) (fun _ _ => P) (fun _ => False) k₁) :
    wp (handled c cur code f (n + 1) r va)
      (fun _ k' => Handled L code.entry G c cur d r b va (3 + m) k k')
      (fun _ _ => P ∨ ¬ (k.phys.FreePages 3 ∧ k.Writable cur va ∧ code.IsSet k cur))
      (fun _ => False) k := by
  obtain ⟨k₁, htrap, hregs, hran₁, hrecord⟩ := h.startUpcall he hx hup hb frame { f with va }
  have hx₁ := hran₁.executes
  have heip : (k₁.envs cur).tf.eip = code.entry := congrArg Registers.eip hregs
  have hreads₁ := reads.ran hran₁ he
  rw [wp, handled_run htrap hx₁.own heip, hregs, ← wp]
  have hrecord' : ∀ i < 52, k₁.viewAt cur (b + BitVec.ofNat 32 i) =
      (((r.inMemory (fun _ => 0) (fun _ => false) fun _ => false).utf { f with va }).flatMap
        wordBytes)[i]? := hrecord
  -- up to the call of `pgfault`
  obtain ⟨s, k₂, v, hrun₂, hshows, hran₂, access, only, hesp, hflags, hargument, hwords, hset⟩ :=
    hran₁.family.enter_run (r := ⟨Function.update r.regs .esp b, code.entry, r.eflags⟩) (b := b) he
      hx₁ (by simp) frame hreads₁ rfl hrecord' (handled c cur code f n)
  rw [wp_bind, wp_ret hrun₂]
  by_cases hpgfault : s.eip = code.pgfault
  swap
  · rw [if_neg hpgfault, wp_exit]
    exact .inr fun hable => hpgfault (hset (hable.2.2.ran reads hran₁))
  rw [if_pos hpgfault, wp_bind]
  have hx₂ := hran₂.executes
  have hu₂ := hran₂.family.inUser he hx₂
  have hcan : ∀ a : Word, b.toNat - 8 ≤ a.toNat → a.toNat + 3 < b.toNat + 52 → v.CanRead a := by
    intro a h₁ h₂ i hi
    have hhigh := frame.high
    refine (access _ ?_).1
    rw [InStackFrame, BitVec.toNat_add, BitVec.toNat_ofNat]
    omega
  obtain ⟨hlow, hhigh⟩ := id frame
  have h4 : (b - 4).toNat = b.toNat - 4 := by
    rw [BitVec.toNat_sub, show (4 : Word).toNat = 4 from rfl]
    omega
  have hutf : loadWord c (s.regs .esp + 4) k₂ = .ret b k₂ := by
    have haddr : s.regs .esp + 4 = b - 4 := by
      rw [hshows.regs, hesp]
      bv_omega
    rw [haddr]
    refine hshows.load hu₂ ?_
    rw [UserState.load_eq (hcan _ (by omega) (by omega)), hargument]
  rw [wp_ret hutf, wp_bind]
  have hfirst : loadWord c b k₂ = .ret va k₂ := by
    refine hshows.load hu₂ ?_
    have hword := hwords 0 va rfl
    rw [show b + BitVec.ofNat 32 (4 * 0) = b from BitVec.add_zero b] at hword
    rw [UserState.load_eq (hcan _ (by omega) (by omega)), hword]
  have hsecond : loadWord c (b + 4) k₂ = .ret tPgflt k₂ := by
    refine hshows.load hu₂ ?_
    have hval : (b + 4).toNat = b.toNat + 4 := by
      rw [BitVec.toNat_add, show (4 : Word).toNat = 4 from rfl]
      omega
    have hword : v.mem.load (b + 4) = tPgflt := hwords 1 tPgflt rfl
    rw [UserState.load_eq (hcan _ (by omega) (by omega)), hword]
  -- the page
  have hran₁₂ := hran₁.trans hran₂
  have hentry : k₂.entryAt cur va = k.entryAt cur va := hran₁₂.pte cur _ _ (.inr rfl)
  have hfault₂ : ¬ (k₂.entryAt cur va &&& pteP ≠ 0 ∧ k₂.entryAt cur va &&& pteW ≠ 0) := by
    rwa [hentry]
  refine wp_mono (hran₂.family.pgfault_run he hx₂ hva hfault₂ hfirst hsecond) (fun _ k₃ hk₃ => ?_)
    (fun _ _ hno => .inr fun hable => hno ⟨hran₁₂.room 3 hable.1,
      (hran₁₂.access cur he va hva).1 hable.2.1⟩) (fun _ hno => hno)
  obtain ⟨hran₃, howns⟩ := hk₃
  have hrecords : ∀ i w, ((r.inMemory v.mem (fun _ => false) fun _ => false).utf { f with va })[i]? =
      some w → v.mem.load (b + BitVec.ofNat 32 (4 * i)) = w := fun i w hw => hwords i w hw
  have hran₁₃ := hran₁₂.trans (hran₃.mono (Set.empty_subset _) (Nat.le_refl 3))
  rw [wp_bind]
  refine wp_mono ((hshows.ran hran₃ he fun _ _ => id).leave_run hran₃.family he hran₃.executes frame
    scratch hesp hflags access only hrecords (handled c cur code f n) (m := m) (P := P)
    fun k₄ s₄ hran₄ hsp => hstore k₄ s₄ (hran₁₃.trans hran₄) (hran₄.owns va howns) hsp)
    (fun s' k₅ hk₅ => ?_) (fun _ _ hP => .inl hP) (fun _ hno => hno)
  obtain ⟨rfl, hran₅, hword⟩ := hk₅
  rw [if_pos rfl, wp_pure]
  have hsub : {a | Below (b + 52) a} ⊆ faultBytes (b + 52) (s'.regs .esp) := fun a ha => .inl ha
  exact ⟨((hran₁₃.mono hsub (Nat.le_refl _)).trans hran₅).mono Set.Subset.rfl (by omega),
    hran₅.owns va howns, hword⟩

/-- The store of a nested upcall is to the exception stack. It faults no more. -/
theorem handled_nested (h : CowFamily L code.entry G k) (he : cur ∈ G) (hx : k.Executes c cur d)
    (hup : code.entry ≠ 0) (hesp : r.regs .esp = uxstacktop - 52) (reads : code.Readable k cur)
    (hva : ForkPage va)
    (hfault : ¬ (k.entryAt cur va &&& pteP ≠ 0 ∧ k.entryAt cur va &&& pteW ≠ 0)) :
    wp (handled c cur code f (n + 1) r va)
      (fun _ k' => Ran L code.entry G c cur d {a | Below (uxstacktop - 52) a} 3 k k' ∧ k'.Owns cur va)
      (fun _ _ => ¬ (k.phys.FreePages 3 ∧ k.Writable cur va ∧ code.IsSet k cur))
      (fun _ => False) k := by
  have hval : (uxstacktop - 108).toNat = 4005560212 := by decide
  have hval' : (uxstacktop - 52 - 4).toNat = 4005560264 := by decide
  have frame : OnStackFrame (uxstacktop - 108) := ⟨by omega, by omega⟩
  have scratch : ScratchAt (r.regs .esp) (uxstacktop - 108) := by
    rw [hesp]
    exact ⟨by decide, .inr (by decide)⟩
  refine wp_mono (h.handled_of_store he hx hup (b := uxstacktop - 108) (by rw [hesp]; decide) frame
    scratch reads hva hfault (m := 0) (P := False) fun k₁ s₁ hran₁ _ _ => ?_) (fun _ k' hk' => ?_)
    (fun _ _ hno => hno.resolve_left id) (fun _ hno => hno)
  · have howns : ∀ i < 4, k₁.Owns cur (r.regs .esp - 4 + BitVec.ofNat 32 i) := by
      intro i hi
      refine hran₁.family.owns_stack he (onStack_iff.mpr ?_)
      rw [hesp, BitVec.toNat_add, hval', BitVec.toNat_ofNat]
      omega
    obtain ⟨k₂, hrun, hran₂, hview⟩ := hran₁.family.putWord he hran₁.executes r.eip howns
    rw [wp_ret (retry_ret hrun)]
    exact ⟨hran₂.mono (fun a ha => .inr ha) (Nat.le_refl 0),
      fun i hi => ⟨hran₂.owns _ (howns i hi), hview i hi⟩⟩
  · refine ⟨hk'.1.mono ?_ (Nat.le_refl 3), hk'.2.1⟩
    have hpage : (uxstacktop - 4096).toNat = 4005556224 := by decide
    have htop : (uxstacktop - 52).toNat = 4005560268 := by decide
    have hbelow : (uxstacktop - 108 + 52).toNat = 4005560264 := by decide
    rintro a (⟨hbase, hlt⟩ | hin)
    · rw [hbelow] at hlt
      exact ⟨hbase, by omega⟩
    · rw [scratch.inWord, hesp] at hin
      rw [Set.mem_ofPred_eq, Below, hpage]
      omega

end CowFamily

/-! ### The store of the upcall -/

theorem Kernel.Owns.page_congr {a : Word} (h : k.Owns e va) (hpage : a.toNat / 4096 = va.toNat / 4096) :
    k.Owns e a := by
  have hi : pdx a = pdx va := by
    apply Fin.ext
    rw [pdx_val, pdx_val]
    omega
  have hj : ptx a = ptx va := by
    apply Fin.ext
    rw [ptx_val, ptx_val, hpage]
  obtain ⟨hm, hp, hw⟩ := h
  rw [MemberPage, ← hi, ← hj, ← MemberPage] at hm
  rw [Kernel.pageAt, ← hi, ← hj, ← Kernel.pageAt] at hp
  rw [Kernel.entryAt, ← hi, ← hj, ← Kernel.entryAt] at hw
  exact ⟨hm, hp, hw⟩

/-- A word is on two pages at most. -/
theorem word_pages {a : Word} (page : ∀ i < 4, ForkPage (a + BitVec.ofNat 32 i)) {i j l : Nat}
    (hij : i < j) (hjl : j ≤ l) (hl : l < 4)
    (hne : (a + BitVec.ofNat 32 j).toNat / 4096 ≠ (a + BitVec.ofNat 32 i).toNat / 4096) :
    (a + BitVec.ofNat 32 l).toNat / 4096 = (a + BitVec.ofNat 32 j).toNat / 4096 := by
  have hzero := (forkPage_iff.mp (page 0 (by decide))).2
  rw [show a + BitVec.ofNat 32 0 = a from BitVec.add_zero a] at hzero
  have hval : ∀ n < 4, (a + BitVec.ofNat 32 n).toNat = a.toNat + n := by
    intro n hn
    rw [BitVec.toNat_add, BitVec.toNat_ofNat]
    omega
  rw [hval i (by omega), hval j (by omega)] at hne
  rw [hval l hl, hval j (by omega)]
  omega

namespace CowFamily

/-- A page that is not written in place is a page fault. -/
theorem probe_fault (h : CowFamily L handler G k) (he : cur ∈ G) (hx : k.Executes c cur d)
    (hva : ForkPage va) (hno : ¬ k.Owns cur va) : probe c va k = .exit (.fault va) k := by
  have hdenied : ∀ f, ¬ k.phys.UserPage d va f true := by
    intro f hf
    obtain ⟨hf, hpte⟩ := ((h.inUser he hx).userPage_iff (forkPage_utop hva)).mp hf
    exact hno ⟨.inl hva, ⟨f, hf⟩, hpte⟩
  have hcr3 : (k.cpus c).cr3 = d := congrArg Cpu.cr3 hx.cpu
  rw [probe, get_bind, hcr3]
  cases walk : k.phys.translate d va with
  | none => rfl
  | some entries =>
      obtain ⟨pde, pte⟩ := entries
      dsimp only
      rw [if_pos]
      · rfl
      · by_contra hno
        simp only [not_or] at hno
        exact hdenied _ ⟨pde, pte, walk, rfl, hno.1, hno.2.1, fun _ => hno.2.2⟩

/-- The first byte of a word that is not written in place. -/
theorem storeWord_cases (h : CowFamily L handler G k) (he : cur ∈ G) (hx : k.Executes c cur d)
    {a : Word} (page : ∀ i < 4, ForkPage (a + BitVec.ofNat 32 i)) (w : Word) :
    (∀ i < 4, k.Owns cur (a + BitVec.ofNat 32 i)) ∨
      ∃ i < 4, (∀ j < i, k.Owns cur (a + BitVec.ofNat 32 j)) ∧
        ¬ k.Owns cur (a + BitVec.ofNat 32 i) ∧
        storeWord c a w k = .exit (.fault (a + BitVec.ofNat 32 i)) k := by
  classical
  by_cases hall : ∀ i < 4, k.Owns cur (a + BitVec.ofNat 32 i)
  · exact .inl hall
  have hex : ∃ i, i < 4 ∧ ¬ k.Owns cur (a + BitVec.ofNat 32 i) := by
    by_contra hno
    exact hall fun i hi => by_contra fun hnot => hno ⟨i, hi, hnot⟩
  obtain ⟨hi, hnot⟩ := Nat.find_spec hex
  have hbefore : ∀ j < Nat.find hex, k.Owns cur (a + BitVec.ofNat 32 j) := by
    intro j hj
    by_contra hno
    exact Nat.find_min hex hj ⟨by omega, hno⟩
  refine .inr ⟨Nat.find hex, hi, hbefore, hnot, ?_⟩
  generalize Nat.find hex = i at hi hnot hbefore
  have hloop : ∀ n, i < n → forRange n (fun i => probe c (a + BitVec.ofNat 32 i)) k =
      .exit (.fault (a + BitVec.ofNat 32 i)) k := by
    intro n hn
    induction n with
    | zero => omega
    | succ n ih =>
        rw [forRange]
        by_cases heq : i = n
        · subst heq
          rw [bind_ret _ (h.probes_owned he hx hbefore)]
          exact h.probe_fault he hx (page i hi) hnot
        · exact bind_exit _ (ih (by omega))
  rw [storeWord, bind_exit _ (hloop 4 hi)]

/-- The word is stored, after a copy of each of the pages on which it is. -/
theorem upcallStore (h : CowFamily L code.entry G k) (he : cur ∈ G) (hx : k.Executes c cur d)
    (hup : code.entry ≠ 0) (hesp : r.regs .esp = uxstacktop - 52) (reads : code.Readable k cur)
    {a : Word} (page : ∀ i < 4, ForkPage (a + BitVec.ofNat 32 i)) (w : Word) :
    wp (retry (handled c cur code f n r) 2 (storeWord c a w))
      (fun _ k' => Ran L code.entry G c cur d
        {x | Below (uxstacktop - 52) x ∨ Bytes.InWord a x} 6 k k' ∧ k'.HasWord cur a w)
      (fun _ _ => ¬ (0 < n ∧ k.phys.FreePages 6 ∧
        (∀ i < 4, k.Writable cur (a + BitVec.ofNat 32 i)) ∧ code.IsSet k cur))
      (fun _ => False) k := by
  have hsub : {x | Below (uxstacktop - 52) x} ⊆ {x | Below (uxstacktop - 52) x ∨ Bytes.InWord a x} :=
    fun x hx => .inl hx
  -- the store of a word that is written in place
  have hdirect : ∀ {k : Kernel} (N : Nat), CowFamily L code.entry G k → k.Executes c cur d →
      (∀ i < 4, k.Owns cur (a + BitVec.ofNat 32 i)) →
      ∃ k', retry (handled c cur code f n r) N (storeWord c a w) k = .ret () k' ∧
        Ran L code.entry G c cur d {x | Below (uxstacktop - 52) x ∨ Bytes.InWord a x} 0 k k' ∧
        k'.HasWord cur a w := by
    intro k N h hx owns
    obtain ⟨k', hrun, hran, hview⟩ := h.putWord he hx w owns
    exact ⟨k', retry_ret hrun, hran.mono (fun x hx => .inr hx) (Nat.le_refl 0),
      fun i hi => ⟨hran.owns _ (owns i hi), hview i hi⟩⟩
  have hplace : ∀ {k : Kernel}, CowFamily L code.entry G k → ∀ i < 4,
      ¬ k.Owns cur (a + BitVec.ofNat 32 i) →
      ¬ (k.entryAt cur (a + BitVec.ofNat 32 i) &&& pteP ≠ 0 ∧
        k.entryAt cur (a + BitVec.ofNat 32 i) &&& pteW ≠ 0) :=
    fun h i hi hno hyes => hno (h.owns_fork he (page i hi) hyes.1 hyes.2)
  obtain howns | ⟨i, hi, hbefore, hnot, hfault⟩ := h.storeWord_cases he hx page w
  · obtain ⟨k', hrun, hran, hword⟩ := hdirect 2 h hx howns
    rw [wp_ret hrun]
    exact ⟨hran.mono Set.Subset.rfl (by omega), hword⟩
  rw [wp, retry_fault hfault, ← wp, wp_bind]
  cases n with
  | zero =>
      rw [handled, wp_exit]
      exact fun hable => absurd hable.1 (by decide)
  | succ n =>
      refine wp_mono (h.handled_nested he hx hup hesp reads (page i hi) (hplace h i hi hnot))
        (fun _ k₁ hk₁ => ?_) (fun _ _ hno hable => hno ⟨hable.2.1.mono (by decide),
          hable.2.2.1 i hi, hable.2.2.2⟩) (fun _ hno => hno)
      obtain ⟨hran₁, howns₁⟩ := hk₁
      have h₁ := hran₁.family
      have hx₁ := hran₁.executes
      obtain howns | ⟨j, hj, hbefore', hnot', hfault'⟩ := h₁.storeWord_cases he hx₁ page w
      · obtain ⟨k', hrun, hran, hword⟩ := hdirect 1 h₁ hx₁ howns
        rw [wp_ret hrun]
        exact ⟨((hran₁.mono hsub (Nat.le_refl 3)).trans hran).mono Set.Subset.rfl (by omega), hword⟩
      -- the word goes on, on a second page
      have hij : i < j := by
        by_contra hge
        obtain hlt | rfl := Nat.lt_or_eq_of_le (Nat.le_of_not_lt hge)
        · exact hnot' (hran₁.owns _ (hbefore j hlt))
        · exact hnot' howns₁
      have hpages : (a + BitVec.ofNat 32 j).toNat / 4096 ≠ (a + BitVec.ofNat 32 i).toNat / 4096 :=
        fun heq => hnot' (howns₁.page_congr heq)
      rw [wp, retry_fault hfault', ← wp, wp_bind]
      refine wp_mono (h₁.handled_nested he hx₁ hup hesp (reads.ran hran₁ he) (page j hj)
        (hplace h₁ j hj hnot')) (fun _ k₂ hk₂ => ?_) (fun _ _ hno hable => hno ⟨hran₁.room 3 hable.2.1,
          (hran₁.access cur he _ (page j hj)).1 (hable.2.2.1 j hj), hable.2.2.2.ran reads hran₁⟩)
        (fun _ hno => hno)
      obtain ⟨hran₂, howns₂⟩ := hk₂
      have howns : ∀ l < 4, k₂.Owns cur (a + BitVec.ofNat 32 l) := by
        intro l hl
        by_cases hlj : l < j
        · exact hran₂.owns _ (hbefore' l hlj)
        · exact howns₂.page_congr (word_pages page hij (by omega) hl hpages)
      obtain ⟨k', hrun, hran, hword⟩ := hdirect 0 hran₂.family hran₂.executes howns
      rw [wp_ret hrun]
      exact ⟨(((hran₁.trans hran₂).mono hsub (Nat.le_refl 6)).trans hran).mono Set.Subset.rfl
        (by omega), hword⟩

end CowFamily

/-! ### A store of the program -/

/-- The stack of the program is in the pages from `UTEXT` on. -/
structure ProgramStack (r : Registers) : Prop where
  low : 8388612 ≤ (r.regs .esp).toNat
  high : (r.regs .esp).toNat ≤ 4005552128

theorem ProgramStack.page (h : ProgramStack r) {i : Nat} (hi : i < 4) :
    ForkPage (r.regs .esp - 4 + BitVec.ofNat 32 i) := by
  obtain ⟨hlow, hhigh⟩ := h
  rw [forkPage_iff, BitVec.toNat_add, BitVec.toNat_sub, BitVec.toNat_ofNat,
    show (4 : Word).toNat = 4 from rfl]
  omega

/-- The page of `va` is there and may be written as it is. -/
def Kernel.WritesInPlace (k : Kernel) (e : EnvIdx) (va : Word) : Prop :=
  k.entryAt e va &&& pteP ≠ 0 ∧ k.entryAt e va &&& pteW ≠ 0

instance (k : Kernel) (e : EnvIdx) (va : Word) : Decidable (k.WritesInPlace e va) :=
  instDecidableAnd

/-- What a store of code with the registers `r` does to the memory of `e`: if it is a page fault,
the upcall stores the trap-time `%eip` below the stack before. -/
def Kernel.accesses (k : Kernel) (e : EnvIdx) (r : Registers) (va : Word) (b : Byte) : List Access :=
  if k.WritesInPlace e va then [.store e va b]
  else [.upcall e (r.regs .esp - 4) r.eip, .store e va b]

/-- What a store needs that may be a page fault: three pages for each of the pages that the store and
the upcall may copy, and a stack that can be written. -/
structure ForkCode.Able (code : ForkCode) (n : Nat) (r : Registers) (k : Kernel) (e : EnvIdx)
    (va : Word) : Prop where
  depth : 2 ≤ n
  room : k.phys.FreePages 9
  writable : k.Writable e va
  stack : ∀ i < 4, k.Writable e (r.regs .esp - 4 + BitVec.ofNat 32 i)
  set : code.IsSet k e

/-- The byte is stored, in a page that nobody else has. -/
structure Stored (L : Layout) (handler : Word) (G : Set EnvIdx) (c : Nat) (cur : EnvIdx) (d : Nat)
    (r : Registers) (va : Word) (b : Byte) (k k' : Kernel) : Prop where
  family : CowFamily L handler G k'
  executes : k'.Executes c cur d
  access : k.KeepsAccess G k'
  owns : k'.Owns cur va
  view : ∀ e a, e ≠ cur ∨ ForkPage a →
    k'.viewAt e a = Access.runs k.viewAt (k.accesses cur r va b) e a
  pte : ∀ e i j, e ≠ cur → k'.pte e i j = k.pte e i j
  copies : k.Copies cur k'
  like : ({ k with phys := k'.phys } : Kernel).Like k'

namespace CowFamily

/-- A page fault of the program. -/
theorem handled_program (h : CowFamily L code.entry G k) (he : cur ∈ G) (hx : k.Executes c cur d)
    (hup : code.entry ≠ 0) (stack : ProgramStack r) (reads : code.Readable k cur)
    (hva : ForkPage va) (hfault : ¬ k.WritesInPlace cur va) :
    wp (handled c cur code f n r va)
      (fun _ k' => Handled L code.entry G c cur d r (uxstacktop - 52) va 9 k k')
      (fun _ _ => ¬ code.Able n r k cur va) (fun _ => False) k := by
  cases n with
  | zero =>
      rw [handled, wp_exit]
      exact fun hable => absurd hable.depth (by decide)
  | succ n =>
      have hval : (uxstacktop - 52).toNat = 4005560268 := by decide
      have frame : OnStackFrame (uxstacktop - 52) := ⟨by omega, by omega⟩
      obtain ⟨hlow, hhigh⟩ := id stack
      have hb : utrapframeAddr (r.regs .esp) = uxstacktop - 52 := by
        rw [utrapframeAddr, if_neg]
        · rfl
        · rintro ⟨hin, -⟩
          have hbase : (uxstacktop - 4096).toNat = 4005556224 := by decide
          rw [ge_iff_le, BitVec.le_def] at hin
          omega
      refine wp_mono (h.handled_of_store he hx hup hb frame ⟨by omega, .inl hhigh⟩ reads hva hfault
        (m := 6) (P := ¬ code.Able (n + 1) r k cur va) fun k₁ s₁ hran₁ _ hsp => ?_)
        (fun _ _ hk' => hk') (fun _ _ hno hable => ?_) (fun _ hno => hno)
      · refine wp_mono (hran₁.family.upcallStore he hran₁.executes hup hsp (reads.ran hran₁ he)
          (fun i hi => stack.page hi) r.eip) (fun _ _ hk₂ => hk₂) (fun _ _ hno hable => ?_)
          (fun _ hno => hno)
        refine hno ⟨?_, hran₁.room 6 hable.room, fun i hi => ?_, hable.set.ran reads hran₁⟩
        · have hdepth := hable.depth
          omega
        · exact (hran₁.access cur he _ (stack.page hi)).1 (hable.stack i hi)
      · exact hno.elim (fun hnot => hnot hable)
          fun hnot => hnot ⟨hable.room.mono (by decide), hable.writable, hable.set⟩

/-- A store of a member changes its memory as if nothing were shared. If it does not come through,
there were no pages to copy to, or the environment may not write there. -/
theorem cowStore_spec (h : CowFamily L code.entry G k) (he : cur ∈ G) (hx : k.Executes c cur d)
    (hup : code.entry ≠ 0) (stack : ProgramStack r) (reads : code.Readable k cur)
    (hva : ForkPage va) (b : Byte) :
    wp (cowStore c cur code f n r va b)
      (fun _ k' => Stored L code.entry G c cur d r va b k k')
      (fun _ _ => ¬ code.Able n r k cur va) (fun _ => False) k := by
  have hkeep : ∀ {k k' : Kernel}, Ran L code.entry G c cur d {va} 0 k k' →
      k'.viewAt cur va = some b → ∀ e a, e ≠ cur ∨ ForkPage a →
      k'.viewAt e a = (Access.store cur va b).run k.viewAt e a := by
    intro k k' hran hview e a hplace
    by_cases heq : e = cur ∧ a = va
    · rw [heq.1, heq.2, hview, Access.run_store_self]
    · rw [Access.run_store_of_ne heq, hran.view e a]
      obtain hne | hin := hplace
      · exact .inl hne
      · by_cases hecur : e = cur
        · exact .inr ⟨.inl hin, fun ha => heq ⟨hecur, ha⟩⟩
        · exact .inl hecur
  by_cases hplace : k.WritesInPlace cur va
  · have howns := h.owns_fork he hva hplace.1 hplace.2
    obtain ⟨k', hrun, hran, hview⟩ := h.put he hx howns b
    rw [wp, cowStore, retry_ret hrun]
    refine ⟨hran.family, hran.executes, hran.access, hran.owns va howns, fun e a ha => ?_,
      fun e i j hne => hran.pte e i j (.inl hne), hran.copies, hran.like⟩
    rw [Kernel.accesses, if_pos hplace]
    exact hkeep hran hview e a ha
  -- the store faults
  have hfault : store c va b k = .exit (.fault va) k := by
    refine store_denied (h.inUser he hx).cr3 (fun f hf => hplace ?_) b
    obtain ⟨hf, hpte⟩ := ((h.inUser he hx).userPage_iff (forkPage_utop hva)).mp hf
    exact ⟨Kernel.entry_present hf, hpte.2 rfl⟩
  rw [wp, cowStore, retry_fault hfault, ← wp, wp_bind]
  refine wp_mono (h.handled_program he hx hup stack reads hva hplace) (fun _ k₁ hk₁ => ?_)
    (fun _ _ hno => hno) (fun _ hno => hno)
  obtain ⟨hran₁, howns, hword⟩ := hk₁
  obtain ⟨k', hrun, hran, hview⟩ := hran₁.family.put he hran₁.executes howns b
  rw [wp, retry_ret hrun]
  refine ⟨hran.family, hran.executes, hran₁.access.trans hran.access, hran.owns va howns,
    fun e a ha => ?_, fun e i j hne => (hran.pte e i j (.inl hne)).trans (hran₁.pte e i j (.inl hne)),
    hran₁.copies.trans hran.copies, (hran₁.like.withPhys k'.phys).trans hran.like⟩
  rw [Kernel.accesses, if_neg hplace, hkeep hran hview e a ha]
  refine Access.run_congr (fun _ _ hno => by simp at hno) ?_
  by_cases hin : e = cur ∧ Bytes.InWord (r.regs .esp - 4) a
  · obtain ⟨rfl, hin⟩ := hin
    obtain ⟨i, hi, rfl⟩ := inWord_offset hin
    rw [(hword i hi).2]
    exact (Access.run_upcall_self hi).symm
  · rw [hran₁.view e a]
    · exact (Access.run_upcall_of_not hin).symm
    · by_cases hecur : e = cur
      · have hpage := ha.resolve_left fun hne => hne hecur
        refine .inr ⟨.inl hpage, ?_⟩
        rintro (hbelow | hbad)
        · exact forkPage_not_below hpage hbelow
        · exact hin ⟨hecur, hbad⟩
      · exact .inl hecur

theorem cowStore_ret {byte : Byte} (h : CowFamily L code.entry G k) (he : cur ∈ G)
    (hx : k.Executes c cur d) (hup : code.entry ≠ 0) (stack : ProgramStack r)
    (reads : code.Readable k cur) (hva : ForkPage va)
    (run : cowStore c cur code f n r va byte k = .ret () k') :
    Stored L code.entry G c cur d r va byte k k' := by
  have hspec := h.cowStore_spec (f := f) (n := n) he hx hup stack reads hva byte
  rwa [wp_ret run] at hspec

end CowFamily

end Jos
