import Jos.Safety.Sending
import Jos.Safety.Wrapping
import Jos.User.Ipc

/-!
# The permissions that `ipc_recv` reports

A message with a page sets `env_ipc_perm` of its target, and nothing ever clears it: neither a
message without a page nor the next occupant of the slot. So what `ipc_recv` reports is right
for a message with a page, and for a message without one only if the slot never got a page.
-/

namespace Jos

open Prog

/-- A run from `k₀` to the state, with the messages sent, the last one first. -/
inductive History (G : Kernel → Event → Prop) (k₀ : Kernel) : List Message → Kernel → Prop
  | boot : History G k₀ [] k₀
  | send {l : List Message} {k k' : Kernel} {ev : Event} {cur : EnvIdx} {msg : Message}
      (history : History G k₀ l k) (safe : G k ev) (step : Step k ev k')
      (sends : k.Sends ev cur msg) : History G k₀ (msg :: l) k'
  | other {l : List Message} {k k' : Kernel} {ev : Event} (history : History G k₀ l k)
      (safe : G k ev) (step : Step k ev k') (unsent : ∀ cur msg, ¬ k.Sends ev cur msg) :
      History G k₀ l k'

theorem History.run {G : Kernel → Event → Prop} {k₀ k : Kernel} {l : List Message}
    (h : History G k₀ l k) : Run G k₀ k := by
  induction h with
  | boot => exact .refl
  | send history safe step sends ih => exact ih.tail ⟨_, safe, step⟩
  | other history safe step unsent ih => exact ih.tail ⟨_, safe, step⟩

theorem History.mono {G G' : Kernel → Event → Prop} {k₀ k : Kernel} {l : List Message}
    (h : History G k₀ l k) (weaken : ∀ k ev, G k ev → G' k ev) : History G' k₀ l k := by
  induction h with
  | boot => exact .boot
  | send history safe step sends ih => exact ih.send (weaken _ _ safe) step sends
  | other history safe step unsent ih => exact ih.other (weaken _ _ safe) step unsent

/-- Every run has a history. -/
theorem Run.history {G : Kernel → Event → Prop} {k₀ k : Kernel} (run : Run G k₀ k) :
    ∃ l, History G k₀ l k := by
  induction run with
  | refl => exact ⟨[], .boot⟩
  | @tail k k' run last ih =>
      obtain ⟨l, history⟩ := ih
      obtain ⟨ev, safe, step⟩ := last
      by_cases h : ∃ cur msg, k.Sends ev cur msg
      · obtain ⟨cur, msg, sends⟩ := h
        exact ⟨msg :: l, history.send safe step sends⟩
      · exact ⟨l, history.other safe step fun cur msg sends => h ⟨cur, msg, sends⟩⟩

/-- The permissions of the last page sent to the slot `e`. -/
def lastPerm (e : EnvIdx) : List Message → Word
  | [] => 0
  | msg :: l => if msg.dst = e ∧ msg.srcva < utop then msg.perm else lastPerm e l

/-- The message that is sent in `k` brings a page, and in `k'` it is mapped where its target
wanted it. -/
def Kernel.Transferred (k : Kernel) (cur : EnvIdx) (k' : Kernel) (msg : Message) : Prop :=
  msg.srcva < utop ∧ (k.inbox msg.dst).dstva < utop ∧
    ∃ f, k.pageAt cur msg.srcva = some f ∧ k'.pageAt msg.dst (k.inbox msg.dst).dstva = some f

/-- What `ipc_recv` says about `*perm_store`, for a message sent in `k` and received in `k'`. -/
structure PermFaithful (k : Kernel) (cur : EnvIdx) (k' : Kernel) (msg : Message) (perm : Word) :
    Prop where
  transferred : perm ≠ 0 ↔ k.Transferred cur k' msg
  mapping : k.Transferred cur k' msg →
    k'.entryAt msg.dst (k.inbox msg.dst).dstva &&& 0xFFF = perm

section Sent

variable {L : Layout} {k k' : Kernel} {ev : Event} {cur dst : EnvIdx} {msg : Message}
  {envid value srcva perm : Word}

/-- A page that was sent is mapped where the target wanted it. -/
theorem MemInv.sent_page (h : MemInv L k) (hcur : k.status cur ≠ .free) (hva : srcva < utop)
    (target : k.envid2env cur envid false = some dst)
    (share : (k.envs dst).ipcRecving = true → permOk perm →
      k.Shareable cur srcva dst (k.envs dst).ipcDstva perm)
    (run : sysIpcTrySend cur envid value srcva perm k = .ret 0 k') :
    permOk perm ∧ (k.envs dst).ipcDstva < utop ∧ ∃ f < 1048576, k.pageAt cur srcva = some f ∧
      k'.entryAt dst (k.envs dst).ipcDstva = mkPte f perm := by
  by_cases recving : (k.envs dst).ipcRecving = true
  swap
  · rw [sysIpcTrySend_idle target (by simpa using recving)] at run
    exact absurd (Outcome.ret.inj run).1 (by decide)
  by_cases hperm : permOk perm
  swap
  · rw [sysIpcTrySend_badPerm target recving hva hperm] at run
    exact absurd (Outcome.ret.inj run).1 (by decide)
  obtain ⟨hhole, hroom⟩ := share recving hperm
  rcases h.lookupIn_run hcur hva with ⟨hl, -⟩ | ⟨f, hf, hl⟩ | ⟨hole, hl⟩
  · rw [sysIpcTrySend_page target recving hva hperm hl] at run
    exact absurd (Outcome.ret.inj run).1 (by decide)
  · rw [sysIpcTrySend_page target recving hva hperm hl] at run
    dsimp only at run
    split at run
    · exact absurd (Outcome.ret.inj run).1 (by decide)
    · rename_i hwrite
      obtain ⟨hdst, hmax⟩ := hroom f hf fun hw hro => hwrite ⟨hw, hro⟩
      obtain ⟨r, k₁, hins, hends, hres⟩ := h.insertInto_spec (live_of_target hcur target) hdst
        hperm.toNat_lt (h.mappable hf) hmax
      have hlt : f < 1048576 := by
        have := h.phys.lt_npages (h.phys.tables.owned _ f hf)
        have := h.phys.npages_le
        omega
      obtain ⟨r', k₂, hins', hdone⟩ := sendPage_ret run
      obtain ⟨rfl, rfl⟩ := Outcome.ret.inj (hins.symm.trans hins')
      rcases hdone with ⟨-, hret⟩ | ⟨hr, -, rfl⟩
      · exact absurd hret (by decide)
      · rcases hres with ⟨rfl, -⟩ | ⟨-, hedits, -⟩
        · exact absurd (by decide) hr
        · refine ⟨hperm, hdst, f, hlt, hf, ?_⟩
          have hdirs : k₁.dirs = k.dirs := by rw [hends.1]; rfl
          rw [Kernel.entryAt, Kernel.sent_dirs, hdirs]
          exact hedits.pteAt_self
  · rw [sysIpcTrySend_page target recving hva hperm hl] at run
    dsimp only at run
    rw [if_pos ⟨hhole hole, by decide⟩] at run
    exact absurd (Outcome.ret.inj run).1 (by decide)

/-- The memory after a step that sends a message is what the system call left. -/
theorem Kernel.Sends.memory (sends : k.Sends ev cur msg) (step : Step k ev k')
    (parked : k.mode ev.cpu = .halted → k.curenv ev.cpu = none) :
    k.mode ev.cpu = .user ∧ ∃ k₁, sysIpcTrySend cur ev.frame.regs.edx msg.value msg.srcva msg.perm
      (k.setTf cur ev.frame) = .ret 0 k₁ ∧ k'.phys = k₁.phys ∧ k'.dirs = k₁.dirs := by
  obtain ⟨own, alive, call, target, -, hvalue, hsrcva, hperm, k₁, hdone⟩ := sends
  rw [hvalue, hsrcva, hperm]
  cases step with
  | start mode lock run => exact absurd call.1 (show (0 : Word) ≠ tSyscall by decide)
  | store mode walk user write => exact absurd call.1 (show (0 : Word) ≠ tSyscall by decide)
  | wake mode lock ring run => exact absurd ((parked mode).symm.trans own) (by simp)
  | @trap _ c tf cr2 input mode lock ring run =>
      refine ⟨mode, k₁, hdone, ?_⟩
      change k.curenv c = some cur at own
      change tf.Calls .ipcTrySend at call
      change sysIpcTrySend cur tf.regs.edx tf.regs.ecx tf.regs.ebx tf.regs.edi (k.setTf cur tf) =
        .ret 0 k₁ at hdone
      have own' : (k.setTf cur tf).curenv c = some cur := own
      have hwp : wp (Jos.trap c tf cr2 input) (fun _ _ => False)
          (fun _ k' => k'.phys = k₁.phys ∧ k'.dirs = k₁.dirs) (fun _ => True) k := by
        rw [wp_trap_act own alive ring, wp_trapDispatch_syscall own' call.1, syscall_send call.2,
          wp_ret hdone, wp_bind, wp_modify]
        refine wp_mono trapReturn_dispatch (fun _ _ hf => hf) (fun _ k₂ out => ?_) (fun _ he => he)
        obtain ⟨hphys, hdirs⟩ := out.memory
        exact ⟨hphys, hdirs.trans Kernel.dirs_setTf⟩
      exact (wp_exit_eq run).mp hwp

/-- A message with a page, sent in a safe step. -/
theorem MemInv.sends_page (h : MemInv L k) (hex : Exclusive Executing none k)
    (safe : SafeStep k ev) (step : Step k ev k') (sends : k.Sends ev cur msg)
    (hva : msg.srcva < utop) :
    permOk msg.perm ∧ (k.envs msg.dst).ipcDstva < utop ∧ ∃ f < 1048576,
      k.pageAt cur msg.srcva = some f ∧
      k'.entryAt msg.dst (k.envs msg.dst).ipcDstva = mkPte f msg.perm := by
  have hparked : k.mode ev.cpu = .halted → k.curenv ev.cpu = none := fun hm =>
    hex.parked _ (by simp) (by rw [hm]; decide) (by rw [hm]; decide)
  obtain ⟨mode, k₁, hrun, hphys, hdirs⟩ := sends.memory step hparked
  have hcur : (k.setTf cur ev.frame).status cur ≠ .free := by
    rw [Kernel.setTf_status]
    exact ((hex.enter executing mode).own _ cur rfl sends.own).1
  have htarget : (k.setTf cur ev.frame).envid2env cur ev.frame.regs.edx false = some msg.dst :=
    (Kernel.envid2env_setTf _ _).trans sends.target
  have hcall := (safe.memory cur ⟨sends.own, sends.alive⟩).setTf
  have hshare : ((k.setTf cur ev.frame).envs msg.dst).ipcRecving = true → permOk msg.perm →
      (k.setTf cur ev.frame).Shareable cur msg.srcva msg.dst
        ((k.setTf cur ev.frame).envs msg.dst).ipcDstva msg.perm := by
    intro hrecv hperm
    have hsend := hcall.send msg.dst sends.call htarget hrecv
    rw [← sends.srcva, ← sends.perm] at hsend
    exact hsend hva hperm
  obtain ⟨hperm, hdst, f, hlt, hpage, hentry⟩ := h.setTf.sent_page hcur hva htarget hshare hrun
  have hdstva : ((k.setTf cur ev.frame).envs msg.dst).ipcDstva = (k.envs msg.dst).ipcDstva :=
    Kernel.setEnv_field (f := Env.ipcDstva) (by rfl) msg.dst
  rw [hdstva] at hdst hentry
  rw [Kernel.pageAt_setTf] at hpage
  refine ⟨hperm, hdst, f, hlt, hpage, ?_⟩
  rw [Kernel.entryAt, hphys, hdirs]
  exact hentry

end Sent

section Histories

variable {m : Machine} {binaries : List Binary} {k₀ k k₁ k₂ k₃ : Kernel} {l : List Message}
  {ev : Event} {cur e : EnvIdx} {msg : Message}

theorem lastPerm_cons_of_page (hdst : msg.dst = e) (hva : msg.srcva < utop) :
    lastPerm e (msg :: l) = msg.perm := if_pos ⟨hdst, hva⟩

theorem lastPerm_cons_of_not (h : ¬ (msg.dst = e ∧ msg.srcva < utop)) :
    lastPerm e (msg :: l) = lastPerm e l := if_neg h

/-- A slot that never got a page. -/
theorem lastPerm_eq_zero (h : ∀ msg ∈ l, msg.dst = e → utop ≤ msg.srcva) : lastPerm e l = 0 := by
  induction l with
  | nil => rfl
  | cons msg l ih =>
      rw [lastPerm_cons_of_not fun hpage =>
        BitVec.not_lt.mpr (h msg (by simp) hpage.1) hpage.2]
      exact ih fun msg' hmem => h msg' (by simp [hmem])

/-- The permissions of a page are never 0. -/
theorem lastPerm_ne_zero (hperm : ∀ msg ∈ l, msg.srcva < utop → msg.perm ≠ 0)
    (h : ∃ msg ∈ l, msg.dst = e ∧ msg.srcva < utop) : lastPerm e l ≠ 0 := by
  induction l with
  | nil => simp at h
  | cons msg l ih =>
      by_cases hpage : msg.dst = e ∧ msg.srcva < utop
      · rw [lastPerm_cons_of_page hpage.1 hpage.2]
        exact hperm msg (by simp) hpage.2
      · rw [lastPerm_cons_of_not hpage]
        refine ih (fun msg' hmem => hperm msg' (by simp [hmem])) ?_
        obtain ⟨msg', hmem, hpage'⟩ := h
        rcases List.mem_cons.mp hmem with rfl | hmem'
        · exact absurd hpage' hpage
        · exact ⟨msg', hmem', hpage'⟩

theorem permOk.ne_zero {perm : Word} (h : permOk perm) : perm ≠ 0 := by
  rintro rfl
  exact absurd h.1 (by decide)

/-- A CPU without an environment of its own. -/
theorem Exclusive.idle (hex : Exclusive Executing none k) (c : Nat)
    (mode : k.mode c = .starting ∨ k.mode c = .halted) : k.curenv c = none := by
  refine hex.parked c (by simp) ?_ ?_
  · rcases mode with hm | hm <;> rw [hm] <;> decide
  · rcases mode with hm | hm <;> rw [hm] <;> decide

theorem loadIcode_keepsInbox {b : Binary} : Keeps Kernel.inbox (loadIcode e b) := by
  refine .ite (fun _ => .panic _) fun _ => .bind paddrPgdir_keepsInbox fun _ => ?_
  refine .bind (pmap_keepsInbox _) fun _ => .bind (keepsInbox_setEnv fun _ => rfl) fun _ => ?_
  exact pmap_keepsInbox _

theorem envCreate_keepsInbox {b : Binary} : Keeps Kernel.inbox (envCreate b) := by
  refine .bind envAlloc_keepsInbox fun r => ?_
  cases r with
  | error r => exact .panic _
  | ok e => exact .bind loadIcode_keepsInbox fun _ => keepsInbox_setEnv fun _ => rfl

theorem envCreates_keepsInbox (binaries : List Binary) :
    Keeps Kernel.inbox (envCreates binaries) := by
  induction binaries with
  | nil => exact .pure _
  | cons b rest ih => exact .bind envCreate_keepsInbox fun _ => ih

/-- Booting leaves no permissions behind. -/
theorem Booted.perm_zero (booted : Booted m binaries k₀) (e : EnvIdx) : (k₀.inbox e).perm = 0 := by
  obtain ⟨n, l, p, -, hcreate⟩ := booted.kernTree
  obtain ⟨-, -, -, -, -, hzero, -⟩ := envInit_spec m.toHardware p
  have hkeeps := (envCreates_keepsInbox binaries).ret hcreate
  rw [hkeeps]
  exact congrArg Env.ipcPerm (hzero e)

/-- `env_ipc_perm` is what the last page brought. -/
theorem History.perm_eq (booted : Booted m binaries k₀) (history : History SafeStep k₀ l k) :
    (∀ e, (k.inbox e).perm = lastPerm e l) ∧ ∀ msg ∈ l, msg.srcva < utop → msg.perm ≠ 0 := by
  induction history with
  | boot => exact ⟨booted.perm_zero, by simp⟩
  | @send l k k' ev cur msg history safe step sends ih =>
      obtain ⟨L, -, -, hmem, hex⟩ := booted.run history.run
      refine ⟨fun e => ?_, fun msg' hmem' hva => ?_⟩
      · obtain ⟨-, put⟩ := sends.put step (hex.idle _)
        rw [put]
        by_cases he : e = msg.dst
        · subst he
          rw [Function.update_self, Inbox.put]
          by_cases hva : msg.srcva < utop
          · rw [lastPerm_cons_of_page rfl hva]
            exact if_pos hva
          · rw [lastPerm_cons_of_not fun hpage => hva hpage.2, ← ih.1]
            exact if_neg hva
        · rw [Function.update_of_ne he, lastPerm_cons_of_not fun hpage => he hpage.1.symm]
          exact ih.1 e
      · rcases List.mem_cons.mp hmem' with rfl | hold
        · exact (hmem.sends_page hex safe step sends hva).1.ne_zero
        · exact ih.2 msg' hold hva
  | @other l k k' ev history safe step unsent ih =>
      obtain ⟨L, -, -, hmem, hex⟩ := booted.run history.run
      refine ⟨fun e => ?_, ih.2⟩
      rw [← ih.1 e]
      cases step.ipcStep (hex.idle _) with
      | quiet unsent' unasked same => rw [same]
      | send sends recving put => exact absurd sends (unsent _ _)
      | @receive cur va receives await =>
          rw [await]
          by_cases he : e = cur
          · subst he
            rw [Function.update_self]
            rfl
          · rw [Function.update_of_ne he]

/-- A safe step that sends nothing to the slot `e`. -/
def Silent (e : EnvIdx) (k : Kernel) (ev : Event) : Prop :=
  SafeStep k ev ∧ ∀ cur msg, k.Sends ev cur msg → msg.dst ≠ e

/-- Until the next message the permissions stay. -/
theorem Run.perm_eq (booted : Booted m binaries k₀) (before : Run SafeStep k₀ k₁)
    (run : Run (Silent e) k₁ k₂) : (k₂.inbox e).perm = (k₁.inbox e).perm := by
  induction run with
  | refl => rfl
  | @tail k k' run last ih =>
      obtain ⟨ev, ⟨safe, silent⟩, step⟩ := last
      obtain ⟨L, -, -, hmem, hex⟩ := booted.run (before.trans (Run.mono run fun _ _ h => h.1))
      rw [← ih]
      cases step.ipcStep (hex.idle _) with
      | quiet unsent unasked same => rw [same]
      | send sends recving put => rw [put, Function.update_of_ne (silent _ _ sends).symm]
      | @receive cur va receives await =>
          rw [await]
          by_cases he : e = cur
          · subst he
            rw [Function.update_self]
            rfl
          · rw [Function.update_of_ne he]

theorem permOk.or_present {perm : Word} (h : permOk perm) : perm ||| pteP = perm := by
  have hbit := congrArg (fun w : Word => w.getLsbD 0) h.1
  apply BitVec.eq_of_getLsbD_eq
  intro i hi
  rw [BitVec.getLsbD_or]
  by_cases h0 : i = 0
  · subst h0
    simpa [pteU, pteP] using hbit
  · have hP : pteP.getLsbD i = false := by
      rw [show pteP = 1#32 by rfl, BitVec.getLsbD_one]
      simp [h0]
    rw [hP, Bool.or_false]

/-- The permission bits of a mapping. -/
theorem permOk.mkPte_perm {perm : Word} (h : permOk perm) (f : Nat) :
    mkPte f perm &&& 0xFFF = perm := by
  rw [mkPte_and f perm (by decide), h.or_present]
  apply BitVec.eq_of_toNat_eq
  have hmask : (0xFFF : Word).toNat = 2 ^ 12 - 1 := rfl
  rw [BitVec.toNat_and, hmask, Nat.and_two_pow_sub_one_eq_mod]
  exact Nat.mod_eq_of_lt h.toNat_lt

/-- What `ipc_recv` reports is right exactly if the message brings a page, or its target has
never got one. `k₂` is where it is read, and in `k₃` the mapping is still what the message
made of it. -/
theorem ipc_perm_faithful (booted : Booted m binaries k₀) (history : History SafeStep k₀ l k)
    (safe : SafeStep k ev) (step : Step k ev k₁) (sends : k.Sends ev cur msg)
    (later : Run (Silent msg.dst) k₁ k₂) (kept : k₃.entryAt msg.dst (k.inbox msg.dst).dstva =
      k₁.entryAt msg.dst (k.inbox msg.dst).dstva) :
    PermFaithful k cur k₃ msg ((k₂.inbox msg.dst).permStore 0) ↔
      msg.srcva < utop ∨ ∀ msg' ∈ l, msg'.dst = msg.dst → utop ≤ msg'.srcva := by
  obtain ⟨L, -, -, hmem, hex⟩ := booted.run history.run
  obtain ⟨hperm, hpages⟩ := history.perm_eq booted
  obtain ⟨-, put⟩ := sends.put step (hex.idle _)
  have hself : k₁.inbox msg.dst = (k.inbox msg.dst).put msg := by
    rw [put, Function.update_self]
  have hstored : (k₂.inbox msg.dst).permStore 0 =
      if msg.srcva < utop then msg.perm else lastPerm msg.dst l := by
    have hlater := Run.perm_eq booted (history.run.tail ⟨ev, safe, step⟩) later
    rw [Inbox.permStore, if_neg (by decide), hlater, hself, ← hperm]
    rfl
  rw [hstored]
  by_cases hva : msg.srcva < utop
  · obtain ⟨hok, hdst, f, hlt, hpage, hentry⟩ := hmem.sends_page hex safe step sends hva
    have hnow : k₃.entryAt msg.dst (k.inbox msg.dst).dstva = mkPte f msg.perm := kept.trans hentry
    have htransferred : k.Transferred cur k₃ msg := by
      refine ⟨hva, hdst, f, hpage, ?_⟩
      rw [Kernel.pageAt, Phys.target]
      exact (congrArg entryFrame hnow).trans (entryFrame_mkPte hlt hok.toNat_lt)
    rw [if_pos hva]
    refine ⟨fun _ => .inl hva, fun _ => ⟨⟨fun _ => htransferred, fun _ => hok.ne_zero⟩, fun _ => ?_⟩⟩
    rw [hnow, hok.mkPte_perm]
  · have hnot : ¬ k.Transferred cur k₃ msg := fun h => hva h.1
    rw [if_neg hva]
    constructor
    · intro faithful
      by_contra hold
      rw [not_or] at hold
      obtain ⟨-, hold⟩ := hold
      push Not at hold
      obtain ⟨msg', hmem', hdst, hpage⟩ := hold
      refine hnot (faithful.transferred.mp (lastPerm_ne_zero hpages ⟨msg', hmem', hdst, ?_⟩))
      exact BitVec.not_le.mp hpage
    · rintro (h | hnone)
      · exact absurd h hva
      · rw [lastPerm_eq_zero hnone]
        exact ⟨⟨fun h => absurd rfl h, fun h => absurd h hnot⟩, fun h => absurd h hnot⟩

end Histories

/-! ### A page, and then only a value -/

/-- A message of the parent is safe if nobody executes the child, and the page has room for
another reference. -/
theorem Family.clean_send {d d' n : Nat} {st : EnvStatus} {k : Kernel} {value srcva perm : Word}
    (h : Family d d' n st k) (live : st ≠ .free) (idle : ∀ c, c ≠ 0 → k.curenv c ≠ some 1)
    (share : srcva < utop → k.Shareable 0 srcva 1 (k.envs 1).ipcDstva perm) :
    CleanStep k (sendEvent value srcva perm) := by
  have hcall : (sendEvent value srcva perm).frame.Calls .ipcTrySend := sendEvent_calls
  have htarget : ∀ cur e, k.curenv 0 = some cur →
      k.envid2env cur (sendEvent value srcva perm).frame.regs.edx false = some e →
      cur = 0 ∧ e = 1 := by
    intro cur e own target
    obtain rfl : 0 = cur := Option.some.inj (h.parent.own.symm.trans own)
    exact ⟨rfl, Option.some.inj (target.symm.trans (h.target live false))⟩
  refine ⟨fun _ => .send_of hcall fun cur e enters target => ?_, fun cur enters =>
    ⟨fun _ hc => absurd (hc.unique hcall) (by decide),
      fun _ _ hc => absurd (hc.unique hcall) (by decide), fun dst _ target _ hva _ => ?_⟩,
    .of_calls fun _ hc => by rw [hc.unique hcall]; decide⟩
  · obtain ⟨rfl, rfl⟩ := htarget cur e enters.1 target
    rintro ⟨c, hc, hruns⟩
    exact idle c hc hruns.2
  · obtain ⟨rfl, rfl⟩ := htarget cur dst enters.1 target
    exact share hva

/-- Parent and child both have the page `f` at `0x800000`. -/
structure Kernel.Shared (k : Kernel) (f : Nat) : Prop where
  parent : k.pageAt 0 0x800000 = some f
  child : k.entryAt 1 0x800000 = mkPte f (pteU ||| pteP)
  lt : f < 1048576

/-- The child waits on CPU 1 for a page at `0x800000`, and the parent sends one. -/
theorem qemu_sends : ∃ k₀ l k k' d d' f, Booted qemu [intProgram] k₀ ∧ History CleanStep k₀ l k ∧
    CleanStep k (sendEvent 7 0x800000 (pteU ||| pteP)) ∧
    Step k (sendEvent 7 0x800000 (pteU ||| pteP)) k' ∧
    k.Sends (sendEvent 7 0x800000 (pteU ||| pteP)) 0 ⟨1, 0x1000, 7, 0x800000, pteU ||| pteP⟩ ∧
    Family d d' 2 .runnable k' ∧ k'.curenv 1 ≠ some 1 ∧ k'.Shared f ∧ k'.phys.FreePages 62 := by
  obtain ⟨k₀, k, d, d', hbooted, hrun, hfamily, hflag, hdstva, hfree, honly, hnobody⟩ := qemu_awaits
  obtain ⟨L, -, h₀, hmem, -⟩ := hbooted.run (hrun.mono fun _ _ h => h.safe)
  obtain ⟨f, hlt, hpage⟩ := hfamily.mapped
  obtain ⟨hpos, hle⟩ := honly.ref h₀ hmem hpage
  have hroom : k.phys.ref f ≠ 65535 := by
    intro heq
    rw [heq] at hle
    exact absurd hle (by decide)
  have hshare : k.Shareable 0 0x800000 1 (k.envs 1).ipcDstva (pteU ||| pteP) := by
    refine ⟨fun hhole => absurd (hpage.symm.trans hhole.2) (by simp), fun g hg _ => ?_⟩
    obtain rfl : f = g := Option.some.inj (hpage.symm.trans hg)
    rw [hdstva]
    exact ⟨by decide, .inr hroom⟩
  obtain ⟨q, hinsert, hedits, hleft⟩ : ∃ q, pageInsert d' f (k.envs 1).ipcDstva (pteU ||| pteP) k.phys =
      .ret 0 q ∧ Phys.Edits k.dirs k.phys q 1 (pdx 0x800000) (ptx 0x800000)
        (mkPte f (pteU ||| pteP)) ∧ q.FreePages 62 := by
    rw [hdstva]
    have hva : (0x800000 : Word) < utop := by decide
    have hperm : (pteU ||| pteP).toNat < 4096 := by decide
    rcases hmem.phys.insert hfamily.pgdir hva hperm (hmem.mappable hpage) (.inr hroom) with ⟨-, hnone⟩ | ⟨q, hins, -, hedits, hleft⟩
    · obtain ⟨g, hg⟩ := hfree.head
      rw [hnone] at hg
      simp at hg
    · exact ⟨q, hins, hedits, hleft 62 hfree⟩
  obtain ⟨k', hstep, hsends, hlike⟩ := hfamily.sendsPage hmem hflag hpage hinsert
  obtain ⟨l, history⟩ := Run.history hrun
  have hother : ¬ ((0 : EnvIdx) = 1 ∧ pdx 0x800000 = pdx 0x800000 ∧ ptx 0x800000 = ptx 0x800000) :=
    fun h => absurd h.1 (by decide)
  have hphys' : k'.phys = q := hlike.phys
  have hdirs' : k'.dirs = k.dirs := hlike.dirs.trans (Kernel.sent_dirs _)
  refine ⟨k₀, l, k, k', d, d', f, hbooted, history,
    hfamily.clean_send (by decide) hnobody fun _ => hshare, hstep, hsends, ?_, ?_, ⟨?_, ?_, hlt⟩, ?_⟩
  · refine Family.like (Family.sent (hfamily.setPhys ?_) 0x1000 7 (pteU ||| pteP)) hlike
    rw [hedits.pteAt_of_ne _ _ _ (by decide)]
    exact hfamily.page
  · rw [Kernel.curenv, hlike.cpus]
    exact hnobody 1 (by decide)
  · rw [Kernel.pageAt, Phys.target, hphys', hdirs', hedits.pteAt_of_ne _ _ _ hother]
    exact hpage
  · rw [Kernel.entryAt, hphys', hdirs']
    exact hedits.pteAt_self
  · rw [hphys']
    exact hleft

/-- What `ipc_recv` reports of this message is right. -/
theorem ipc_perm_faithful_qemu : ∃ k₀ l k k', Booted qemu [intProgram] k₀ ∧
    History SafeStep k₀ l k ∧
    k.Sends (sendEvent 7 0x800000 (pteU ||| pteP)) 0 ⟨1, 0x1000, 7, 0x800000, pteU ||| pteP⟩ ∧
    PermFaithful k 0 k' ⟨1, 0x1000, 7, 0x800000, pteU ||| pteP⟩ ((k'.inbox 1).permStore 0) := by
  obtain ⟨k₀, l, k, k', d, d', f, hbooted, clean, hclean, hstep, hsends, -⟩ := qemu_sends
  have history : History SafeStep k₀ l k := clean.mono fun _ _ h => h.safe
  exact ⟨k₀, l, k, k', hbooted, history, hsends,
    (ipc_perm_faithful hbooted history hclean.safe hstep hsends .refl rfl).mpr
      (.inl (by decide))⟩

/-- The child then waits on CPU 2 for a message without a page, and gets one. The permissions
of the page are still there. -/
theorem ipc_perm_stale : ∃ k₀ l k k', Booted qemu [intProgram] k₀ ∧ History SafeStep k₀ l k ∧
    SafeStep k (sendEvent 9 utop 0) ∧ Step k (sendEvent 9 utop 0) k' ∧
    k.Sends (sendEvent 9 utop 0) 0 ⟨1, 0x1000, 9, utop, 0⟩ ∧
    (k'.inbox 1).permStore 0 = pteU ||| pteP ∧
    ¬ PermFaithful k 0 k' ⟨1, 0x1000, 9, utop, 0⟩ ((k'.inbox 1).permStore 0) := by
  obtain ⟨k₀, l, k₁, k₂, d, d', f, hbooted, clean, hclean, hstep, hsends, hfamily₂, hidle, -⟩ :=
    qemu_sends
  have history₂ : History SafeStep k₀ _ k₂ :=
    (clean.send hclean hstep hsends).mono fun _ _ h => h.safe
  obtain ⟨hstart, hchild, hfamily₃⟩ := hfamily₂.starts (by decide) (by decide)
  have history₃ : History SafeStep k₀ _ (k₂.ran 2 1 d') :=
    history₂.other (.start k₂ 2) hstart fun cur msg h =>
      absurd h.call.1 (show (0 : Word) ≠ tSyscall by decide)
  obtain ⟨k, hrecv, hfamily, -, -, hflag, -, hidle', hcpus⟩ :=
    hfamily₃.receives (by decide) hchild utop (by decide)
  have hcall := callFrame_calls .ipcRecv utop 0 0 0 0
  have history₄ : History SafeStep k₀ _ k :=
    history₃.other (.of_calls fun call hc => by rw [hc.unique hcall]; decide) hrecv fun cur msg h =>
      absurd (h.call.unique hcall) (by decide)
  have hnobody : ∀ c, c ≠ 0 → k.curenv c ≠ some 1 := by
    intro c hc
    by_cases h2 : c = 2
    · subst h2
      rw [hidle']
      simp
    · by_cases h1 : c = 1
      · subst h1
        rw [Kernel.curenv, hcpus 1 (by decide), Kernel.ran_cpus_of_ne (by decide)]
        exact hidle
      · rw [(hfamily.cpus c (by omega)).1]
        simp
  obtain ⟨L, hsets, h₀, hmem, hex⟩ := hbooted.run history₄.run
  have hexists : k.phys.LookupExists d utop := by
    intro _
    obtain ⟨-, -, -, -, hentry⟩ := hbooted.utop_mapped hsets h₀ hmem hfamily.parent.pgdir
    rw [hentry, pgnum_mkPte (by decide) (by decide), hmem.phys.npages, hsets.npages]
    decide
  obtain ⟨k', hstep', hsends', -⟩ : ∃ k', Step k (sendEvent 9 utop 0) k' ∧
      k.Sends (sendEvent 9 utop 0) 0 ⟨1, 0x1000, 9, utop, 0⟩ ∧ _ :=
    hfamily.sendsValue hmem hflag (BitVec.le_refl utop) hexists
  have hsafe' : SafeStep k (sendEvent 9 utop 0) :=
    (hfamily.clean_send (by decide) hnobody fun h => absurd h (BitVec.lt_irrefl utop)).safe
  have hperm : (k'.inbox 1).permStore 0 = pteU ||| pteP := by
    have hlast := ((history₄.send hsafe' hstep' hsends').perm_eq hbooted).1 1
    rw [Inbox.permStore, if_neg (by decide), hlast]
    rfl
  refine ⟨k₀, _, k, k', hbooted, history₄, hsafe', hstep', hsends', hperm, fun faithful => ?_⟩
  rw [hperm] at faithful
  exact absurd (faithful.transferred.mp (by decide)).1 (BitVec.lt_irrefl utop)

end Jos
