import Jos.Boot.Program
import Jos.Kernel.EnvId

/-!
# The table of environments

A history is a sequence of calls of `env_alloc` and `env_free` from `env_init` on, with
whatever the rest of the kernel does in between as long as it leaves the table
alone. The trace of a history, newest event first, records the ids that were
given out and taken back. The free list has exactly the free slots on it, and the
ids of a slot are its generations in turn, so that an id that was taken back is
refused until the generations of its slot have gone round.
-/

namespace Jos

open Prog

inductive TableEvent where
  | allocated (e : EnvIdx) (id : Word)
  | freed (e : EnvIdx) (id : Word)
  deriving DecidableEq, Repr

/-- The ids given to the slot `e`, the last one first. -/
def idsOf (trace : List TableEvent) (e : EnvIdx) : List Word :=
  trace.filterMap fun
    | .allocated e' id => if e' = e then some id else none
    | .freed _ _ => none

/-- Nothing of the table has changed. -/
structure Kernel.SameTable (k k' : Kernel) : Prop where
  envFreeList : k'.envFreeList = k.envFreeList
  link : ∀ e, (k'.envs e).link = (k.envs e).link
  id : ∀ e, (k'.envs e).id = (k.envs e).id
  free : ∀ e, k'.status e = .free ↔ k.status e = .free

/-- The sequences of `env_alloc` and `env_free` of environments in use. -/
inductive TableHistory (m : Hardware) : List TableEvent → Kernel → Prop
  | init (p : Phys) : TableHistory m [] (envInit m p)
  | alloc {trace : List TableEvent} {k k' : Kernel} {e : EnvIdx} (parentId : Word)
      (before : TableHistory m trace k) (run : envAlloc parentId k = .ret (.ok e) k') :
      TableHistory m (.allocated e (k'.envs e).id :: trace) k'
  | refused {trace : List TableEvent} {k k' : Kernel} {r : Word} (parentId : Word)
      (before : TableHistory m trace k) (run : envAlloc parentId k = .ret (.error r) k') :
      TableHistory m trace k'
  | free {trace : List TableEvent} {k k' : Kernel} {e : EnvIdx} (c : Nat)
      (before : TableHistory m trace k) (used : k.status e ≠ .free)
      (run : envFree c e k = .ret () k') :
      TableHistory m (.freed e (k.envs e).id :: trace) k'
  | other {trace : List TableEvent} {k k' : Kernel} (before : TableHistory m trace k)
      (same : k.SameTable k') : TableHistory m trace k'

section Ids

variable {trace : List TableEvent} {e e' : EnvIdx} {id : Word}

@[simp] theorem idsOf_nil : idsOf [] e = [] := rfl

@[simp] theorem idsOf_allocated : idsOf (.allocated e id :: trace) e = id :: idsOf trace e := by
  simp [idsOf]

theorem idsOf_allocated_of_ne (h : e' ≠ e) :
    idsOf (.allocated e' id :: trace) e = idsOf trace e := by
  simp [idsOf, h]

@[simp] theorem idsOf_freed : idsOf (.freed e' id :: trace) e = idsOf trace e := by
  simp [idsOf]

theorem idsOf_append (later earlier : List TableEvent) :
    idsOf (later ++ earlier) e = idsOf later e ++ idsOf earlier e := by
  simp [idsOf]

end Ids

/-- The invariant of the table. -/
structure TableInv (trace : List TableEvent) (k : Kernel) : Prop where
  list : ∃ l, IsList (fun e => (k.envs e).link) k.envFreeList l ∧ ∀ e, e ∈ l ↔ k.status e = .free
  /-- The ids of a slot are its generations in turn. -/
  ids : ∀ e i id, (idsOf trace e)[i]? = some id → id = envIdAt e ((idsOf trace e).length - i)
  last : ∀ e, (k.envs e).id = envIdAt e (idsOf trace e).length
  used : ∀ e, k.status e ≠ .free → idsOf trace e ≠ []
  /-- An id that was taken back was the last one of its slot, which is free until it is
  given out again. -/
  freed : ∀ later e id earlier, trace = later ++ .freed e id :: earlier →
    idsOf earlier e ≠ [] ∧ id = envIdAt e (idsOf earlier e).length ∧
      (idsOf later e = [] → k.status e = .free)

namespace TableInv

variable {trace : List TableEvent} {k k' : Kernel} {e : EnvIdx} {c : Nat}

theorem init (m : Hardware) (p : Phys) : TableInv [] (envInit m p) := by
  generalize hk : envInit m p = k
  have hrun : (List.finRange nenv).foldr (fun i k => k.freeSlot i) (m.kernel p) = k := by
    rw [← hk, envInit]
  obtain ⟨hlist, hzero, -⟩ := freeSlots (List.finRange nenv) (List.nodup_finRange nenv) rfl
    (fun _ => rfl) hrun
  have hfree : ∀ e, k.status e = .free := fun e => congrArg Env.status (hzero e)
  refine ⟨⟨_, hlist, fun e => ?_⟩, ?_, fun e => ?_, fun e hused => absurd (hfree e) hused, ?_⟩
  · exact ⟨fun _ => hfree e, fun _ => List.mem_finRange e⟩
  · intro e i id h
    simp at h
  · exact congrArg Env.id (hzero e)
  · intro later e id earlier h
    simp at h

theorem same (h : TableInv trace k) (hs : k.SameTable k') : TableInv trace k' := by
  obtain ⟨l, hl, hfree⟩ := h.list
  refine ⟨⟨l, ?_, fun e => ?_⟩, h.ids, fun e => ?_, fun e hused => ?_, ?_⟩
  · rw [hs.envFreeList]
    exact hl.congr fun e _ => hs.link e
  · rw [hs.free, hfree]
  · rw [hs.id, h.last]
  · exact h.used e fun hf => hused ((hs.free e).mpr hf)
  · intro later e id earlier htrace
    obtain ⟨hne, hid, hlast⟩ := h.freed later e id earlier htrace
    exact ⟨hne, hid, fun hnone => (hs.free e).mpr (hlast hnone)⟩

/-- The slot at the head of the list is taken, and gets its next id. -/
theorem take (h : TableInv trace k) (head : k.envFreeList = some e)
    (envFreeList : k'.envFreeList = (k.envs e).link)
    (link : ∀ e', (k'.envs e').link = (k.envs e').link)
    (id : (k'.envs e).id = nextEnvId (k.envs e).id e) (used : k'.status e ≠ .free)
    (others : ∀ e', e' ≠ e → (k'.envs e').id = (k.envs e').id ∧ k'.status e' = k.status e') :
    TableInv (.allocated e (k'.envs e).id :: trace) k' := by
  obtain ⟨l, hl, hfree⟩ := h.list
  rw [head] at hl
  have hnodup := hl.nodup
  have hnext : (k'.envs e).id = envIdAt e ((idsOf trace e).length + 1) := by
    rw [id, h.last, envIdAt_succ]
  constructor
  · cases hl with
    | @cons _ l rest =>
        obtain ⟨hnot, -⟩ := List.nodup_cons.mp hnodup
        refine ⟨l, ?_, fun e' => ?_⟩
        · rw [envFreeList]
          exact rest.congr fun e' _ => link e'
        · by_cases he : e' = e
          · subst he
            simp [hnot, used]
          · rw [(others e' he).2, ← hfree, List.mem_cons]
            simp [he]
  · intro e' i id' hi
    by_cases he : e = e'
    · subst he
      rw [idsOf_allocated] at hi ⊢
      cases i with
      | zero =>
          rw [List.getElem?_cons_zero] at hi
          rw [← Option.some.inj hi, hnext]
          rfl
      | succ i =>
          rw [List.getElem?_cons_succ] at hi
          rw [h.ids e i id' hi, List.length_cons, Nat.add_sub_add_right]
    · rw [idsOf_allocated_of_ne he] at hi ⊢
      exact h.ids e' i id' hi
  · intro e'
    by_cases he : e = e'
    · subst he
      rw [idsOf_allocated, List.length_cons, hnext]
    · rw [idsOf_allocated_of_ne he, (others e' (Ne.symm he)).1, h.last]
  · intro e' hused
    by_cases he : e = e'
    · subst he
      simp
    · rw [idsOf_allocated_of_ne he]
      exact h.used e' (by rwa [(others e' (Ne.symm he)).2] at hused)
  · intro later e' id' earlier htrace
    rcases List.cons_eq_append_iff.mp htrace with ⟨rfl, hnil⟩ | ⟨rest, rfl, hrest⟩
    · simp at hnil
    · obtain ⟨hne, hid, hlast⟩ := h.freed rest e' id' earlier hrest
      refine ⟨hne, hid, fun hnone => ?_⟩
      by_cases he : e = e'
      · subst he
        simp at hnone
      · rw [idsOf_allocated_of_ne he] at hnone
        rw [(others e' (Ne.symm he)).2]
        exact hlast hnone

/-- The slot `e` is put back on the list. -/
theorem put (h : TableInv trace k) (used : k.status e ≠ .free)
    (envFreeList : k'.envFreeList = some e) (link : (k'.envs e).link = k.envFreeList)
    (free : k'.status e = .free) (id : (k'.envs e).id = (k.envs e).id)
    (others : ∀ e', e' ≠ e → (k'.envs e').link = (k.envs e').link ∧
      (k'.envs e').id = (k.envs e').id ∧ k'.status e' = k.status e') :
    TableInv (.freed e (k.envs e).id :: trace) k' := by
  obtain ⟨l, hl, hfree⟩ := h.list
  have hfresh : e ∉ l := fun he => used ((hfree e).mp he)
  constructor
  · refine ⟨e :: l, ?_, fun e' => ?_⟩
    · rw [envFreeList]
      refine (hl.push hfresh).congr fun e' _ => ?_
      by_cases he : e' = e
      · subst he
        rw [link, Function.update_self]
      · rw [(others e' he).1, Function.update_of_ne he]
    · by_cases he : e' = e
      · subst he
        simp [free]
      · rw [(others e' he).2.2, ← hfree, List.mem_cons]
        simp [he]
  · intro e' i id' hi
    rw [idsOf_freed] at hi ⊢
    exact h.ids e' i id' hi
  · intro e'
    rw [idsOf_freed, ← h.last]
    by_cases he : e' = e
    · rw [he, id]
    · exact (others e' he).2.1
  · intro e' hused
    rw [idsOf_freed]
    by_cases he : e' = e
    · rw [he] at hused
      exact absurd free hused
    · exact h.used e' (by rwa [(others e' he).2.2] at hused)
  · intro later e' id' earlier htrace
    rcases List.cons_eq_append_iff.mp htrace with ⟨rfl, hcons⟩ | ⟨rest, rfl, hrest⟩
    · obtain ⟨hev, rfl⟩ := List.cons.inj hcons
      obtain ⟨rfl, rfl⟩ := TableEvent.freed.inj hev
      exact ⟨h.used _ used, h.last _, fun _ => free⟩
    · obtain ⟨hne, hid, hlast⟩ := h.freed rest e' id' earlier hrest
      refine ⟨hne, hid, fun hnone => ?_⟩
      by_cases he : e' = e
      · rw [he, free]
      · rw [(others e' he).2.2]
        exact hlast (by rwa [idsOf_freed] at hnone)

end TableInv

section Calls

variable {k k' : Kernel} {e : EnvIdx} {c : Nat} {trace : List TableEvent}

theorem Kernel.Same.sameTable (h : k.Same k') : k.SameTable k' :=
  ⟨h.envFreeList, fun e => (h.envs e).link, fun e => (h.envs e).id,
    fun e => by rw [Kernel.status, (h.envs e).status, Kernel.status]⟩

/-- What `env_alloc` does to the table: it takes the first free slot or nothing. -/
theorem envAlloc_table (parentId : Word) {X : Unit → Kernel → Prop} :
    wp (envAlloc parentId)
      (fun r k' => (∃ w, r = .error w ∧ k.Same k') ∨
        ∃ e d, r = .ok e ∧ k.envFreeList = some e ∧ (k.created e parentId d).Same k')
      X (fun _ => True) k := by
  rw [envAlloc, wp_bind, wp_get]
  cases head : k.envFreeList with
  | none => exact (wp_pure _).mpr (.inl ⟨_, rfl, .refl k⟩)
  | some e =>
      dsimp only
      rw [wp_bind]
      apply wp_imp envSetupVm_op
      rintro r k₁ (⟨hneg, same⟩ | ⟨rfl, d, same⟩)
      · rw [if_pos hneg, wp_pure]
        exact .inl ⟨r, rfl, same⟩
      · rw [if_neg (by decide)]
        simp only [wp_bind, wp_modify, wp_pure]
        refine .inr ⟨e, d, rfl, rfl, ?_⟩
        have hlink : (k₁.envs e).link = (k.envs e).link := by
          rw [(same.envs e).link, Kernel.setEnv_envs_self]
        have hid : (k₁.envs e).id = (k.envs e).id := by
          rw [(same.envs e).id, Kernel.setEnv_envs_self]
        obtain ⟨-, -, -, -, -, hpgdir, hrecv, hdst⟩ := same.envs e
        rw [Kernel.setEnv_envs_self] at hpgdir hrecv hdst
        rw [Kernel.setEnv_envs_self, hlink, hid, Kernel.created,
          ← Kernel.setEnv_setEnv k e { k.envs e with pgdir := some d }]
        refine (same.setEnv_congr ?_).setFreeList _
        exact ⟨rfl, rfl, rfl, rfl, rfl, hpgdir, hrecv, hdst⟩

theorem TableInv.allocated (h : TableInv trace k) {parentId : Word}
    (run : envAlloc parentId k = .ret (.ok e) k') :
    TableInv (.allocated e (k'.envs e).id :: trace) k' := by
  rcases (wp_ret run).mp (envAlloc_table parentId (X := fun _ _ => True)) with
    ⟨w, hr, -⟩ | ⟨e', d, hr, head, same⟩
  · simp at hr
  · obtain rfl := Except.ok.inj hr
    have hself := same.envs e
    rw [Kernel.created] at hself
    dsimp only at hself
    rw [Kernel.setEnv_envs_self] at hself
    refine h.take head same.envFreeList (fun e' => ?_) hself.id ?_ fun e' he => ?_
    · rw [(same.envs e').link]
      exact Kernel.setEnv_field (f := Env.link) (by rfl) e'
    · rw [Kernel.status, hself.status]
      simp
    · rw [(same.envs e').id, Kernel.status, (same.envs e').status, Kernel.created]
      dsimp only
      rw [Kernel.setEnv_envs_of_ne _ he]
      exact ⟨rfl, rfl⟩

theorem TableInv.refused (h : TableInv trace k) {parentId r : Word}
    (run : envAlloc parentId k = .ret (.error r) k') : TableInv trace k' := by
  rcases (wp_ret run).mp (envAlloc_table parentId (X := fun _ _ => True)) with
    ⟨w, -, same⟩ | ⟨e', d, hr, -⟩
  · exact h.same same.sameTable
  · simp at hr

theorem TableInv.released (h : TableInv trace k) (used : k.status e ≠ .free)
    (run : envFree c e k = .ret () k') : TableInv (.freed e (k.envs e).id :: trace) k' := by
  have same := (wp_ret run).mp (envFree_released (k := k) (X := fun _ _ => True))
  generalize hk : (if k.curenv c = some e then k.setCpu c { k.cpus c with cr3 := k.kernPgdir }
    else k) = k₁ at same
  have hcore : k₁.envs = k.envs ∧ k₁.envFreeList = k.envFreeList := by
    rw [← hk]
    split <;> exact ⟨rfl, rfl⟩
  have hself := same.envs e
  rw [Kernel.released] at hself
  dsimp only at hself
  rw [Kernel.setEnv_envs_self, hcore.1, hcore.2] at hself
  refine h.put used same.envFreeList hself.link hself.status hself.id fun e' he => ?_
  have hother := same.envs e'
  rw [Kernel.released] at hother
  dsimp only at hother
  rw [Kernel.setEnv_envs_of_ne _ he, hcore.1] at hother
  exact ⟨hother.link, hother.id, hother.status⟩

theorem TableHistory.inv {m : Hardware} (h : TableHistory m trace k) : TableInv trace k := by
  induction h with
  | init p => exact .init m p
  | alloc parentId _ run ih => exact ih.allocated run
  | refused parentId _ run ih => exact ih.refused run
  | free c _ used run ih => exact ih.released used run
  | other _ same ih => exact ih.same same

end Calls

/-- The table in every state of every history: the free list, the ids in use, how ids of
one slot differ, and what becomes of an id that was taken back. -/
theorem env_table_sound {m : Hardware} {trace : List TableEvent} {k : Kernel}
    (h : TableHistory m trace k) :
    (∃ l, IsList (fun e => (k.envs e).link) k.envFreeList l ∧ l.Nodup ∧
      ∀ e, e ∈ l ↔ k.status e = .free) ∧
    (∀ e id, .allocated e id ∈ trace → 0 < id.toInt ∧ envx id = e) ∧
    (∀ e, k.status e ≠ .free → (idsOf trace e).head? = some (k.envs e).id) ∧
    (∀ e e', k.status e ≠ .free → k.status e' ≠ .free → (k.envs e).id = (k.envs e').id →
      e = e') ∧
    (∀ e i j a b, i < j → j < i + (2 ^ 19 - 1) → (idsOf trace e)[i]? = some a →
      (idsOf trace e)[j]? = some b → a ≠ b) ∧
    ∀ later e id earlier, trace = later ++ .freed e id :: earlier →
      (idsOf later e).length < 2 ^ 19 - 1 →
      ∀ cur checkperm, k.envid2env cur id checkperm = none := by
  have hinv := h.inv
  have hgiven : ∀ e i id, (idsOf trace e)[i]? = some id →
      ∃ n, (idsOf trace e).length = n + 1 + i ∧ id = envIdAt e (n + 1) := by
    intro e i id hi
    have hlt := (List.getElem?_eq_some_iff.mp hi).1
    refine ⟨(idsOf trace e).length - i - 1, by omega, ?_⟩
    rw [hinv.ids e i id hi]
    congr 1
    omega
  have hlive : ∀ e, k.status e ≠ .free → ∃ n, (idsOf trace e).length = n + 1 ∧
      (k.envs e).id = envIdAt e (n + 1) := by
    intro e hused
    obtain ⟨n, hn⟩ := Nat.exists_eq_add_one.mpr (List.length_pos_iff.mpr (hinv.used e hused))
    exact ⟨n, hn, by rw [hinv.last, hn]⟩
  refine ⟨?_, ?_, ?_, ?_, ?_, ?_⟩
  · obtain ⟨l, hl, hfree⟩ := hinv.list
    exact ⟨l, hl, hl.nodup, hfree⟩
  · intro e id hmem
    have hid : id ∈ idsOf trace e := List.mem_filterMap.mpr ⟨_, hmem, by simp⟩
    obtain ⟨i, hi⟩ := List.getElem?_of_mem hid
    obtain ⟨n, -, rfl⟩ := hgiven e i id hi
    rw [envIdAt_succ]
    exact ⟨nextEnvId_pos _ e, envx_nextEnvId _ e⟩
  · intro e hused
    obtain ⟨n, hn, hid⟩ := hlive e hused
    have hlt : 0 < (idsOf trace e).length := by omega
    obtain ⟨n', hn', hfirst⟩ := hgiven e 0 _ (List.getElem?_eq_getElem hlt)
    rw [List.head?_eq_getElem?, List.getElem?_eq_getElem hlt, hfirst, hid]
    congr 2
    omega
  · intro e e' hused hused' heq
    obtain ⟨n, -, hid⟩ := hlive e hused
    obtain ⟨n', -, hid'⟩ := hlive e' hused'
    rw [hid, hid', envIdAt_succ, envIdAt_succ] at heq
    rw [← envx_nextEnvId (envIdAt e n) e, heq, envx_nextEnvId]
  · intro e i j a b hij hnear ha hb
    obtain ⟨n, hn, rfl⟩ := hgiven e i a ha
    obtain ⟨n', hn', rfl⟩ := hgiven e j b hb
    exact (envIdAt_ne e (by omega) (by omega)).symm
  · intro later e id earlier htrace hnear cur checkperm
    obtain ⟨hne, hid, hfree⟩ := hinv.freed later e id earlier htrace
    obtain ⟨n, hn⟩ := Nat.exists_eq_add_one.mpr (List.length_pos_iff.mpr hne)
    rw [hn] at hid
    have hx : envx id = e := by
      rw [hid, envIdAt_succ, envx_nextEnvId]
    have hzero : id ≠ 0 := by
      rw [hid, envIdAt_succ]
      exact nextEnvId_ne_zero _ e
    -- either the slot is still free, or it has an id of a later generation
    have hstale : (k.envs e).status = .free ∨ (k.envs e).id ≠ id := by
      cases hlater : idsOf later e with
      | nil => exact .inl (hfree hlater)
      | cons a r =>
          refine .inr ?_
          have hcount : (idsOf trace e).length = n + r.length + 1 + 1 := by
            rw [htrace, idsOf_append, idsOf_freed, hlater, List.length_append, List.length_cons, hn]
            omega
          rw [hlater, List.length_cons] at hnear
          rw [hinv.last, hcount, hid]
          exact (envIdAt_ne e (by omega) (by omega)).symm
    rw [Kernel.envid2env, if_neg hzero]
    dsimp only
    rw [hx, if_pos hstale]

/-- `env_free` of an environment that has nothing mapped gives its directory back. -/
theorem envFree_empty {k : Kernel} {c d : Nat} {e : EnvIdx} (hd : (k.envs e).pgdir = some d)
    (hempty : ∀ i : Idx, k.phys.word d i &&& pteP = 0 ∨ ¬ i.val < userPdes)
    (hlt : d < k.phys.npages) (hn : k.phys.npages ≤ 65536) (hlink : k.phys.link d = none) :
    envFree c e k = .ret () { (if k.curenv c = some e
        then k.setCpu c { k.cpus c with cr3 := k.kernPgdir } else k).released e with
      phys := k.phys.drop d } := by
  have hloop : wp (forRange 955 fun pdeno => envFreePde d (Fin.ofNat 1024 pdeno))
      (fun _ q => q = k.phys) (fun _ _ => False) (fun _ => False) k.phys := by
    refine wp_imp (wp_forRange (fun _ q => q = k.phys) ?_ rfl) fun _ _ hq => hq
    rintro i q hi rfl
    have hval : (Fin.ofNat 1024 i).val = i := Nat.mod_eq_of_lt (by omega)
    have hzero := (hempty (Fin.ofNat 1024 i)).resolve_right (by rw [hval]; exact not_not.mpr hi)
    rw [envFreePde, wp_bind, wp_get]
    simp only [hzero, if_true, wp_pure]
  have hnum : pgnum (page2pa d) = d := pgnum_pageAddr (by omega)
  have hpa : pa2page (page2pa d) k.phys = .ret d k.phys := by
    rw [pa2page_run (by rwa [hnum]), hnum]
  have hcr3 : wp (when (k.curenv c = some e)
      (modify fun k => k.setCpu c { k.cpus c with cr3 := k.kernPgdir }) : KM Unit)
      (fun _ k₁ => k₁ = if k.curenv c = some e
        then k.setCpu c { k.cpus c with cr3 := k.kernPgdir } else k) (fun _ _ => False)
      (fun _ => False) k := by
    rw [wp_when, wp_modify]
    exact ⟨fun h => by rw [if_pos h], fun h => by rw [if_neg h]⟩
  refine ret_of_wp ?_
  rw [envFree, wp_bind, wp_get, wp_bind]
  apply wp_imp hcr3
  intro _ k₁ hk₁
  rw [← hk₁]
  have hphys : k₁.phys = k.phys := by
    rw [hk₁]
    split <;> rfl
  have hd₁ : (k₁.envs e).pgdir = some d := by
    rw [hk₁]
    split <;> exact hd
  rw [← hphys] at hloop hpa hlink ⊢
  rw [wp_bind, wp_ret (pgdirOf_run hd₁), wp_bind]
  refine MemInv.wp_pmap_total hloop ?_
  rintro _ p rfl
  rw [paddrPgdir, wp_bind, wp_bind, wp_get]
  simp only [hd₁, wp_pure, wp_bind, wp_modify]
  refine MemInv.wp_pmap_total (Q := fun _ q => q = k₁.phys.drop d) ?_ ?_
  · change wp _ _ _ _ k₁.phys
    rw [wp_bind, wp_ret hpa, wp_ret (pageDecref_run hlink)]
  · rintro _ q rfl
    simp [Kernel.released, Kernel.setEnv]

/-- A memory of two pages, one of them free. -/
def Phys.spare : Phys := { Phys.blank 2 with pageFreeList := some 1 }

/-- The first environment comes and goes, and its id is not accepted any more. -/
theorem env_table_sound_spare : ∃ k, TableHistory qemu.toHardware
    [.freed 0 4096, .allocated 0 4096] k ∧ k.envid2env 1 4096 false = none := by
  obtain ⟨hphys, hkern, -, head, -, hzero, -⟩ := envInit_spec qemu.toHardware Phys.spare
  have hinit := TableHistory.init (m := qemu.toHardware) Phys.spare
  generalize envInit qemu.toHardware Phys.spare = k₀ at hphys hkern head hzero hinit
  have hid : (k₀.envs 0).id = 0 := congrArg Env.id (hzero 0)
  have hrun := envAlloc_run (k := k₀) (f := 1) 0 head (by rw [hphys]; rfl) (by rw [hphys]; decide)
    (by rw [hphys]; decide)
  rw [hphys] at hrun
  have halloc := hinit.alloc 0 hrun
  generalize hk₁ : ({ k₀.created 0 0 1 with phys := Phys.spare.newDir k₀.kernPgdir 1 } : Kernel)
    = k₁ at halloc
  have henv : k₁.envs 0 = ({ k₀.envs 0 with
      pgdir := some 1, id := nextEnvId (k₀.envs 0).id 0, parentId := 0, type := .user,
      status := .runnable, runs := 0, tf := Trapframe.fresh, pgfaultUpcall := 0 } : Env) := by
    rw [← hk₁]
    simp [Kernel.created]
  have hnew : (k₁.envs 0).id = 4096 := by
    rw [henv]
    change nextEnvId (k₀.envs 0).id 0 = 4096
    rw [hid]
    decide
  have hphys₁ : k₁.phys = Phys.spare.newDir k₀.kernPgdir 1 := by rw [← hk₁]
  obtain ⟨k₂, hfree⟩ : ∃ k₂, envFree 0 0 k₁ = .ret () k₂ := by
    refine ⟨_, envFree_empty (d := 1) (by rw [henv]) (fun i => ?_) ?_ ?_ ?_⟩
    · by_cases hi : i = pdx uvpt
      · exact .inr (by rw [hi]; decide)
      · refine .inl ?_
        rw [hphys₁, hkern, Phys.newDir_word (by decide) hi]
        exact congrArg (· &&& pteP) (readWord_zero i)
    · rw [hphys₁]
      exact (by decide : 1 < 2)
    · rw [hphys₁]
      exact (by decide : 2 ≤ 65536)
    · rw [hphys₁]
      rfl
  have hlast := halloc.free 0 (by rw [Kernel.status, henv]; simp) hfree
  rw [hnew] at hlast
  exact ⟨k₂, hlast, (env_table_sound hlast).2.2.2.2.2 [] 0 4096 _ rfl (by decide) 1 false⟩

end Jos
