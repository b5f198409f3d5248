import Mathlib.Algebra.BigOperators.Group.Finset.Basic
import Mathlib.Algebra.Order.BigOperators.Group.Finset
import Jos.User.Launch

/-!
# The tree of processes (`user/forktree.c`)

Each process prints its name, a string of the digits 0 and 1, and forks two children with one more
digit, down to the depth of the tree.
-/

namespace Jos.Forktree

/-- `DEPTH` -/
def depth : Nat := 3

/-- The characters `'0'` and `'1'`. -/
def zero : Byte := 0x30

def one : Byte := 0x31

/-- `snprintf(nxt, DEPTH+1, "%s%c", cur, branch)` -/
def nxt (cur : List Byte) (branch : Byte) : List Byte := (cur ++ [branch]).take depth

/-- Where `forktree` is. -/
inductive State where
  | forktree (cur : List Byte)
  /-- At `forkchild(cur, '0')`. -/
  | left (cur : List Byte)
  /-- At `forkchild(cur, '1')`. -/
  | right (cur : List Byte)
  | returned

/-- `forktree`. At the last level `forkchild` returns at once, both times. -/
def act : State → Actors.Action Word Word (List Byte) State
  | .forktree cur => .print cur (if cur.length ≥ depth then .returned else .left cur)
  | .left cur => .spawn (.forktree (nxt cur zero)) fun _ => .right cur
  | .right cur => .spawn (.forktree (nxt cur one)) fun _ => .returned
  | .returned => .stop

/-- The names of a tree with `n` levels below `cur`. -/
def subtree : Nat → List Byte → List (List Byte)
  | 0, cur => [cur]
  | n + 1, cur => cur :: (subtree n (cur ++ [zero]) ++ subtree n (cur ++ [one]))

theorem prefix_of_mem_subtree {n : Nat} {cur name : List Byte} (h : name ∈ subtree n cur) :
    cur <+: name := by
  induction n generalizing cur with
  | zero =>
      obtain rfl := List.mem_singleton.mp h
      exact List.prefix_refl name
  | succ n ih =>
      rw [subtree, List.mem_cons, List.mem_append] at h
      obtain rfl | h | h := h
      · exact List.prefix_refl name
      · exact (List.prefix_append _ _).trans (ih h)
      · exact (List.prefix_append _ _).trans (ih h)

/-- No name is in the tree twice. -/
theorem subtree_nodup (n : Nat) (cur : List Byte) : (subtree n cur).Nodup := by
  induction n generalizing cur with
  | zero => exact List.nodup_singleton cur
  | succ n ih =>
      have hlonger : ∀ b, cur ∉ subtree n (cur ++ [b]) := fun b hmem => by
        have hlength := (prefix_of_mem_subtree hmem).length_le
        rw [List.length_append, List.length_singleton] at hlength
        omega
      have hapart : (subtree n (cur ++ [zero])).Disjoint (subtree n (cur ++ [one])) :=
        fun name hleft hright => by
          have hprefixes := List.prefix_of_prefix_length_le (prefix_of_mem_subtree hleft)
            (prefix_of_mem_subtree hright) (by simp)
          have hdigit := List.append_cancel_left (List.IsPrefix.eq_of_length hprefixes (by simp))
          exact absurd (List.cons.inj hdigit).1 (by decide)
      rw [subtree, List.nodup_cons, List.mem_append, not_or]
      exact ⟨⟨hlonger zero, hlonger one⟩, (ih _).append (ih _) hapart⟩

/-- The lines that a process and its children have to print yet. -/
def todo : State → List (List Byte)
  | .forktree cur => subtree (depth - cur.length) cur
  | .left cur => subtree (depth - (cur.length + 1)) (cur ++ [zero]) ++
      subtree (depth - (cur.length + 1)) (cur ++ [one])
  | .right cur => subtree (depth - (cur.length + 1)) (cur ++ [one])
  | .returned => []

/-- What has been printed before. -/
def Known (lines : List (List Byte)) : State → Prop
  | .forktree cur => ∀ parent b, cur = parent ++ [b] → parent ∈ lines
  | .left cur | .right cur => cur ∈ lines ∧ cur.length < depth
  | .returned => True

/-- The process has printed its line. -/
def Printed : State → Prop
  | .forktree _ => False
  | _ => True

variable {A A' : Actors Word Word (List Byte) State} {a i j : Word} {s next : State}
  {names : Finset Word} {cur : List Byte} {lines lines' : List (List Byte)}

theorem Known.mono (h : Known lines s) (sub : lines ⊆ lines') : Known lines' s := by
  cases s with
  | forktree cur => exact fun parent b hb => sub (h parent b hb)
  | left cur => exact ⟨sub h.1, h.2⟩
  | right cur => exact ⟨sub h.1, h.2⟩
  | returned => trivial

theorem nxt_eq (h : cur.length < depth) (branch : Byte) : nxt cur branch = cur ++ [branch] := by
  refine List.take_of_length_le ?_
  rw [List.length_append, List.length_singleton]
  exact h

theorem todo_nxt (h : cur.length < depth) (branch : Byte) : todo (.forktree (nxt cur branch)) =
    subtree (depth - (cur.length + 1)) (cur ++ [branch]) := by
  rw [nxt_eq h, todo, List.length_append, List.length_singleton]

/-- A process prints the first of its lines. -/
theorem todo_print (cur : List Byte) : todo (.forktree cur) =
    cur :: todo (if cur.length ≥ depth then .returned else .left cur) := by
  by_cases h : cur.length ≥ depth
  · rw [if_pos h, todo, Nat.sub_eq_zero_of_le h]
    rfl
  · have hlt : depth - cur.length = depth - (cur.length + 1) + 1 := by omega
    rw [if_neg h, todo, hlt]
    rfl

/-- What comes from the process `i`. -/
def pending (A : Actors Word Word (List Byte) State) (i : Word) : Multiset (List Byte) :=
  ((A.state i).elim [] todo : List (List Byte))

theorem pending_some (h : A.state i = some s) : pending A i = (todo s : List (List Byte)) := by
  rw [pending, h]
  rfl

/-- The lines that are printed are those of the tree, and what is not printed is still to come. -/
structure Growing (A : Actors Word Word (List Byte) State) (names : Finset Word) : Prop where
  placed : ∀ i, i ∈ names ↔ ∃ s, A.state i = some s
  lines : (A.output.map (·.2) : Multiset (List Byte)) + ∑ i ∈ names, pending A i =
    (subtree depth [] : List (List Byte))
  known : ∀ i s, A.state i = some s → Known (A.output.map (·.2)) s
  parents : ∀ parent b, parent ++ [b] ∈ A.output.map (·.2) → parent ∈ A.output.map (·.2)
  nodup : (A.output.map (·.1)).Nodup
  printers : ∀ i, i ∈ A.output.map (·.1) ↔ ∃ s, A.state i = some s ∧ Printed s

namespace Growing

theorem mem (h : Growing A names) (hi : A.state i = some s) : i ∈ names := (h.placed i).mpr ⟨s, hi⟩

/-- The share of `i` in what is to come. -/
theorem split (h : Growing A names) (hi : A.state i = some s) : ∑ j ∈ names, pending A j =
    (todo s : List (List Byte)) + ∑ j ∈ names.erase i, pending A j := by
  rw [← Finset.add_sum_erase names (pending A) (h.mem hi), pending_some hi]

/-- The others have the same to do as before. -/
theorem rest (state : ∀ j ∈ names, j ≠ i → A'.state j = A.state j) :
    ∑ j ∈ names.erase i, pending A' j = ∑ j ∈ names.erase i, pending A j :=
  Finset.sum_congr rfl fun j hj => by
    rw [pending, pending, state j (Finset.mem_of_mem_erase hj) (Finset.ne_of_mem_erase hj)]

theorem print (h : Growing A names) (hi : A.state i = some (.forktree cur))
    (hnext : next = if cur.length ≥ depth then .returned else .left cur) :
    Growing ((A.become i next).prints i cur) names := by
  have hstate : ∀ j, j ≠ i → ((A.become i next).prints i cur).state j = A.state j :=
    fun j hj => Actors.become_state_of_ne hj
  have hself : ((A.become i next).prints i cur).state i = some next := Actors.become_state_self
  have houtput : ((A.become i next).prints i cur).output = A.output ++ [(i, cur)] := rfl
  generalize (A.become i next).prints i cur = A' at hstate hself houtput
  have hlines : A'.output.map (·.2) = A.output.map (·.2) ++ [cur] := by
    rw [houtput, List.map_append]
    rfl
  have hsub : A.output.map (·.2) ⊆ A'.output.map (·.2) := by
    rw [hlines]
    exact List.subset_append_left _ _
  have hcur : cur ∈ A'.output.map (·.2) := by
    rw [hlines]
    exact List.mem_append_right _ (List.mem_singleton_self cur)
  have hprinters : A'.output.map (·.1) = A.output.map (·.1) ++ [i] := by
    rw [houtput, List.map_append]
    rfl
  have hfirst : i ∉ A.output.map (·.1) := fun hin => by
    obtain ⟨s, hs, hprinted⟩ := (h.printers i).mp hin
    obtain rfl := Option.some.inj (hi.symm.trans hs)
    exact hprinted
  refine ⟨fun j => ?_, ?_, fun j s hs => ?_, fun parent b hb => ?_, ?_, fun j => ?_⟩
  · by_cases hj : j = i
    · subst hj
      exact iff_of_true (h.mem hi) ⟨_, hself⟩
    · rw [hstate j hj]
      exact h.placed j
  · have hsum := h.lines
    rw [h.split hi, todo_print, ← hnext, ← Multiset.cons_coe, ← Multiset.singleton_add] at hsum
    rw [← Finset.add_sum_erase names (pending A') (h.mem hi), pending_some hself,
      rest fun j _ hj => hstate j hj,
      hlines, ← Multiset.coe_add, Multiset.coe_singleton, ← hsum, add_assoc, add_assoc]
  · by_cases hj : j = i
    · subst hj
      obtain rfl := Option.some.inj (hself.symm.trans hs)
      by_cases hlast : cur.length ≥ depth
      · rw [hnext, if_pos hlast]
        trivial
      · rw [hnext, if_neg hlast]
        exact ⟨hcur, Nat.lt_of_not_le hlast⟩
    · rw [hstate j hj] at hs
      exact (h.known j s hs).mono hsub
  · rw [hlines, List.mem_append] at hb
    obtain hb | hb := hb
    · exact hsub (h.parents parent b hb)
    · exact hsub (h.known i _ hi parent b (List.mem_singleton.mp hb).symm)
  · rw [hprinters]
    exact List.nodup_append.mpr ⟨h.nodup, List.nodup_singleton i,
      fun x hx y hy heq => hfirst (by rw [← List.mem_singleton.mp hy, ← heq]; exact hx)⟩
  · rw [hprinters, List.mem_append, List.mem_singleton]
    by_cases hj : j = i
    · have hprinted : Printed next := by
        rw [hnext]
        split
        · trivial
        · trivial
      exact iff_of_true (.inr hj) ⟨next, hj ▸ hself, hprinted⟩
    · rw [hstate j hj, ← h.printers j]
      exact ⟨fun hin => hin.resolve_right hj, .inl⟩

theorem spawn (h : Growing A names) (hi : A.state i = some s) (hj : A.state j = none)
    {branch : Byte} (fits : cur ∈ A.output.map (·.2) ∧ cur.length < depth) (printed : Printed s)
    (share : todo s = subtree (depth - (cur.length + 1)) (cur ++ [branch]) ++ todo next)
    (known : Known (A.output.map (·.2)) next) (printed' : Printed next) :
    Growing ((A.become i next).become j (.forktree (nxt cur branch))) (insert j names) := by
  have hne : j ≠ i := by
    rintro rfl
    simp [hj] at hi
  have hfresh : j ∉ names := fun hin => by
    obtain ⟨s', hs'⟩ := (h.placed j).mp hin
    simp [hj] at hs'
  have hchild : ((A.become i next).become j (.forktree (nxt cur branch))).state j =
    some (.forktree (nxt cur branch)) := Actors.become_state_self
  have hself : ((A.become i next).become j (.forktree (nxt cur branch))).state i = some next := by
    rw [Actors.become_state_of_ne hne.symm, Actors.become_state_self]
  have hstate : ∀ x, x ≠ j → x ≠ i →
      ((A.become i next).become j (.forktree (nxt cur branch))).state x = A.state x :=
    fun x hx hx' => by rw [Actors.become_state_of_ne hx, Actors.become_state_of_ne hx']
  have houtput : ((A.become i next).become j (.forktree (nxt cur branch))).output = A.output := rfl
  generalize (A.become i next).become j _ = A' at hchild hself hstate houtput
  refine ⟨fun x => ?_, ?_, fun x t hx => ?_, by rw [houtput]; exact h.parents,
    by rw [houtput]; exact h.nodup, fun x => ?_⟩
  · rw [Finset.mem_insert]
    by_cases hxj : x = j
    · exact iff_of_true (.inl hxj) ⟨_, hxj ▸ hchild⟩
    by_cases hxi : x = i
    · exact iff_of_true (.inr (hxi ▸ h.mem hi)) ⟨_, hxi ▸ hself⟩
    rw [hstate x hxj hxi, ← h.placed x]
    exact ⟨fun hin => hin.resolve_left hxj, .inr⟩
  · have hothers : ∑ x ∈ names.erase i, pending A' x = ∑ x ∈ names.erase i, pending A x :=
      rest fun x hx hxi => hstate x (fun heq => hfresh (heq ▸ hx)) hxi
    have hsum := h.lines
    rw [h.split hi, share, ← Multiset.coe_add] at hsum
    rw [Finset.sum_insert hfresh, ← Finset.add_sum_erase names (pending A') (h.mem hi),
      pending_some hchild, pending_some hself, hothers, houtput, todo_nxt fits.2, ← hsum, add_assoc]
  · rw [houtput]
    by_cases hxj : x = j
    · subst hxj
      obtain rfl := Option.some.inj (hchild.symm.trans hx)
      rintro parent b hb
      rw [nxt_eq fits.2] at hb
      rw [← (List.append_inj' hb rfl).1]
      exact fits.1
    by_cases hxi : x = i
    · subst hxi
      obtain rfl := Option.some.inj (hself.symm.trans hx)
      exact known
    · exact h.known x t (hstate x hxj hxi ▸ hx)
  · rw [houtput]
    by_cases hxj : x = j
    · subst hxj
      refine iff_of_false (fun hin => ?_) fun ⟨t, ht, hprinted⟩ => ?_
      · obtain ⟨t, ht, -⟩ := (h.printers x).mp hin
        simp [hj] at ht
      · obtain rfl := Option.some.inj (hchild.symm.trans ht)
        exact hprinted
    by_cases hxi : x = i
    · subst hxi
      exact iff_of_true ((h.printers x).mpr ⟨s, hi, printed⟩) ⟨next, hself, printed'⟩
    · rw [hstate x hxj hxi]
      exact h.printers x

theorem start (a : Word) : Growing (.single a (.forktree [])) {a} := by
  have hstate : ∀ {i s}, (Actors.single a (.forktree []) : Actors Word Word (List Byte) State).state
      i = some s → i = a ∧ s = .forktree [] := by
    intro i s hs
    by_cases hi : i = a
    · subst hi
      exact ⟨rfl, (Option.some.inj (Actors.single_state_self.symm.trans hs)).symm⟩
    · rw [Actors.single_state_of_ne hi] at hs
      simp at hs
  refine ⟨fun i => ?_, ?_, fun i s hs => ?_, fun parent b hb => ?_, List.nodup_nil, fun i => ?_⟩
  · rw [Finset.mem_singleton]
    refine ⟨?_, fun ⟨s, hs⟩ => (hstate hs).1⟩
    rintro rfl
    exact ⟨_, Actors.single_state_self⟩
  · rw [Finset.sum_singleton, pending_some Actors.single_state_self]
    exact zero_add _
  · rw [(hstate hs).2]
    intro parent b hb
    simp at hb
  · simp at hb
  · refine iff_of_false (by simp) fun ⟨s, hs, hprinted⟩ => ?_
    rw [(hstate hs).2] at hprinted
    exact hprinted

/-- One process goes on. -/
theorem step (h : Growing A names) (step : Actors.Step act A A') : ∃ names', Growing A' names' := by
  obtain ⟨i, s, hi, after⟩ := step.after
  cases s with
  | forktree cur =>
      obtain rfl := after
      exact ⟨names, h.print hi rfl⟩
  | left cur =>
      obtain ⟨j, hj, rfl⟩ := after
      have hknown := h.known i _ hi
      exact ⟨_, h.spawn hi hj hknown trivial rfl hknown trivial⟩
  | right cur =>
      obtain ⟨j, hj, rfl⟩ := after
      exact ⟨_, h.spawn hi hj (h.known i _ hi) trivial (List.append_nil _).symm trivial trivial⟩
  | returned => exact after.elim

/-- Each process has printed a line of the tree, or will do. -/
theorem card_le (h : Growing A names) : names.card ≤ (subtree depth []).length := by
  have hone : ∀ i ∈ names, 1 ≤ (pending A i).card + if i ∈ A.output.map (·.1) then 1 else 0 := by
    intro i hi
    obtain ⟨s, hs⟩ := (h.placed i).mp hi
    by_cases hprinted : i ∈ A.output.map (·.1)
    · rw [if_pos hprinted]
      exact Nat.le_add_left 1 _
    · rw [pending_some hs]
      cases s with
      | forktree cur =>
          rw [todo_print, Multiset.coe_card, List.length_cons]
          omega
      | left cur | right cur | returned =>
          exact absurd ((h.printers i).mpr ⟨_, hs, trivial⟩) hprinted
  have hprinters : (∑ i ∈ names, if i ∈ A.output.map (·.1) then 1 else 0) ≤ A.output.length := by
    have hlength : (A.output.map (·.1)).length = A.output.length := List.length_map _
    rw [← Finset.card_filter, ← hlength]
    refine (Finset.card_le_card fun i hi => ?_).trans (List.toFinset_card_le _)
    exact List.mem_toFinset.mpr (Finset.mem_filter.mp hi).2
  have hlines := congrArg Multiset.card h.lines
  rw [Multiset.card_add, Multiset.coe_card, List.length_map, Multiset.card_sum,
    Multiset.coe_card] at hlines
  calc names.card = ∑ _i ∈ names, 1 := Finset.card_eq_sum_ones names
    _ ≤ ∑ i ∈ names, ((pending A i).card + if i ∈ A.output.map (·.1) then 1 else 0) :=
      Finset.sum_le_sum hone
    _ = ∑ i ∈ names, (pending A i).card + ∑ i ∈ names, if i ∈ A.output.map (·.1) then 1 else 0 :=
      Finset.sum_add_distrib
    _ ≤ (subtree depth []).length := by omega

/-- Some process can go on until the whole tree has been printed. -/
theorem progress (h : Growing A names) :
    (∃ A', Actors.Step act A A') ∨ (A.output.map (·.2)).Perm (subtree depth []) := by
  have hname : ∃ j, A.state j = none := by
    have hcard : names.toList.length < 2 ^ 32 := by
      rw [Finset.length_toList]
      exact h.card_le.trans_lt (by decide)
    obtain ⟨j, hj⟩ := Actors.exists_name names.toList hcard
    refine ⟨j, ?_⟩
    cases hs : A.state j with
    | none => rfl
    | some s => exact absurd (Finset.mem_toList.mpr (h.mem hs)) hj
  obtain ⟨j, hj⟩ := hname
  by_cases hall : ∀ i ∈ names, A.state i = some .returned
  · refine .inr (Multiset.coe_eq_coe.mp ?_)
    have hnone : ∑ i ∈ names, pending A i = 0 :=
      Finset.sum_eq_zero fun i hi => by rw [pending_some (hall i hi)]; rfl
    rw [← h.lines, hnone, add_zero]
  · push Not at hall
    obtain ⟨i, hi, hbusy⟩ := hall
    obtain ⟨s, hs⟩ := (h.placed i).mp hi
    cases s with
    | forktree cur => exact .inl ⟨_, .print hs rfl⟩
    | left cur => exact .inl ⟨_, .spawn hs rfl hj⟩
    | right cur => exact .inl ⟨_, .spawn hs rfl hj⟩
    | returned => exact absurd hs hbusy

end Growing

/-- What any run prints. -/
theorem run_prints (run : Actors.Run act (.single a (.forktree [])) A) :
    ∃ names, Growing A names :=
  run.invariant (p := fun A => ∃ names, Growing A names) ⟨_, .start a⟩
    fun _ _ ⟨_, h⟩ step => h.step step

/-- Under every schedule, the names are printed by processes of their own, none of them twice and
each after that of the parent; and as long as one of the tree is missing, some process has something
to do. -/
theorem forktree_prints_tree {k : Kernel} {e : EnvIdx} {w : Stage State (List Byte)}
    (start : (World.fresh k).Start) (slot : envx (k.envs e).id = e)
    (plays : Relation.ReflTransGen (Play act) (Stage.fresh k e (.forktree [])) w) :
    (w.output.map (·.2)).Subperm (subtree depth []) ∧ (w.output.map (·.2)).Nodup ∧
      (w.output.map (·.1)).Nodup ∧
      (∀ parent b, parent ++ [b] ∈ w.output.map (·.2) → parent ∈ w.output.map (·.2)) ∧
      ((∃ A', Actors.Step act w.view A') ∨ (w.output.map (·.2)).Perm (subtree depth [])) := by
  obtain ⟨names, h⟩ := run_prints (Stage.run_of_plays start slot plays)
  have hlines : (w.output.map (·.2)).Subperm (subtree depth []) := by
    rw [← Multiset.coe_le, ← h.lines]
    exact Multiset.le_add_right _ _
  refine ⟨hlines, ?_, h.nodup, h.parents, h.progress⟩
  rw [← Multiset.coe_nodup]
  exact Multiset.nodup_of_le (Multiset.coe_le.mpr hlines) (subtree_nodup depth [])

/-- The first environment prints the root and forks, and CPU 1 executes the child until it has
printed its name, too. -/
theorem forktree_prints_tree_first : ∃ k₀ w, Booted qemu [intProgram] k₀ ∧
    Relation.ReflTransGen (Play act) (Stage.fresh k₀ 0 (.forktree [])) w ∧
    w.output = [(0x1000, []), (0x1001, [zero])] ∧ (w.output.map (·.2)).Subperm (subtree depth []) ∧
    ∃ A', Actors.Step act w.view A' := by
  obtain ⟨k₀, k₁, d, hbooted, hid, hrun, hruns, hbegins⟩ := qemu_begins act (.forktree [])
  obtain ⟨k₂, w₂, hrun', hruns₂, hprint, halone⟩ := (Alone.fresh k₁ _).prints hruns
    (show act (.forktree []) = .print [] (.left []) from rfl)
  obtain ⟨L, -, -, hmem, hex⟩ := hbooted.run (hrun.trans hrun')
  obtain ⟨k₃, d', w₃, -, hplays, hlaunched, hfamily⟩ := halone.launches
    (show act (.left []) = .spawn (.forktree [zero]) fun _ => .right [] from rfl) hruns₂ hmem
    hex.slots
  obtain ⟨w₄, hstarts, hlaunched'⟩ := hlaunched.starts act hfamily
  obtain ⟨-, hchild, hfamily'⟩ := hfamily.starts (by decide) (by decide)
  obtain ⟨k₅, hstep, hlike⟩ := hchild.prints
  have hkernel : w₄.kernel = k₃.ran 1 1 d' := by rw [Stage.kernel, hlaunched'.world]; rfl
  have hprint' : Play act w₄ _ := .print (by rw [hkernel]; exact hchild.runsOn) hlaunched'.child
    (by rw [hlaunched'.world]; rfl) rfl (callFrame_calls .cputs 0 0 0 0 0)
    (by rw [hkernel]; exact hstep) (hlike.executes hchild).runsOn
  have hoccurs := ((((Relation.ReflTransGen.single hbegins).tail hprint).trans hplays).tail
    hstarts).tail hprint'
  obtain ⟨hlines, -, -, -, hprogress⟩ :=
    forktree_prints_tree hbooted.start (by rw [hid]; decide) hoccurs
  have houtput : w₄.output ++ [((w₄.kernel.envs 1).id, [zero])] =
      [(0x1000, []), (0x1001, [zero])] := by
    rw [hlaunched'.output, hkernel, hfamily'.childId]
    rfl
  refine ⟨k₀, _, hbooted, hoccurs, houtput, hlines, hprogress.resolve_right fun hall => ?_⟩
  have hlength := hall.length_eq
  rw [List.length_map] at hlength
  exact absurd ((congrArg List.length houtput).symm.trans hlength) (by decide)

end Jos.Forktree
