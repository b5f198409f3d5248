import Jos.User.Launch

/-!
# A counter goes back and forth (`user/pingpong.c`)

The program forks, and parent and child send each other the numbers from 0 to 10 in turn. What
they print is the same in every run, whatever the scheduler does.
-/

namespace Jos.Pingpong

/-- Where `umain` is. -/
inductive State where
  | umain
  /-- `fork` has returned in the parent. -/
  | forked (who : Word)
  | ball (who : Word)
  /-- The head of the loop. -/
  | loop
  | got (i who : Word)
  | back (i who : Word)
  | returned

/-- `"send 0 from %x to %x\n"` and `"%x got %d from %x\n"`, without the id of the caller. -/
inductive Line where
  | send (who : Word)
  | got (i who : Word)

/-- `umain`. The child goes on with the loop. -/
def act : State → Actors.Action Word Word Line State
  | .umain => .spawn .loop .forked
  | .forked who => .print (.send who) (.ball who)
  | .ball who => .send who 0 .loop
  | .loop => .receive .got
  | .got i who => .print (.got i who) (if i = 10 then .returned else .back (i + 1) who)
  | .back i who => .send who i (if i = 10 then .returned else .loop)
  | .returned => .stop

section Script

variable (a b : Word)

/-- Who sends `n`. -/
def player (n : Nat) : Word := if n % 2 = 0 then a else b

/-- All lines, of the parent `a` and the child `b`. -/
def script : List (Word × Line) :=
  (a, .send b) :: (List.range 11).map fun n =>
    (player a b (n + 1), .got (BitVec.ofNat 32 n) (player a b n))

end Script

variable {a b : Word} {A A' : Actors Word Word Line State} {n : Nat}

theorem player_next_next (a b : Word) (n : Nat) : player a b (n + 1 + 1) = player a b n := by
  rw [player, player, show (n + 1 + 1) % 2 = n % 2 by omega]

theorem script_take_succ (hn : n ≤ 10) : (script a b).take (n + 2) =
    (script a b).take (n + 1) ++
      [(player a b (n + 1), .got (BitVec.ofNat 32 n) (player a b n))] := by
  have hlt : n < 11 := by omega
  rw [script, List.take_succ_cons, List.take_succ_cons, List.cons_append, List.cons.injEq]
  refine ⟨rfl, ?_⟩
  rw [List.take_add_one, List.getElem?_map, List.getElem?_range hlt]
  rfl

theorem value_eq_ten (hn : n ≤ 10) : BitVec.ofNat 32 n = 10 ↔ n = 10 := by
  constructor
  · intro h
    have hnat := congrArg BitVec.toNat h
    rw [BitVec.toNat_ofNat, Nat.mod_eq_of_lt (by omega)] at hnat
    exact hnat
  · rintro rfl
    rfl

/-- What is left to do after `n` was sent. -/
def rest (n : Nat) : State := if n = 10 then .returned else .loop

theorem waits_loop : Actors.Waits act .loop := .inr ⟨_, rfl⟩

theorem waits_rest (n : Nat) : Actors.Waits act (rest n) := by
  rw [rest]
  split
  · exact .inl rfl
  · exact waits_loop

/-- The states of a rally, with what has been printed. -/
inductive Rally (a b : Word) (A : Actors Word Word Line State) : Prop
  | forked (duo : A.Duo b a .loop (.forked b) []) (output : A.output = [])
  | ball (duo : A.Duo b a .loop (.ball b) []) (output : A.output = (script a b).take 1)
  | sent (n : Nat) (hn : n ≤ 10)
      (duo : A.Duo (player a b n) (player a b (n + 1)) (rest n) .loop
        [(BitVec.ofNat 32 n, player a b n)])
      (output : A.output = (script a b).take (n + 1))
  | got (n : Nat) (hn : n ≤ 10)
      (duo : A.Duo (player a b n) (player a b (n + 1)) (rest n)
        (.got (BitVec.ofNat 32 n) (player a b n)) [])
      (output : A.output = (script a b).take (n + 1))
  | back (n : Nat) (hn : n < 10)
      (duo : A.Duo (player a b n) (player a b (n + 1)) .loop
        (.back (BitVec.ofNat 32 (n + 1)) (player a b n)) [])
      (output : A.output = (script a b).take (n + 2))
  | finished (duo : A.Duo (player a b 10) (player a b 11) .returned .returned [])
      (output : A.output = script a b)

namespace Rally

theorem prints (h : Rally a b A) : A.output <+: script a b := by
  cases h with
  | forked duo output => rw [output]; exact List.nil_prefix
  | ball duo output => rw [output]; exact List.take_prefix _ _
  | sent n hn duo output => rw [output]; exact List.take_prefix _ _
  | got n hn duo output => rw [output]; exact List.take_prefix _ _
  | back n hn duo output => rw [output]; exact List.take_prefix _ _
  | finished duo output => rw [output]

/-- It is always clear whose turn it is. -/
theorem step (h : Rally a b A) (step : Actors.Step act A A') : Rally a b A' := by
  cases h with
  | forked duo output =>
      obtain ⟨duo', output'⟩ := duo.print waits_loop rfl step
      exact .ball duo' (by rw [output', output]; rfl)
  | ball duo output =>
      obtain ⟨duo', output'⟩ := duo.send waits_loop rfl step
      exact .sent 0 (by decide) duo' (by rw [output', output])
  | sent n hn duo output =>
      obtain ⟨duo', output'⟩ := duo.receive (waits_rest n) rfl step
      exact .got n hn duo' (by rw [output', output])
  | got n hn duo output =>
      obtain ⟨duo', output'⟩ := duo.print (waits_rest n) rfl step
      rw [output, ← script_take_succ hn] at output'
      by_cases hten : n = 10
      · subst hten
        exact .finished duo' output'
      · rw [if_neg fun heq => hten ((value_eq_ten hn).mp heq), rest, if_neg hten] at duo'
        have hnext : BitVec.ofNat 32 n + 1 = BitVec.ofNat 32 (n + 1) := (BitVec.ofNat_add n 1).symm
        rw [hnext] at duo'
        exact .back n (by omega) duo' output'
  | back n hn duo output =>
      obtain ⟨duo', output'⟩ := duo.send waits_loop rfl step
      rw [← player_next_next a b n] at duo'
      refine .sent (n + 1) (by omega) ?_ (output'.trans output)
      have hrest : (if BitVec.ofNat 32 (n + 1) = 10 then State.returned else .loop) =
          rest (n + 1) := if_congr (value_eq_ten (by omega)) rfl rfl
      rwa [hrest] at duo'
  | finished duo output => exact (duo.turn (.inl rfl) step).elim

/-- As long as there is something to print, somebody can go on. -/
theorem progress (h : Rally a b A) : (∃ A', Actors.Step act A A') ∨ A.output = script a b := by
  cases h with
  | forked duo output => exact .inl ⟨_, .print duo.right rfl⟩
  | ball duo output => exact .inl ⟨_, .send duo.right rfl duo.left rfl (duo.empty b duo.ne)⟩
  | sent n hn duo output => exact .inl ⟨_, .receive duo.right rfl duo.mail⟩
  | got n hn duo output => exact .inl ⟨_, .print duo.right rfl⟩
  | back n hn duo output =>
      exact .inl ⟨_, .send duo.right rfl duo.left rfl (duo.empty _ duo.ne)⟩
  | finished duo output => exact .inr output

end Rally

/-- The parent makes the child. -/
theorem Rally.start (step : Actors.Step act (.single a .umain) A) : ∃ b, Rally a b A := by
  obtain ⟨b, hb, rfl⟩ := step.after_single
  have hne : b ≠ a := Actors.ne_of_single_state hb
  refine ⟨b, .forked ⟨hne, by simp, ?_, fun j hj hj' => ?_, rfl, fun _ _ => rfl⟩ rfl⟩
  · rw [Actors.become_state_of_ne hne.symm, Actors.become_state_self]
  · rw [Actors.become_state_of_ne hj, Actors.become_state_of_ne hj', Actors.single_state_of_ne hj']

/-- What any run prints. -/
theorem run_prints (run : Actors.Run act (.single a .umain) A) :
    ∃ b, A.output <+: script a b ∧ ((∃ A', Actors.Step act A A') ∨ A.output = script a b) := by
  have hinv : A = .single a .umain ∨ ∃ b, Rally a b A := by
    refine run.invariant (p := fun A => A = .single a .umain ∨ ∃ b, Rally a b A) (.inl rfl) ?_
    rintro A A' (rfl | ⟨b, h⟩) step
    · exact .inr (Rally.start step)
    · exact .inr ⟨b, h.step step⟩
  obtain rfl | ⟨b, h⟩ := hinv
  · have hne : a + 1 ≠ a := by simp
    exact ⟨0, List.nil_prefix, .inl ⟨_, .spawn Actors.single_state_self rfl
      (Actors.single_state_of_ne hne)⟩⟩
  · exact ⟨b, h.prints, h.progress⟩

/-- The program prints its lines in order, whatever the scheduler, the interrupts and the page
faults do; and while one is missing, one of the two programs has something to do for which it need
not wait. -/
theorem pingpong_in_order {k : Kernel} {e : EnvIdx} {w : Stage State Line}
    (start : (World.fresh k).Start) (slot : envx (k.envs e).id = e)
    (plays : Relation.ReflTransGen (Play act) (Stage.fresh k e .umain) w) :
    ∃ b, w.output <+: script (k.envs e).id b ∧
      ((∃ A', Actors.Step act w.view A') ∨ w.output = script (k.envs e).id b) :=
  run_prints (Stage.run_of_plays start slot plays)

/-- The first environment runs it until the first line is printed. -/
theorem pingpong_in_order_first : ∃ k₀ w, Booted qemu [intProgram] k₀ ∧
    Relation.ReflTransGen (Play act) (Stage.fresh k₀ 0 .umain) w ∧
    w.output = [(0x1000, .send 0x1001)] ∧ ∃ b, w.output <+: script 0x1000 b := by
  obtain ⟨k₀, k, d, d', w, hbooted, hid, -, hplays, hlaunched, hfamily⟩ :=
    qemu_launch (show act .umain = .spawn .loop .forked from rfl)
  obtain ⟨k', hstep, hlike⟩ := hfamily.parent.prints
  have hkernel : w.kernel = k := by rw [Stage.kernel, hlaunched.world]; rfl
  have hphase : w.world.phase 0 = .outside := by rw [hlaunched.world]; rfl
  have hprint : Play act w _ := .print (by rw [hkernel]; exact hfamily.parent.runsOn)
    hlaunched.parent hphase rfl (callFrame_calls .cputs 0 0 0 0 0) (by rw [hkernel]; exact hstep)
    (hlike.executes hfamily.parent).runsOn
  have hoccurs := hplays.tail hprint
  obtain ⟨b, hlines, -⟩ := pingpong_in_order hbooted.start (by rw [hid]; decide) hoccurs
  rw [hid] at hlines
  refine ⟨k₀, _, hbooted, hoccurs, ?_, b, hlines⟩
  change w.output ++ [((w.kernel.envs 0).id, _)] = _
  rw [hlaunched.output, hkernel, hfamily.parentId]
  rfl

end Jos.Pingpong
