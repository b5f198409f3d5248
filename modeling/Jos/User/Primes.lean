import Jos.Base.Sieve
import Jos.User.Launch

/-!
# The sieve of processes (`user/primes.c`)

The first program sends the numbers from 2 on to a child. Every child prints the first number that
it gets and forks the next one, to which it sends what its own number does not divide. Counting
stops where `i` of `umain` overflows, which is undefined in C.
-/

namespace Jos.Primes

/-- Where `umain` and `primeproc` are. -/
inductive State where
  | umain
  /-- The loop of `umain`. -/
  | feed (id i : Word)
  /-- The label `top`. -/
  | top
  | fetched (p : Word)
  | printed (p : Word)
  /-- The loop of `primeproc`. -/
  | filter (p id : Word)
  | pass (p id i : Word)

/-- `umain` and `primeproc`. The line `"CPU %d: %d "` is `p` here, on whichever CPU. -/
def act : State → Actors.Action Word Word Word State
  | .umain => .spawn .top fun id => .feed id 2
  | .feed id i => if i.slt 0 then .stop else .send id i (.feed id (i + 1))
  | .top => .receive fun p _ => .fetched p
  | .fetched p => .print p (.printed p)
  | .printed p => .spawn .top (.filter p)
  | .filter p id => .receive fun i _ => if i.srem p ≠ 0 then .pass p id i else .filter p id
  | .pass p id i => .send id i (.filter p id)

theorem slt_zero (i : Word) : i.slt 0 = decide (2 ^ 31 ≤ i.toNat) := by
  change i.slt 0#32 = _
  rw [Bool.eq_iff_iff, BitVec.slt_zero_iff_msb_cond, BitVec.msb_eq_decide]

/-- `i % p` of positive numbers. -/
theorem srem_eq_zero {i p : Word} (hi : i.toNat < 2 ^ 31) (hp : p.toNat < 2 ^ 31) :
    i.srem p = 0 ↔ p.toNat ∣ i.toNat := by
  have hmsb : ∀ {x : Word}, x.toNat < 2 ^ 31 → x.msb = false := fun {x} hx => by
    rw [BitVec.msb_eq_decide]
    exact decide_eq_false (by omega)
  rw [← BitVec.toNat_inj, BitVec.toNat_srem, hmsb hi, hmsb hp, Nat.dvd_iff_mod_eq_zero]
  rfl

variable {A A' : Actors Word Word Word State} {a x y z p i : Word} {l m : List Nat}
  {ids : List Word} {out : List (Word × Word)}

/-- The unread messages of a program that waits. -/
def Mailed (A : Actors Word Word Word State) (x : Word) (m : List Nat) : Prop :=
  (A.mail x).map (·.1.toNat) = m ∧ m.length ≤ 1

/-- The processes `ids` of the sieve, the first of which was sent the numbers `l`, and the lines
that they have printed. -/
inductive Chain (A : Actors Word Word Word State) : List Nat → List Word → List (Word × Word) → Prop
  | top {x : Word} {m : List Nat} (state : A.state x = some .top) (mail : Mailed A x m) :
      Chain A m [x] []
  | fetched {x p : Word} (state : A.state x = some (.fetched p)) (mail : A.mail x = []) :
      Chain A [p.toNat] [x] []
  | printed {x p : Word} (state : A.state x = some (.printed p)) (mail : A.mail x = []) :
      Chain A [p.toNat] [x] [(x, p)]
  | filter {x y p : Word} {read m : List Nat} {ids : List Word} {out : List (Word × Word)}
      (state : A.state x = some (.filter p y)) (mail : Mailed A x m)
      (next : Chain A (read.filter fun i => ¬ p.toNat ∣ i) (y :: ids) out) :
      Chain A (p.toNat :: (read ++ m)) (x :: y :: ids) ((x, p) :: out)
  | pass {x y p i : Word} {read : List Nat} {ids : List Word} {out : List (Word × Word)}
      (state : A.state x = some (.pass p y i)) (mail : A.mail x = [])
      (kept : ¬ p.toNat ∣ i.toNat)
      (next : Chain A (read.filter fun i => ¬ p.toNat ∣ i) (y :: ids) out) :
      Chain A (p.toNat :: (read ++ [i.toNat])) (x :: y :: ids) ((x, p) :: out)

theorem Mailed.nil (h : A.mail x = []) : Mailed A x [] := ⟨by rw [h]; rfl, Nat.zero_le 1⟩

theorem Mailed.single {src : Word} (h : A.mail x = [(i, src)]) : Mailed A x [i.toNat] :=
  ⟨by rw [h]; rfl, le_rfl⟩

theorem Mailed.eq_nil (h : Mailed A x m) (empty : A.mail x = []) : m = [] := by
  rw [← h.1, empty]
  rfl

theorem Mailed.eq_single {src : Word} (h : Mailed A x m) (mail : A.mail x = [(i, src)]) :
    m = [i.toNat] := by
  rw [← h.1, mail]
  rfl

theorem Mailed.cases (h : Mailed A x m) :
    A.mail x = [] ∧ m = [] ∨ ∃ i src, A.mail x = [(i, src)] ∧ m = [i.toNat] := by
  obtain ⟨rfl, hlength⟩ := h
  rw [List.length_map] at hlength
  cases hmail : A.mail x with
  | nil => exact .inl ⟨rfl, rfl⟩
  | cons mes rest =>
      rw [hmail, List.length_cons] at hlength
      obtain rfl : rest = [] := List.eq_nil_of_length_eq_zero (by omega)
      exact .inr ⟨mes.1, mes.2, rfl, rfl⟩

/-- What a process keeps has come to it. -/
theorem mem_of_kept {v : Nat} {read : List Nat} (hv : v ∈ read.filter fun i => ¬ p.toNat ∣ i) :
    v ∈ p.toNat :: (read ++ m) :=
  List.mem_cons_of_mem _ (List.mem_append_left m (List.mem_of_mem_filter hv))

namespace Chain

theorem placed (h : Chain A l ids out) (hx : x ∈ ids) : A.state x ≠ none := by
  induction h with
  | top state mail | fetched state mail | printed state mail =>
      rw [List.mem_singleton.mp hx, state]
      simp
  | filter state mail next ih | pass state mail kept next ih =>
      obtain rfl | hx := List.mem_cons.mp hx
      · rw [state]
        simp
      · exact ih hx

/-- Only the processes themselves count. -/
theorem frame (h : Chain A l ids out) (state : ∀ x ∈ ids, A'.state x = A.state x)
    (mail : ∀ x ∈ ids, A'.mail x = A.mail x) : Chain A' l ids out := by
  have hmailed : ∀ {x m}, A'.mail x = A.mail x → Mailed A x m → Mailed A' x m :=
    fun heq hm => ⟨by rw [heq, hm.1], hm.2⟩
  induction h with
  | @top x m hstate hmail =>
      have hx : x ∈ [x] := List.mem_singleton_self x
      exact .top (by rw [state x hx, hstate]) (hmailed (mail x hx) hmail)
  | @fetched x p hstate hmail =>
      have hx : x ∈ [x] := List.mem_singleton_self x
      exact .fetched (by rw [state x hx, hstate]) (by rw [mail x hx, hmail])
  | @printed x p hstate hmail =>
      have hx : x ∈ [x] := List.mem_singleton_self x
      exact .printed (by rw [state x hx, hstate]) (by rw [mail x hx, hmail])
  | @filter x y p read m ids out hstate hmail next ih =>
      have hx : x ∈ x :: y :: ids := List.mem_cons_self
      exact .filter (by rw [state x hx, hstate]) (hmailed (mail x hx) hmail)
        (ih (fun z hz => state z (List.mem_cons_of_mem x hz))
          fun z hz => mail z (List.mem_cons_of_mem x hz))
  | @pass x y p i read ids out hstate hmail kept next ih =>
      have hx : x ∈ x :: y :: ids := List.mem_cons_self
      exact .pass (by rw [state x hx, hstate]) (by rw [mail x hx, hmail]) kept
        (ih (fun z hz => state z (List.mem_cons_of_mem x hz))
          fun z hz => mail z (List.mem_cons_of_mem x hz))

/-- The first process gets a number. -/
theorem push {s : State} {f : Word → Word → State} (h : Chain A l (x :: ids) out)
    (fresh : x ∉ ids) (hs : A.state x = some s) (waits : act s = .receive f)
    (empty : A.mail x = []) (state : ∀ z ∈ x :: ids, A'.state z = A.state z)
    (mail : ∀ z ∈ ids, A'.mail z = A.mail z) {src : Word} (sent : A'.mail x = [(i, src)]) :
    Chain A' (l ++ [i.toNat]) (x :: ids) out := by
  have hx : A'.state x = A.state x := state x List.mem_cons_self
  have hno : ∀ t, A.state x = some t → (∀ g, act t ≠ .receive g) → False := fun t ht hact => by
    obtain rfl := Option.some.inj (hs.symm.trans ht)
    exact hact f waits
  cases h with
  | top hstate hmail =>
      rw [hmail.eq_nil empty]
      exact .top (hx.trans hstate) (.single sent)
  | fetched hstate hmail => exact (hno _ hstate (by simp [act])).elim
  | printed hstate hmail => exact (hno _ hstate (by simp [act])).elim
  | @filter _ y p read m ids out hstate hmail next =>
      rw [hmail.eq_nil empty, List.append_nil]
      exact .filter (hx.trans hstate) (.single sent)
        (next.frame (fun z hz => state z (List.mem_cons_of_mem x hz)) mail)
  | pass hstate hmail kept next => exact (hno _ hstate (by simp [act])).elim

end Chain

/-- What one action of a process does to the whole sieve: it prints `new`, or it makes `extra`. -/
structure Advance (A A' : Actors Word Word Word State) (l : List Nat) (ids : List Word)
    (out : List (Word × Word)) (extra : List Word) (new : List (Word × Word)) : Prop where
  chain : Chain A' l (ids ++ extra) (out ++ new)
  output : A'.output = A.output ++ new
  made : extra = [] ∨ ∃ j, extra = [j] ∧ A.state j = none
  state : ∀ z ∉ ids ++ extra, A'.state z = A.state z
  mail : ∀ z ∉ ids, A'.mail z = A.mail z

namespace Advance

variable {extra : List Word} {new : List (Word × Word)}

/-- The process before those that have gone on. -/
theorem before (h : Advance A A' l ids out extra new) (hx : x ∉ ids) (placed : A.state x ≠ none) :
    A'.state x = A.state x ∧ A'.mail x = A.mail x := by
  refine ⟨h.state x fun hmem => ?_, h.mail x hx⟩
  obtain hmem | hmem := List.mem_append.mp hmem
  · exact hx hmem
  · obtain hnil | ⟨j, hj, hnone⟩ := h.made
    · simp [hnil] at hmem
    · rw [hj, List.mem_singleton] at hmem
      exact placed (hmem ▸ hnone)

theorem cons {out' : List (Word × Word)} (h : Advance A A' l ids out extra new)
    (chain : Chain A' m (x :: (ids ++ extra)) (out' ++ new)) :
    Advance A A' m (x :: ids) out' extra new := by
  refine ⟨chain, h.output, h.made, fun z hz => h.state z fun hmem => hz ?_,
    fun z hz => h.mail z fun hmem => hz ?_⟩
  · exact List.mem_cons_of_mem x hmem
  · exact List.mem_cons_of_mem x hmem

/-- The first process has read a message. -/
theorem receive {s : State} (chain : Chain ((A.become x s).setMail x []) l (x :: ids) out) :
    Advance A ((A.become x s).setMail x []) l (x :: ids) out [] [] := by
  refine ⟨by rw [List.append_nil, List.append_nil]; exact chain, (List.append_nil _).symm, .inl rfl,
    fun z hz => ?_, fun z hz => ?_⟩
  · rw [List.append_nil] at hz
    exact Actors.become_state_of_ne (List.ne_of_not_mem_cons hz)
  · exact Actors.setMail_mail_of_ne (List.ne_of_not_mem_cons hz)

end Advance

/-- Any process of the sieve goes on. -/
theorem Chain.step {s : State} (h : Chain A l ids out) (nodup : ids.Nodup)
    (small : ∀ v ∈ l, v < 2 ^ 31) (idle : ∀ z, A.state z = none → A.mail z = []) (hz : z ∈ ids)
    (hs : A.state z = some s) (after : A.After z A' act (act s)) :
    ∃ extra new, Advance A A' l ids out extra new := by
  induction h with
  | @top x m state mail =>
      obtain rfl := List.mem_singleton.mp hz
      obtain rfl := Option.some.inj (state.symm.trans hs)
      obtain ⟨p, src, hmail, rfl⟩ := after
      rw [mail.eq_single hmail]
      exact ⟨[], [], .receive (.fetched (by simp) (by simp))⟩
  | @fetched x p state mail =>
      obtain rfl := List.mem_singleton.mp hz
      obtain rfl := Option.some.inj (state.symm.trans hs)
      obtain rfl := after
      refine ⟨[], [(z, p)], .printed (by simp) mail, rfl, .inl rfl, fun y hy => ?_, fun _ _ => rfl⟩
      exact Actors.become_state_of_ne (List.ne_of_not_mem_cons hy)
  | @printed x p state mail =>
      obtain rfl := List.mem_singleton.mp hz
      obtain rfl := Option.some.inj (state.symm.trans hs)
      obtain ⟨j, hj, rfl⟩ := after
      have hne : z ≠ j := by
        rintro rfl
        simp [hj] at hs
      refine ⟨[j], [], ?_, (List.append_nil _).symm, .inr ⟨j, rfl, hj⟩, fun y hy => ?_,
        fun _ _ => rfl⟩
      · have hstate : ((A.become z (.filter p j)).become j .top).state z = some (.filter p j) := by
          rw [Actors.become_state_of_ne hne, Actors.become_state_self]
        have hnext : Chain ((A.become z (.filter p j)).become j .top)
            ([].filter fun i => ¬ p.toNat ∣ i) [j] [] := .top (by simp) (.nil (idle j hj))
        exact .filter hstate (.nil mail) hnext
      · have hy' : y ≠ z ∧ y ≠ j := by simpa using hy
        rw [Actors.become_state_of_ne hy'.2, Actors.become_state_of_ne hy'.1]
  | @filter x y p read m ids out state mail next ih =>
      obtain ⟨hfresh, hnodup⟩ := List.nodup_cons.mp nodup
      obtain rfl | hz := List.mem_cons.mp hz
      · obtain rfl := Option.some.inj (state.symm.trans hs)
        obtain ⟨i, src, hmail, rfl⟩ := after
        rw [mail.eq_single hmail] at small ⊢
        have hrest : ∀ {s}, Chain ((A.become z s).setMail z []) _ (y :: ids) out := fun {s} =>
          next.frame (fun v hv => Actors.become_state_of_ne (ne_of_mem_of_not_mem hv hfresh))
            fun v hv => Actors.setMail_mail_of_ne (ne_of_mem_of_not_mem hv hfresh)
        have hsrem : i.srem p ≠ 0 ↔ ¬ p.toNat ∣ i.toNat :=
          not_congr (srem_eq_zero (small _ (by simp)) (small _ (by simp)))
        refine ⟨[], [], .receive ?_⟩
        beta_reduce
        by_cases hdvd : p.toNat ∣ i.toNat
        · -- a multiple of `p` goes no further
          rw [if_neg (mt hsrem.mp (not_not_intro hdvd)), ← List.append_nil (read ++ _)]
          refine .filter (by simp) (.nil (by simp)) ?_
          rw [List.filter_append, List.filter_cons_of_neg (by simpa using hdvd), List.filter_nil,
            List.append_nil]
          exact hrest
        · rw [if_pos (hsrem.mpr hdvd)]
          exact .pass (by simp) (by simp) hdvd hrest
      · obtain ⟨extra, new, hadvance⟩ := ih hnodup (fun v hv => small v (mem_of_kept hv)) hz
        obtain ⟨hstate, hmail⟩ := hadvance.before hfresh (by simp [state])
        exact ⟨extra, new, hadvance.cons (.filter (hstate.trans state)
          ⟨by rw [hmail, mail.1], mail.2⟩ hadvance.chain)⟩
  | @pass x y p i read ids out state mail kept next ih =>
      obtain ⟨hfresh, hnodup⟩ := List.nodup_cons.mp nodup
      obtain rfl | hz := List.mem_cons.mp hz
      · obtain rfl := Option.some.inj (state.symm.trans hs)
        obtain ⟨hempty, rfl, s', f, hother, waits⟩ := after
        have hne : z ≠ y := fun h => hfresh (h ▸ List.mem_cons_self)
        have hkept : (read ++ [i.toNat]).filter (fun i => ¬ p.toNat ∣ i) =
            read.filter (fun i => ¬ p.toNat ∣ i) ++ [i.toNat] := by
          rw [List.filter_append, List.filter_cons_of_pos (by simpa using kept), List.filter_nil]
        refine ⟨[], [], ?_, (List.append_nil _).symm, .inl rfl, fun v hv => ?_, fun v hv => ?_⟩
        · rw [List.append_nil, List.append_nil, ← List.append_nil (read ++ _)]
          refine .filter (by simp) (.nil ?_) ?_
          · rw [Actors.setMail_mail_of_ne hne, Actors.become_mail, mail]
          · rw [hkept]
            refine next.push (List.nodup_cons.mp hnodup).1 hother waits hempty (fun v hv => ?_)
              (fun v hv => ?_) (Actors.setMail_mail_self ..)
            · exact Actors.become_state_of_ne (ne_of_mem_of_not_mem hv hfresh)
            · exact Actors.setMail_mail_of_ne
                (ne_of_mem_of_not_mem hv (List.nodup_cons.mp hnodup).1)
        · rw [List.append_nil] at hv
          exact Actors.become_state_of_ne (List.ne_of_not_mem_cons hv)
        · exact Actors.setMail_mail_of_ne
            (List.ne_of_not_mem_cons (List.not_mem_of_not_mem_cons hv))
      · obtain ⟨extra, new, hadvance⟩ := ih hnodup (fun v hv => small v (mem_of_kept hv)) hz
        obtain ⟨hstate, hmail⟩ := hadvance.before hfresh (by simp [state])
        exact ⟨extra, new, hadvance.cons (.pass (hstate.trans state) (hmail.trans mail) kept
          hadvance.chain)⟩

namespace Chain

/-- The lines are those of the first processes. -/
theorem printers (h : Chain A l ids out) : out.map (·.1) <+: ids := by
  induction h with
  | top state mail | fetched state mail => exact List.nil_prefix
  | printed state mail => exact List.prefix_rfl
  | filter state mail next ih | pass state mail kept next ih =>
      exact List.cons_prefix_cons.mpr ⟨rfl, ih⟩

theorem length_le (h : Chain A l ids out) : ids.length ≤ out.length + 1 := by
  induction h with
  | top state mail | fetched state mail => exact le_rfl
  | printed state mail => exact Nat.le_succ 1
  | filter state mail next ih | pass state mail kept next ih => exact Nat.succ_le_succ ih

/-- What is printed has come through the sieve. -/
theorem arrived (h : Chain A l ids out) : ∀ o ∈ out, o.2.toNat ∈ l := by
  induction h with
  | top state mail | fetched state mail => simp
  | printed state mail => simp
  | @filter x y p read m ids out state mail next ih =>
      rintro o (_ | ⟨_, ho⟩)
      · exact List.mem_cons_self
      · exact mem_of_kept (ih o ho)
  | @pass x y p i read ids out state mail kept next ih =>
      rintro o (_ | ⟨_, ho⟩)
      · exact List.mem_cons_self
      · exact mem_of_kept (ih o ho)

/-- The lines of the processes from the one `j` on. -/
theorem primes (h : Chain A l ids out) {j : Nat} (sifted : Sieve.Sifted j l) :
    out.map (·.2.toNat) = (List.range' j out.length).map (Nat.nth Nat.Prime) := by
  have hcons : ∀ {x p : Word} {read m : List Nat} {out : List (Word × Word)} {j : Nat},
      Sieve.Sifted j (p.toNat :: (read ++ m)) →
      (Sieve.Sifted (j + 1) (read.filter fun i => ¬ p.toNat ∣ i) →
        out.map (·.2.toNat) = (List.range' (j + 1) out.length).map (Nat.nth Nat.Prime)) →
      ((x, p) :: out).map (·.2.toNat) =
        (List.range' j ((x, p) :: out).length).map (Nat.nth Nat.Prime) := by
    intro x p read m out j hsifted hnext
    have hpassed : Sieve.Sifted j (p.toNat :: read) :=
      Sieve.Sifted.of_append (show Sieve.Sifted j (p.toNat :: read ++ m) from hsifted)
    rw [List.map_cons, List.length_cons, List.range'_succ, List.map_cons,
      hnext hpassed.filter, hsifted.head]
  induction h generalizing j with
  | top state mail | fetched state mail => rfl
  | printed state mail => exact congrArg (fun n => [n]) sifted.head
  | filter state mail next ih | pass state mail kept next ih => exact hcons sifted ih

/-- Some process can go on, or all of them wait for more. -/
theorem progress (h : Chain A l (x :: ids) out) (name : ∃ j, A.state j = none) :
    (∃ A', Actors.Step act A A') ∨ (∃ s f, A.state x = some s ∧ act s = .receive f) ∧
      A.mail x = [] ∧ ∀ v ∈ l, ∃ o ∈ out, o.2.toNat ∣ v := by
  generalize hids : x :: ids = all at h
  induction h generalizing x ids with
  | @top z m state mail =>
      obtain ⟨rfl, -⟩ := List.cons.inj hids
      obtain ⟨hmail, rfl⟩ | ⟨i, src, hmail, -⟩ := mail.cases
      · exact .inr ⟨⟨_, _, state, rfl⟩, hmail, by simp⟩
      · exact .inl ⟨_, .receive state rfl hmail⟩
  | fetched state mail => exact .inl ⟨_, .print state rfl⟩
  | printed state mail =>
      obtain ⟨j, hj⟩ := name
      exact .inl ⟨_, .spawn state rfl hj⟩
  | @filter z y p read m rest out state mail next ih =>
      obtain ⟨rfl, -⟩ := List.cons.inj hids
      obtain ⟨hmail, rfl⟩ | ⟨i, src, hmail, -⟩ := mail.cases
      · obtain hstep | ⟨-, -, hdivides⟩ := ih rfl
        · exact .inl hstep
        refine .inr ⟨⟨_, _, state, rfl⟩, hmail, fun v hv => ?_⟩
        by_cases hdvd : p.toNat ∣ v
        · exact ⟨(x, p), List.mem_cons_self, hdvd⟩
        obtain rfl | hv := List.mem_cons.mp hv
        · exact absurd (dvd_refl _) hdvd
        rw [List.append_nil] at hv
        obtain ⟨o, ho, hov⟩ := hdivides v (List.mem_filter.mpr ⟨hv, by simpa using hdvd⟩)
        exact ⟨o, List.mem_cons_of_mem _ ho, hov⟩
      · exact .inl ⟨_, .receive state rfl hmail⟩
  | @pass z y p i read rest out state mail kept next ih =>
      obtain hstep | ⟨⟨s, f, hy, waits⟩, hempty, -⟩ := ih rfl
      · exact .inl hstep
      · exact .inl ⟨_, .send state rfl hy waits hempty⟩

end Chain

/-- `umain` has come to `i`, and sends to the first of the other processes. -/
structure Sieving (A : Actors Word Word Word State) (a x i : Word) (ids : List Word) : Prop where
  nodup : (a :: x :: ids).Nodup
  feed : A.state a = some (.feed x i)
  low : 2 ≤ i.toNat
  high : i.toNat ≤ 2 ^ 31
  chain : Chain A (List.range' 2 (i.toNat - 2)) (x :: ids) A.output
  others : ∀ z ∉ a :: x :: ids, A.state z = none
  idle : ∀ z ∉ x :: ids, A.mail z = []

namespace Sieving

/-- The first process is forked. -/
theorem start (step : Actors.Step act (.single a .umain) A) : ∃ x, Sieving A a x 2 [] := by
  obtain ⟨x, hx, rfl⟩ := step.after_single
  have hne : x ≠ a := Actors.ne_of_single_state hx
  refine ⟨x, ?_, ?_, le_rfl, by decide, .top (by simp) (.nil rfl), fun z hz => ?_, fun _ _ => rfl⟩
  · simpa using hne.symm
  · rw [Actors.become_state_of_ne hne.symm, Actors.become_state_self]
  · obtain ⟨hza, hzx⟩ : z ≠ a ∧ z ≠ x := by simpa using hz
    rw [Actors.become_state_of_ne hzx, Actors.become_state_of_ne hza, Actors.single_state_of_ne hza]

theorem small (h : Sieving A a x i ids) : ∀ v ∈ List.range' 2 (i.toNat - 2), v < 2 ^ 31 := by
  intro v hv
  have hlt := (List.mem_range'_1.mp hv).2
  have hhigh := h.high
  omega

theorem placed (h : Sieving A a x i ids) (hz : z ∈ a :: x :: ids) : A.state z ≠ none := by
  obtain rfl | hz := List.mem_cons.mp hz
  · rw [h.feed]
    simp
  · exact h.chain.placed hz

/-- `umain` or a process of the sieve goes on. -/
theorem step (h : Sieving A a x i ids) (step : Actors.Step act A A') :
    ∃ i' ids', Sieving A' a x i' ids' := by
  obtain ⟨z, s, hs, after⟩ := step.after
  obtain ⟨hfresh, hnodup⟩ := List.nodup_cons.mp h.nodup
  by_cases hz : z = a
  · subst hz
    obtain rfl := Option.some.inj (h.feed.symm.trans hs)
    by_cases hi : 2 ^ 31 ≤ i.toNat
    · rw [act, slt_zero, if_pos (decide_eq_true hi)] at after
      exact after.elim
    rw [act, slt_zero, if_neg (by simpa using hi)] at after
    obtain ⟨hempty, rfl, s', f, hx, waits⟩ := after
    have hlow := h.low
    have hnext : (i + 1).toNat = i.toNat + 1 := by
      rw [BitVec.toNat_add, show (1 : Word).toNat = 1 from rfl]
      omega
    have hrange : List.range' 2 ((i + 1).toNat - 2) = List.range' 2 (i.toNat - 2) ++ [i.toNat] := by
      rw [hnext, show i.toNat + 1 - 2 = i.toNat - 2 + 1 by omega, List.range'_1_concat,
        show 2 + (i.toNat - 2) = i.toNat by omega]
    have hne : z ≠ x := List.ne_of_not_mem_cons hfresh
    refine ⟨i + 1, ids, h.nodup, by simp, by omega, by omega, ?_, fun y hy => ?_, fun y hy => ?_⟩
    · rw [hrange]
      refine h.chain.push (List.nodup_cons.mp hnodup).1 hx waits hempty (fun v hv => ?_)
        (fun v hv => ?_) (Actors.setMail_mail_self ..)
      · exact Actors.become_state_of_ne (ne_of_mem_of_not_mem hv hfresh)
      · exact Actors.setMail_mail_of_ne (ne_of_mem_of_not_mem hv (List.nodup_cons.mp hnodup).1)
    · rw [Actors.setMail_state, Actors.become_state_of_ne (List.ne_of_not_mem_cons hy)]
      exact h.others y hy
    · rw [Actors.setMail_mail_of_ne (List.ne_of_not_mem_cons hy)]
      exact h.idle y hy
  · have hmem : z ∈ x :: ids := by
      by_contra hno
      rw [h.others z (List.not_mem_cons_of_ne_of_not_mem hz hno)] at hs
      simp at hs
    obtain ⟨extra, new, hadvance⟩ := h.chain.step hnodup h.small
      (fun y hy => h.idle y fun hin => h.chain.placed hin hy) hmem hs after
    obtain ⟨hstate, hmail⟩ := hadvance.before hfresh (by simp [h.feed])
    have hnames : ((a :: x :: ids) ++ extra).Nodup := by
      refine List.nodup_append.mpr ⟨h.nodup, ?_, ?_⟩
      · obtain rfl | ⟨j, rfl, -⟩ := hadvance.made
        · exact List.nodup_nil
        · exact List.nodup_singleton j
      · rintro y hy j hj rfl
        obtain rfl | ⟨j', rfl, hnone⟩ := hadvance.made
        · simp at hj
        · rw [List.mem_singleton.mp hj] at hy
          exact h.placed hy hnone
    refine ⟨i, ids ++ extra, hnames, hstate.trans h.feed, h.low, h.high, ?_, fun y hy => ?_,
      fun y hy => ?_⟩
    · rw [hadvance.output]
      exact hadvance.chain
    · rw [hadvance.state y (List.not_mem_of_not_mem_cons hy)]
      have hold : y ∉ (a :: x :: ids) ++ extra := hy
      exact h.others y fun hin => hold (List.mem_append_left extra hin)
    · have hnew : y ∉ (x :: ids) ++ extra := hy
      have hold : y ∉ x :: ids := fun hin => hnew (List.mem_append_left extra hin)
      rw [hadvance.mail y hold]
      exact h.idle y hold

theorem primes (h : Sieving A a x i ids) : A.output.map (·.2.toNat) =
    (List.range A.output.length).map (Nat.nth Nat.Prime) := by
  rw [List.range_eq_range']
  exact h.chain.primes (.range _)

/-- Somebody can go on until all prime numbers that there are have been printed. -/
theorem progress (h : Sieving A a x i ids) : (∃ A', Actors.Step act A A') ∨
    ∀ p, p.Prime → p < 2 ^ 31 → p ∈ A.output.map (·.2.toNat) := by
  have hlength : A.output.length ≤ 2 ^ 31 := by
    refine Sieve.length_le_of_primes h.primes fun p hp => ?_
    obtain ⟨o, ho, rfl⟩ := List.mem_map.mp hp
    exact h.small _ (h.chain.arrived o ho)
  have hids := h.chain.length_le
  obtain ⟨j, hj⟩ := Actors.exists_name (a :: x :: ids) (by
    rw [List.length_cons]
    omega)
  obtain hstep | ⟨⟨s, f, hx, waits⟩, hempty, hdivides⟩ := h.chain.progress ⟨j, h.others j hj⟩
  · exact .inl hstep
  by_cases hi : 2 ^ 31 ≤ i.toNat
  · refine .inr fun p hp hlt => ?_
    obtain ⟨o, ho, hdvd⟩ := hdivides p (List.mem_range'_1.mpr ⟨hp.two_le, by omega⟩)
    have hmem : o.2.toNat ∈ A.output.map (·.2.toNat) := List.mem_map_of_mem ho
    have hprime : o.2.toNat.Prime := by
      rw [h.primes] at hmem
      obtain ⟨n, -, hn⟩ := List.mem_map.mp hmem
      rw [← hn]
      exact Nat.nth_mem_of_infinite Nat.infinite_setOfPred_prime n
    rwa [(Nat.prime_dvd_prime_iff_eq hprime hp).mp hdvd] at hmem
  · have hsends : act (.feed x i) = .send x i (.feed x (i + 1)) := by
      rw [act, slt_zero, if_neg (by simpa using hi)]
    exact .inl ⟨_, .send h.feed hsends hx waits hempty⟩

end Sieving

/-- What any run prints. -/
theorem run_prints (run : Actors.Run act (.single a .umain) A) :
    A.output.map (·.2.toNat) = (List.range A.output.length).map (Nat.nth Nat.Prime) ∧
      (A.output.map (·.1)).Nodup ∧
      ((∃ A', Actors.Step act A A') ∨
        ∀ p, p.Prime → p < 2 ^ 31 → p ∈ A.output.map (·.2.toNat)) := by
  have hinv : A = .single a .umain ∨ ∃ x i ids, Sieving A a x i ids := by
    refine run.invariant (p := fun A => A = .single a .umain ∨ ∃ x i ids, Sieving A a x i ids)
      (.inl rfl) ?_
    rintro A A' (rfl | ⟨x, i, ids, h⟩) step
    · obtain ⟨x, h⟩ := Sieving.start step
      exact .inr ⟨x, 2, [], h⟩
    · obtain ⟨i', ids', h'⟩ := h.step step
      exact .inr ⟨x, i', ids', h'⟩
  obtain rfl | ⟨x, i, ids, h⟩ := hinv
  · have hne : a + 1 ≠ a := by simp
    exact ⟨rfl, List.nodup_nil, .inl ⟨_, .spawn Actors.single_state_self rfl
      (Actors.single_state_of_ne hne)⟩⟩
  · have hids : (x :: ids).Nodup := (List.nodup_cons.mp h.nodup).2
    exact ⟨h.primes, hids.sublist h.chain.printers.sublist, h.progress⟩

/-- The lines are the prime numbers in their order, each of another environment, whatever the
scheduler, the interrupts and the page faults do; and as long as a prime number below 2^31 is
missing, one of the programs has something to do for which it need not wait. -/
theorem primes_in_order {k : Kernel} {e : EnvIdx} {w : Stage State Word}
    (start : (World.fresh k).Start) (slot : envx (k.envs e).id = e)
    (plays : Relation.ReflTransGen (Play act) (Stage.fresh k e .umain) w) :
    w.output.map (·.2.toNat) = (List.range w.output.length).map (Nat.nth Nat.Prime) ∧
      (w.output.map (·.1)).Nodup ∧
      ((∃ A', Actors.Step act w.view A') ∨
        ∀ p, p.Prime → p < 2 ^ 31 → p ∈ w.output.map (·.2.toNat)) :=
  run_prints (Stage.run_of_plays start slot plays)

/-- The first child prints the first prime number. -/
theorem primes_in_order_first : ∃ k₀ w, Booted qemu [intProgram] k₀ ∧
    Relation.ReflTransGen (Play act) (Stage.fresh k₀ 0 .umain) w ∧
    w.output.map (·.2.toNat) = [2] := by
  obtain ⟨k₀, k, d, d', w, hbooted, hid, hrun, hplays, hlaunched, hfamily⟩ :=
    qemu_launch (show act .umain = .spawn .top fun id => .feed id 2 from rfl)
  obtain ⟨w₁, p, src, hdelivers, hplace, houtside, houtput, hchild⟩ :=
    hlaunched.delivers hbooted hrun hfamily
      (show act (.feed 0x1001 2) = .send 0x1001 2 (.feed 0x1001 3) from rfl)
      (show act .top = .receive fun p _ => .fetched p from rfl)
  obtain ⟨k', hstep, hlike⟩ := hchild.prints
  have hprint : Play act w₁ _ := .print hchild.runsOn hplace houtside rfl
    (callFrame_calls .cputs 0 0 0 0 0) hstep (hlike.executes hchild).runsOn
  have hoccurs := (hplays.trans hdelivers).tail hprint
  obtain ⟨hlines, -⟩ := primes_in_order hbooted.start (by rw [hid]; decide) hoccurs
  have htwo : 2 = Nat.nth Nat.Prime 0 := (show Sieve.Sifted 0 [2] from .range 1).head
  refine ⟨k₀, _, hbooted, hoccurs, hlines.trans ?_⟩
  rw [houtput, htwo]
  rfl

end Jos.Primes
