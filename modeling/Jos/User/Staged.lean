import Jos.Kernel.EnvId
import Jos.User.Programs

/-!
# The programs and their actors

What the programs make of the kernel, seen without it: each program is an actor under the id of its
environment, also when it has ended and the slot is used again. Its mail is what was sent to it and
not returned by `ipc_recv` yet. Every step of a program or of the machine is an action of one actor,
or none at all.
-/

namespace Jos

variable {S O : Type} {act : S → Actors.Action Word Word O S} {w w' : Stage S O} {world' : World}
  {e : EnvIdx} {p p' : Place S} {φ : Phase} {k' : Kernel} {c : Nat} {s : S}

/-- The action that a phase of `ipc_send` or `ipc_recv` belongs to. -/
inductive Guided (act : S → Actors.Action Word Word O S) : Option (Place S) → Phase → Prop
  | idle {o : Option (Place S)} {φ : Phase} (idle : φ ∈ [.outside, .panicked]) : Guided act o φ
  | sent {o : Option (Place S)} {dest value perm : Word} :
      Guided act o (.answered (.trySend dest value perm) 0)
  | send {s next : S} {dest value : Word} {φ : Phase} (sends : act s = .send dest value next)
      (phase : φ = .sending dest value 0 ∨ (∃ r, r ≠ 0 ∧ φ = .answered (.trySend dest value 0) r) ∨
        φ = .asked (.retry dest value 0) ∨ ∃ r, φ = .answered (.retry dest value 0) r) :
      Guided act (some (.running s)) φ
  | receive {s : S} {f : Word → Word → S} {φ : Phase} (waits : act s = .receive f)
      (phase : φ = .asked .recv ∨ (∃ r, φ = .answered .recv r) ∨ ∃ r src, φ = .reading r src) :
      Guided act (some (.running s)) φ

/-- Children that wait for the end of a `fork`, and their parents. -/
structure Brood (place : EnvIdx → Option (Place S)) : Prop where
  child : ∀ e x s, place e = some (.forking x s) → ∃ g, place x = some (.embryo g)
  parent : ∀ e e' x s s', place e = some (.forking x s) → place e' = some (.forking x s') → e = e'

namespace Stage

/-- The invariant. -/
structure Inv (act : S → Actors.Action Word Word O S) (w : Stage S O) : Prop where
  world : w.world.Inv none
  slots : ∀ e p, w.place e = some p → envx (w.kernel.envs e).id = e
  idle : ∀ e, Place.Quiet (w.place e) → w.world.phase e = .outside
  gone : ∀ i s, w.gone i = some s → w.place (envx i) ≠ none
  guided : ∀ e, Guided act (w.place e) (w.world.phase e)
  brood : Brood w.place
  young : ∀ e g, w.place e = some (.embryo g) → w.kernel.Young e

/-- The programs as actors. -/
def view (w : Stage S O) : Actors Word Word O S where
  state := w.state
  mail i := if (w.kernel.envs (envx i)).id = i then
    (w.world.sent (envx i)).drop (w.world.received (envx i)).length else []
  output := w.output

theorem view_state (w : Stage S O) (i : Word) : w.view.state i =
    if (w.kernel.envs (envx i)).id = i then (w.place (envx i)).map Place.state else w.gone i := rfl

theorem view_mail (w : Stage S O) (i : Word) : w.view.mail i =
    if (w.kernel.envs (envx i)).id = i then
      (w.world.sent (envx i)).drop (w.world.received (envx i)).length else [] := rfl

theorem view_state_id (slot : envx (w.kernel.envs e).id = e) :
    w.view.state (w.kernel.envs e).id = (w.place e).map Place.state := by
  rw [view_state, slot, if_pos rfl]

theorem view_mail_id (slot : envx (w.kernel.envs e).id = e) :
    w.view.mail (w.kernel.envs e).id =
      (w.world.sent e).drop (w.world.received e).length := by
  rw [view_mail, slot, if_pos rfl]

/-- The actors see the programs, their ids and their messages. -/
theorem view_congr (ids : ∀ e, (w'.kernel.envs e).id = (w.kernel.envs e).id)
    (place : ∀ e, (w'.place e).map Place.state = (w.place e).map Place.state)
    (gone : w'.gone = w.gone) (log : w'.world.log = w.world.log)
    (received : w'.world.received = w.world.received) (output : w'.output = w.output) :
    w'.view = w.view := by
  have hsent : w'.world.sent = w.world.sent := by
    funext e
    rw [World.sent, World.sent, log]
  refine Actors.ext (funext fun i => ?_) (funext fun i => ?_) output
  · rw [view_state, view_state, place, ids, gone]
  · rw [view_mail, view_mail, hsent, received, ids]

/-- A program goes on. -/
theorem view_setPlace (slot : envx (w.kernel.envs e).id = e) :
    (w.setPlace e p).view = w.view.become (w.kernel.envs e).id p.state := by
  refine Actors.ext (funext fun i => ?_) rfl rfl
  by_cases hi : i = (w.kernel.envs e).id
  · subst hi
    rw [Actors.become_state_self]
    refine (view_state_id (w := w.setPlace e p) slot).trans ?_
    rw [setPlace_place_self, Option.map_some]
  · rw [Actors.become_state_of_ne hi, view_state, view_state]
    by_cases hid : (w.kernel.envs (envx i)).id = i
    · have hne : envx i ≠ e := by
        rintro rfl
        exact hi hid.symm
      rw [setPlace_place_of_ne w p hne]
      rfl
    · exact (if_neg hid).trans (if_neg hid).symm

/-- Another message, or one less. -/
theorem view_setMail (slot : envx (w.kernel.envs e).id = e) {l : List (Word × Word)}
    (ids : ∀ e, (world'.kernel.envs e).id = (w.kernel.envs e).id)
    (self : (world'.sent e).drop (world'.received e).length = l)
    (others : ∀ e', e' ≠ e → world'.sent e' = w.world.sent e' ∧
      world'.received e' = w.world.received e') :
    ({ w with world := world' } : Stage S O).view = w.view.setMail (w.kernel.envs e).id l := by
  refine Actors.ext (funext fun i => ?_) (funext fun i => ?_) rfl
  · rw [Actors.setMail_state, view_state, view_state, ids]
  · rw [view_mail, ids]
    by_cases hi : i = (w.kernel.envs e).id
    · subst hi
      rw [Actors.setMail_mail_self, slot, if_pos rfl, self]
    · rw [Actors.setMail_mail_of_ne hi, view_mail]
      by_cases hid : (w.kernel.envs (envx i)).id = i
      · have hne : envx i ≠ e := by
          rintro rfl
          exact hi hid.symm
        rw [(others _ hne).1, (others _ hne).2]
      · rw [if_neg hid, if_neg hid]

/-- The slot `x` gets the id `r`, and who had it before is seen under the old id. -/
theorem view_retire {x : EnvIdx} {r : Word} (hid : (k'.envs x).id = r)
    (ids : ∀ e, e ≠ x → (k'.envs e).id = (w.kernel.envs e).id)
    (log : (w.world.enter c k').log = w.world.log)
    (mail : (w.world.sent x).drop (w.world.received x).length = [])
    (gone : ∀ i s, w.gone i = some s → w.place (envx i) ≠ none)
    (slot : ∀ p, w.place x = some p → envx (w.kernel.envs x).id = x) :
    (∀ i, i ≠ r → ((w.retire x).enter c k').view.state i = w.view.state i) ∧
      ((w.retire x).enter c k').view.mail = w.view.mail := by
  have hkernel : ((w.retire x).enter c k').kernel = k' := World.enter_kernel
  have hsent : ((w.retire x).enter c k').world.sent = w.world.sent := by
    funext e
    rw [World.sent, World.sent, ← log]
    rfl
  have hreceived : ((w.retire x).enter c k').world.received = w.world.received :=
    World.enter_received
  refine ⟨fun i hi => ?_, funext fun i => ?_⟩
  · rw [view_state, view_state, hkernel, enter_place, retire_place]
    change (if _ then _ else (w.retire x).gone i) = _
    by_cases hxi : envx i = x
    · rw [hxi, hid, if_neg hi.symm]
      cases hp : w.place x with
      | none =>
          have hgone : w.gone i = none := by
            by_contra hsome
            obtain ⟨s, hs⟩ := Option.ne_none_iff_exists'.mp hsome
            exact gone i s hs (hxi ▸ hp)
          rw [retire_gone_none hp, hgone, Option.map_none, ite_self]
      | some p =>
          rw [retire_gone_some hp]
          by_cases hold : (w.kernel.envs x).id = i
          · rw [if_pos hold, ← hold, Function.update_self]
            rfl
          · rw [if_neg hold, Function.update_of_ne (Ne.symm hold)]
    · rw [ids _ hxi]
      cases hp : w.place x with
      | none => rw [retire_gone_none hp]
      | some p =>
          have hold : i ≠ (w.kernel.envs x).id := by
            rintro rfl
            exact hxi (slot p hp)
          rw [retire_gone_some hp, Function.update_of_ne hold]
  · rw [view_mail, view_mail, hkernel, hsent, hreceived]
    by_cases hxi : envx i = x
    · rw [hxi, mail, ite_self, ite_self]
    · rw [ids _ hxi]

/-- The parent goes on, and there is a new actor. -/
theorem view_forked {x : EnvIdx} {r : Word} {t g : S} (hne : e ≠ x) (hx : envx r = x)
    (hid : (k'.envs x).id = r) (ids : ∀ e, e ≠ x → (k'.envs e).id = (w.kernel.envs e).id)
    (slot : envx (w.kernel.envs e).id = e)
    (state : ∀ i, i ≠ r → ((w.retire x).enter c k').view.state i = w.view.state i)
    (mail : ((w.retire x).enter c k').view.mail = w.view.mail) :
    ((((w.retire x).enter c k').setPlace e (.forking x t)).setPlace x (.embryo g)).view =
      (w.view.become (w.kernel.envs e).id t).become r g := by
  have hkernel : ((w.retire x).enter c k').kernel = k' := World.enter_kernel
  have hide : (((w.retire x).enter c k').kernel.envs e).id = (w.kernel.envs e).id := by
    rw [hkernel, ids e hne]
  have hidx : ((((w.retire x).enter c k').setPlace e (.forking x t)).kernel.envs x).id = r := by
    rw [show (((w.retire x).enter c k').setPlace e (.forking x t)).kernel = k' from hkernel, hid]
  rw [view_setPlace (by rw [hidx, hx]), hidx, view_setPlace (by rw [hide, slot]), hide]
  refine Actors.become_congr (fun i hi => ?_) mail rfl
  by_cases hcur : i = (w.kernel.envs e).id
  · rw [hcur, Actors.become_state_self, Actors.become_state_self]
    rfl
  · rw [Actors.become_state_of_ne hcur, Actors.become_state_of_ne hcur, state i hi]

end Stage

/-! ### Frames -/

theorem Guided.enter {o : Option (Place S)} (h : Guided act o φ) {φ' : Phase}
    (step : φ' = φ ∨ ∃ req r, φ = .asked req ∧ φ' = .answered req r) : Guided act o φ' := by
  obtain rfl | ⟨req, r, rfl, rfl⟩ := step
  · exact h
  cases h with
  | idle idle => simp at idle
  | send sends phase =>
      obtain hsend | ⟨r', -, hans⟩ | hretry | ⟨r', hans⟩ := phase
      · simp at hsend
      · simp at hans
      · obtain rfl := Phase.asked.inj hretry
        exact .send sends (.inr (.inr (.inr ⟨r, rfl⟩)))
      · simp at hans
  | receive waits phase =>
      obtain hrecv | ⟨r', hans⟩ | ⟨r', src, hread⟩ := phase
      · obtain rfl := Phase.asked.inj hrecv
        exact .receive waits (.inr (.inl ⟨r, rfl⟩))
      · simp at hans
      · simp at hread

/-- Who is in `ipc_recv` is at that action. -/
theorem Guided.waits {o : Option (Place S)} (h : Guided act o φ) (hφ : φ.inRecv = true) :
    ∃ s f, o = some (.running s) ∧ act s = .receive f := by
  cases h with
  | idle idle =>
      obtain rfl | rfl := List.mem_pair.mp idle
      · exact absurd hφ (by decide)
      · exact absurd hφ (by decide)
  | sent => exact absurd hφ (by simp [Phase.inRecv])
  | send sends phase =>
      obtain rfl | ⟨r', -, rfl⟩ | rfl | ⟨r', rfl⟩ := phase
      · exact absurd hφ (by simp [Phase.inRecv])
      · exact absurd hφ (by simp [Phase.inRecv])
      · exact absurd hφ (by simp [Phase.inRecv])
      · exact absurd hφ (by simp [Phase.inRecv])
  | receive waits phase => exact ⟨_, _, rfl, waits⟩

/-- The message of a call of `ipc_send` that has not arrived. -/
def Phase.inSend : Phase → Option (Word × Word × Word)
  | .sending dest value perm => some (dest, value, perm)
  | .answered (.trySend dest value perm) r => if r = 0 then none else some (dest, value, perm)
  | .asked (.retry dest value perm) => some (dest, value, perm)
  | .answered (.retry dest value perm) _ => some (dest, value, perm)
  | _ => none

/-- Who is in `ipc_send` is at that action. -/
theorem Guided.sends {o : Option (Place S)} {dest value perm : Word} (h : Guided act o φ)
    (hφ : φ.inSend = some (dest, value, perm)) :
    ∃ s next, o = some (.running s) ∧ act s = .send dest value next ∧ perm = 0 := by
  cases h with
  | idle idle =>
      obtain rfl | rfl := List.mem_pair.mp idle
      · simp [Phase.inSend] at hφ
      · simp [Phase.inSend] at hφ
  | sent => simp [Phase.inSend] at hφ
  | @send s next dest' value' _ sends phase =>
      have hmessage : φ.inSend = some (dest', value', 0) := by
        obtain rfl | ⟨r, hr, rfl⟩ | rfl | ⟨r, rfl⟩ := phase
        · rfl
        · exact if_neg hr
        · rfl
        · rfl
      obtain ⟨rfl, rfl, rfl⟩ : dest' = dest ∧ value' = value ∧ 0 = perm := by
        simpa using hmessage.symm.trans hφ
      exact ⟨s, next, rfl, sends, rfl⟩
  | receive waits phase =>
      obtain rfl | ⟨r, rfl⟩ | ⟨r, src, rfl⟩ := phase
      · simp [Phase.inSend] at hφ
      · simp [Phase.inSend] at hφ
      · simp [Phase.inSend] at hφ

/-- A child that is not started is in no call. -/
theorem Guided.of_embryo {o : Option (Place S)} {g : S} (h : Guided act (some (.embryo g)) φ) :
    Guided act o φ := by
  cases h with
  | idle idle => exact .idle idle
  | sent => exact .sent

theorem Guided.computes {o : Option (Place S)} {i : Inbox} {φ' : Phase} (h : Guided act o φ)
    (inside : φ ≠ .outside) (computes : Phase.Computes i φ φ' []) : Guided act o φ' := by
  cases computes with
  | send dest value perm => exact absurd rfl inside
  | panics error other => exact .idle (by simp)
  | sent fine arrived => exact .idle (by simp)
  | again =>
      obtain ⟨s, next, rfl, sends, rfl⟩ := h.sends rfl
      exact .send sends (.inl rfl)
  | yielded => exact .idle (by simp)
  | readFrom =>
      obtain ⟨s, f, rfl, waits⟩ := h.waits rfl
      exact .receive waits (.inr (.inr ⟨_, _, rfl⟩))

/-- In no `fork`, on neither side. -/
def Settled (o : Option (Place S)) : Prop := ∃ s, o = some (.running s) ∨ o = some (.stopped s)

theorem Brood.calm {place place' : EnvIdx → Option (Place S)} (h : Brood place)
    (same : ∀ e, place' e = place e ∨ Settled (place e) ∧ Settled (place' e)) : Brood place' := by
  have hback : ∀ e x s, place' e = some (.forking x s) → place e = some (.forking x s) := by
    intro e x s hp
    obtain heq | ⟨-, s', hs | hs⟩ := same e
    · rw [← heq, hp]
    · simp [hp] at hs
    · simp [hp] at hs
  refine ⟨fun e x s hp => ?_, fun e e' x s s' hp hp' =>
    h.parent e e' x s s' (hback e x s hp) (hback e' x s' hp')⟩
  obtain ⟨g, hg⟩ := h.child e x s (hback e x s hp)
  obtain heq | ⟨⟨s', hs | hs⟩, -⟩ := same x
  · exact ⟨g, heq.trans hg⟩
  · simp [hg] at hs
  · simp [hg] at hs

section Brood

variable {place : EnvIdx → Option (Place S)} {x : EnvIdx} {t g : S}

/-- `e` gets a child in the slot `x`. -/
theorem Brood.fork (h : Brood place) (hx : Place.Quiet (place x))
    (he : place e = some (.running s)) :
    Brood (Function.update (Function.update place e (some (.forking x t))) x
      (some (.embryo g))) := by
  have hcases : ∀ e' y u, Function.update (Function.update place e (some (.forking x t))) x
      (some (.embryo g)) e' = some (.forking y u) →
      e' = e ∧ y = x ∨ e' ≠ e ∧ y ≠ x ∧ y ≠ e ∧ place e' = some (.forking y u) := by
    intro e' y u hy
    by_cases he' : e' = x
    · rw [he', Function.update_self] at hy
      simp at hy
    rw [Function.update_of_ne he'] at hy
    by_cases hcur : e' = e
    · rw [hcur, Function.update_self] at hy
      obtain ⟨rfl, -⟩ := Place.forking.inj (Option.some.inj hy)
      exact .inl ⟨hcur, rfl⟩
    rw [Function.update_of_ne hcur] at hy
    obtain ⟨g', hg'⟩ := h.child e' y u hy
    refine .inr ⟨hcur, ?_, ?_, hy⟩
    · rintro rfl
      obtain hnone | ⟨t', ht'⟩ := hx
      · simp [hnone] at hg'
      · simp [ht'] at hg'
    · rintro rfl
      simp [he] at hg'
  refine ⟨fun e' y u hy => ?_, fun e' e'' y u u' hy hy' => ?_⟩
  · obtain ⟨-, rfl⟩ | ⟨-, hyx, hye, hold⟩ := hcases e' y u hy
    · exact ⟨g, Function.update_self y _ _⟩
    · obtain ⟨g', hg'⟩ := h.child e' y u hold
      exact ⟨g', by rw [Function.update_of_ne hyx, Function.update_of_ne hye, hg']⟩
  · obtain ⟨rfl, rfl⟩ | ⟨-, hyx, -, hold⟩ := hcases e' y u hy
    · obtain ⟨rfl, -⟩ | ⟨-, hyx, -⟩ := hcases e'' y u' hy'
      · rfl
      · exact absurd rfl hyx
    · obtain ⟨-, rfl⟩ | ⟨-, -, -, hold'⟩ := hcases e'' y u' hy'
      · exact absurd rfl hyx
      · exact h.parent e' e'' y u u' hold hold'

/-- `e` has started its child. -/
theorem Brood.start {p p' : Place S} (h : Brood place) (he : place e = some (.forking x t))
    (hp : ∀ y u, p ≠ .forking y u) (hp' : ∀ y u, p' ≠ .forking y u) :
    Brood (Function.update (Function.update place x (some p)) e (some p')) := by
  have hback : ∀ e' y u, Function.update (Function.update place x (some p)) e (some p') e' =
      some (.forking y u) → e' ≠ e ∧ place e' = some (.forking y u) := by
    intro e' y u hy
    by_cases hcur : e' = e
    · rw [hcur, Function.update_self] at hy
      exact absurd (Option.some.inj hy) (hp' y u)
    rw [Function.update_of_ne hcur] at hy
    by_cases hx : e' = x
    · rw [hx, Function.update_self] at hy
      exact absurd (Option.some.inj hy) (hp y u)
    rw [Function.update_of_ne hx] at hy
    exact ⟨hcur, hy⟩
  refine ⟨fun e' y u hy => ?_, fun e' e'' y u u' hy hy' =>
    h.parent e' e'' y u u' (hback e' y u hy).2 (hback e'' y u' hy').2⟩
  obtain ⟨hcur, hold⟩ := hback e' y u hy
  obtain ⟨g, hg⟩ := h.child e' y u hold
  have hyx : y ≠ x := by
    rintro rfl
    exact hcur (h.parent e' e y u t hold he)
  have hye : y ≠ e := by
    rintro rfl
    simp [he] at hg
  exact ⟨g, by rw [Function.update_of_ne hye, Function.update_of_ne hyx, hg]⟩

end Brood

namespace World.Inv

variable {w : World} {ev : Event}

/-- Only `sys_exofork` gives ids. -/
theorem ids (h : w.Inv none) (step : Step w.kernel ev k') (fork : ¬ ev.frame.Calls .exofork)
    (e : EnvIdx) : (k'.envs e).id = (w.kernel.envs e).id := by
  rcases h.exclusive.step_cases step with same | ⟨-, entry⟩
  · exact (same.envs e).id
  · exact entry.id_eq fork e

end World.Inv

namespace Stage

/-- The new state is one of the invariant, and the actors are as before or have taken a step. -/
def Simulates (act : S → Actors.Action Word Word O S) (w w' : Stage S O) : Prop :=
  w'.Inv act ∧ (w'.view = w.view ∨ Actors.Step act w.view w'.view)

namespace Inv

/-- What is left in the mail. -/
theorem mail (h : w.Inv act) (e : EnvIdx) :
    (w.world.sent e).drop (w.world.received e).length =
      (w.world.phase e).unread (w.kernel.inbox e) := by
  rw [(h.world.faithful e).exact, List.drop_left]

/-- A step that concerns no `fork`. -/
theorem goes (h : w.Inv act) (world : w'.world.Inv none)
    (ids : ∀ e, (w'.kernel.envs e).id = (w.kernel.envs e).id)
    (gone : w'.gone = w.gone)
    (idle : ∀ e, Place.Quiet (w'.place e) → w'.world.phase e = .outside)
    (place : ∀ e, w'.place e = w.place e ∨ Settled (w.place e) ∧ Settled (w'.place e))
    (guided : ∀ e, Guided act (w'.place e) (w'.world.phase e))
    (young : ∀ e, w.kernel.Young e → w'.kernel.Young e) : w'.Inv act := by
  refine ⟨world, fun e p hp => ?_, idle, fun i s hi hnone => ?_, guided, h.brood.calm place,
    fun e g hg => ?_⟩
  · rw [ids]
    obtain heq | ⟨⟨s, hs | hs⟩, -⟩ := place e
    · exact h.slots e p (heq ▸ hp)
    · exact h.slots e _ hs
    · exact h.slots e _ hs
  · obtain heq | ⟨-, s, hs | hs⟩ := place (envx i)
    · exact h.gone i s (gone ▸ hi) (heq ▸ hnone)
    · simp [hnone] at hs
    · simp [hnone] at hs
  · obtain heq | ⟨-, s, hs | hs⟩ := place e
    · exact young e (h.young e g (heq ▸ hg))
    · simp [hg] at hs
    · simp [hg] at hs

/-! ### User code -/

/-- Only `e` may have gone on, which has not ended. -/
theorem idles (h : w.Inv act) {place : EnvIdx → Option (Place S)} {phase : EnvIdx → Phase}
    (self : ¬ Place.Quiet (place e))
    (others : ∀ e', e' ≠ e → place e' = w.place e' ∧ phase e' = w.world.phase e') (e' : EnvIdx)
    (quiet : Place.Quiet (place e')) : phase e' = .outside := by
  by_cases he : e' = e
  · exact absurd (he ▸ quiet) self
  · obtain ⟨hplace, hphase⟩ := others e' he
    rw [hphase]
    exact h.idle e' (hplace ▸ quiet)

/-- Only `e` is at another point of its program. -/
theorem guides (h : w.Inv act) {place : EnvIdx → Option (Place S)} {phase : EnvIdx → Phase}
    (self : Guided act (place e) (phase e))
    (others : ∀ e', e' ≠ e → place e' = w.place e' ∧ phase e' = w.world.phase e') (e' : EnvIdx) :
    Guided act (place e') (phase e') := by
  by_cases he : e' = e
  · rw [he]
    exact self
  · rw [(others e' he).1, (others e' he).2]
    exact h.guided e'

/-- The call of `ipc_send`. -/
theorem begin (h : w.Inv act) {next : S} {dest value : Word} (runs : w.kernel.RunsOn c e)
    (place : w.place e = some (.running s)) (outside : w.world.phase e = .outside)
    (sends : act s = .send dest value next) :
    Simulates act w { w with world := w.world.setPhase e (.sending dest value 0) } := by
  have computes :
      Phase.Computes (w.kernel.inbox e) (w.world.phase e) (.sending dest value 0) [] := by
    rw [outside]
    exact .send dest value 0
  have hmove := h.world.move (.compute runs computes)
  rw [List.append_nil, Function.update_eq_self] at hmove
  have hothers : ∀ e', e' ≠ e → w.place e' = w.place e' ∧
      (w.world.setPhase e (.sending dest value 0)).phase e' = w.world.phase e' :=
    fun e' he => ⟨rfl, w.world.setPhase_of_ne _ he⟩
  refine ⟨h.goes hmove (fun _ => rfl) rfl (h.idles (by rw [place]; exact Place.not_quiet) hothers)
    (fun _ => .inl rfl) (h.guides ?_ hothers) fun _ hy => hy, .inl rfl⟩
  rw [World.setPhase_self, place]
  exact .send sends (.inl rfl)

/-- User code of `ipc_send` or `ipc_recv`. -/
theorem goOn (h : w.Inv act) (runs : w.kernel.RunsOn c e) (inside : w.world.phase e ≠ .outside)
    (computes : Phase.Computes (w.kernel.inbox e) (w.world.phase e) φ []) :
    Simulates act w { w with world := w.world.setPhase e φ } := by
  have hmove := h.world.move (.compute runs computes)
  rw [List.append_nil, Function.update_eq_self] at hmove
  have hothers : ∀ e', e' ≠ e → w.place e' = w.place e' ∧
      (w.world.setPhase e φ).phase e' = w.world.phase e' :=
    fun e' he => ⟨rfl, w.world.setPhase_of_ne _ he⟩
  refine ⟨h.goes hmove (fun _ => rfl) rfl (h.idles (fun quiet => inside (h.idle e quiet)) hothers)
    (fun _ => .inl rfl) (h.guides ?_ hothers) fun _ hy => hy, .inl rfl⟩
  rw [World.setPhase_self]
  exact (h.guided e).computes inside computes

/-- `ipc_recv` returns. -/
theorem receive (h : w.Inv act) {f : Word → Word → S} {value src : Word}
    (runs : w.kernel.RunsOn c e) (place : w.place e = some (.running s))
    (waits : act s = .receive f)
    (computes : Phase.Computes (w.kernel.inbox e) (w.world.phase e) φ [(value, src)]) :
    Simulates act w (Stage.setPlace { w with world := { w.world.setPhase e φ with
      received := Function.update w.world.received e (w.world.received e ++ [(value, src)]) } }
      e (.running (f value src))) := by
  have hmove := h.world.move (.compute runs computes)
  have hslot := h.slots e _ place
  generalize hworld : ({ w.world.setPhase e φ with
    received := Function.update w.world.received e (w.world.received e ++ [(value, src)]) } :
      World) = world at hmove ⊢
  have hkernel : world.kernel = w.kernel := by rw [← hworld]; rfl
  have hphase : world.phase = (w.world.setPhase e φ).phase := by rw [← hworld]
  have hsent : world.sent = w.world.sent := by rw [← hworld]; rfl
  have hself : world.received e = w.world.received e ++ [(value, src)] := by
    rw [← hworld]
    exact Function.update_self e _ _
  have hothers : ∀ e', e' ≠ e → world.received e' = w.world.received e' := fun e' he => by
    rw [← hworld]
    exact Function.update_of_ne he _ _
  -- the message was the whole mail
  have hout : φ = .outside ∧ (w.world.phase e).unread (w.kernel.inbox e) = [(value, src)] := by
    have hfaithful := h.world.faithful e
    generalize w.world.phase e = φ₀ at computes hfaithful
    cases computes with
    | @readValue r =>
        obtain ⟨rfl, rfl⟩ := hfaithful.reading r src rfl
        refine ⟨rfl, ?_⟩
        rw [Phase.unread, if_pos ⟨rfl, hfaithful.clear (by simp)⟩, Inbox.recvValue,
          if_neg (by decide)]
  obtain ⟨rfl, hunread⟩ := hout
  have hexact := (h.world.faithful e).exact
  rw [hunread] at hexact
  have hrest : ∀ e', e' ≠ e →
      (Stage.setPlace { w with world := world } e (.running (f value src))).place e' = w.place e' ∧
      world.phase e' = w.world.phase e' := fun e' he =>
    ⟨Stage.setPlace_place_of_ne _ _ he, (congrFun hphase e').trans (w.world.setPhase_of_ne _ he)⟩
  refine ⟨h.goes hmove (fun _ => by rw [← hkernel]; rfl) rfl (h.idles ?_ hrest) (fun e' => ?_)
    (h.guides ?_ hrest) (fun _ hy => ?_), .inr ?_⟩
  · rw [Stage.setPlace_place_self]
    exact Place.not_quiet
  · by_cases he : e' = e
    · refine .inr ⟨⟨s, .inl (he ▸ place)⟩, f value src, .inl ?_⟩
      rw [he, Stage.setPlace_place_self]
    · exact .inl (Stage.setPlace_place_of_ne _ _ he)
  · refine .idle ?_
    change world.phase e ∈ _
    rw [hphase, World.setPhase_self]
    simp
  · change world.kernel.Young _
    rw [hkernel]
    exact hy
  · have hids : ∀ e, (world.kernel.envs e).id = (w.kernel.envs e).id := fun e => by rw [hkernel]
    have hslot' : envx (world.kernel.envs e).id = e := by rw [hids, hslot]
    rw [Stage.view_setPlace (w := { w with world }) hslot',
      Stage.view_setMail hslot (l := []) hids ?_ fun e' he => ⟨congrFun hsent e', hothers e' he⟩]
    · have hid : (world.kernel.envs e).id = (w.kernel.envs e).id := hids e
      change Actors.Step act w.view ((w.view.setMail (w.kernel.envs e).id []).become
        (world.kernel.envs e).id (f value src))
      rw [hid]
      refine Actors.Step.receive (A := w.view) ?_ waits ?_
      · rw [Stage.view_state_id hslot, place]
        rfl
      · rw [Stage.view_mail_id hslot, h.mail, hunread]
    · rw [hsent, hself, hexact, List.drop_length]

/-! ### System calls -/

/-- The registers of those who wait for a message stay as they are. -/
theorem regs (h : w.Inv act) {ev : Event} (step : Step w.kernel ev k')
    (fork : ¬ ev.frame.Calls .exofork) (send : ¬ ev.frame.Calls .ipcTrySend) (e : EnvIdx)
    (waits : w.world.phase e = .asked .recv) :
    (k'.envs e).tf = (w.kernel.envs e).tf := by
  rcases h.world.exclusive.step_cases step with same | ⟨lock, entry⟩
  · exact (same.envs e).tf
  · refine entry.tf_eq fork send fun own => ?_
    exact h.world.active ev.cpu e (by simp) ⟨h.world.exclusive.mode_of_curenv lock own, own⟩ .recv
      waits

/-- Nobody is started. -/
theorem young_step (h : w.Inv act) {ev : Event} (step : Step w.kernel ev k')
    (set : ¬ ev.frame.Calls .envSetStatus) (destroy : ¬ ev.frame.Calls .envDestroy)
    (flag : w.kernel.Young e → (k'.envs e).ipcRecving = (w.kernel.envs e).ipcRecving)
    (young : w.kernel.Young e) : k'.Young e :=
  h.world.exclusive.young young step
    (fun _ _ => ⟨fun hc => absurd hc set, fun hc => absurd hc destroy⟩) (flag young)

theorem log_enter (h : w.Inv act) (c : Nat) (k' : Kernel) :
    (w.world.enter c k').log = w.world.log :=
  World.enter_log fun e => (h.world.faithful e).prompt

/-- The way out of the kernel. -/
theorem guided_enter (h : w.Inv act) (c : Nat) (k' : Kernel) (e : EnvIdx) :
    Guided act (w.place e) ((w.world.enter c k').phase e) :=
  (h.guided e).enter (World.enter_phase_cases e)

theorem outside_enter (outside : w.world.phase e = .outside) :
    (w.enter c k').world.phase e = .outside := by
  rw [Stage.enter_world, World.enter_phase (by simp [outside]), outside]

/-- A step after which the programs are where they have been. -/
theorem stays (h : w.Inv act) (world : (w.world.enter c k').Inv none)
    (ids : ∀ e, (k'.envs e).id = (w.kernel.envs e).id)
    (young : ∀ e, w.kernel.Young e → k'.Young e) :
    (w.enter c k').Inv act ∧ (w.enter c k').view = w.view := by
  have hkernel : (w.enter c k').kernel = k' := World.enter_kernel
  refine ⟨h.goes world (fun e => by rw [hkernel, ids]) rfl
    (fun e quiet => outside_enter (h.idle e quiet)) (fun _ => .inl rfl) (h.guided_enter c k')
    (by rw [hkernel]; exact young), ?_⟩
  exact Stage.view_congr (fun e => by rw [hkernel, ids]) (fun _ => rfl) rfl (h.log_enter c k')
    World.enter_received rfl

/-- A system call about pages, or a line that does not count. -/
theorem quietCall (h : w.Inv act) {tf : Trapframe} {call : SysCall} {cr2 input : Word}
    (runs : w.kernel.RunsOn c e) (calls : tf.Calls call) (kind : call ∈ .cputs :: memoryCalls)
    (step : Step w.kernel (.trap c tf cr2 input) k') :
    (w.enter c k').Inv act ∧ (w.enter c k').view = w.view := by
  have hne : ∀ other, other ∉ SysCall.cputs :: memoryCalls → ¬ tf.Calls other :=
    fun other hmem calls' => hmem (calls'.unique calls ▸ kind)
  have hinbox := h.world.quiet step (hne .ipcTrySend (by decide)) (hne .ipcRecv (by decide))
  refine h.stays (h.world.calls runs calls kind step)
    (h.world.ids step (hne .exofork (by decide))) fun e' => h.young_step step
      (hne .envSetStatus (by decide)) (hne .envDestroy (by decide)) fun _ => ?_
  exact congrArg Inbox.recving (congrFun hinbox e')

/-- An interrupt, a fault, a store, or a CPU that wakes up. -/
theorem other (h : w.Inv act) {ev : Event} (trapno : ev.frame.trapno ≠ tSyscall)
    (step : Step w.kernel ev k') :
    (w.enter ev.cpu k').Inv act ∧ (w.enter ev.cpu k').view = w.view := by
  have hne : ∀ call, ¬ ev.frame.Calls call := fun call calls => trapno calls.1
  have hinbox := h.world.quiet step (hne .ipcTrySend) (hne .ipcRecv)
  refine h.stays (h.world.other (fun call calls => absurd calls (hne call)) (hne _) (hne _) step)
    (h.world.ids step (hne _)) fun e' => h.young_step step (hne _) (hne _) fun _ => ?_
  exact congrArg Inbox.recving (congrFun hinbox e')

/-- Between two actions a program may be anywhere. -/
theorem setPlace (h : w.Inv act) (place : w.place e = some p) (before : Settled (some p))
    (after : Settled (some p')) (outside : w.world.phase e = .outside) :
    (w.setPlace e p').Inv act := by
  refine h.goes h.world (fun _ => rfl) rfl (fun e' quiet => ?_) (fun e' => ?_)
    (h.guides (e := e) ?_ fun e' he => ⟨Stage.setPlace_place_of_ne _ _ he, rfl⟩) fun _ hy => hy
  · by_cases he : e' = e
    · rw [he]
      exact outside
    · rw [Stage.setPlace_place_of_ne _ _ he] at quiet
      exact h.idle e' quiet
  · by_cases he : e' = e
    · rw [he, Stage.setPlace_place_self, place]
      exact .inr ⟨before, after⟩
    · exact .inl (Stage.setPlace_place_of_ne _ _ he)
  · refine .idle ?_
    rw [Stage.setPlace_world, outside]
    simp

/-- A program prints a line. -/
theorem print (h : w.Inv act) {next : S} {line : O} {tf : Trapframe} {cr2 input : Word}
    (runs : w.kernel.RunsOn c e) (place : w.place e = some (.running s))
    (outside : w.world.phase e = .outside) (prints : act s = .print line next)
    (calls : tf.Calls .cputs) (step : Step w.kernel (.trap c tf cr2 input) k') :
    Simulates act w { (w.enter c k').setPlace e (.running next) with
      output := w.output ++ [((w.kernel.envs e).id, line)] } := by
  have hslot := h.slots e _ place
  obtain ⟨hinv, hview⟩ := h.quietCall runs calls (by decide) step
  have hids : ((w.enter c k').kernel.envs e).id = (w.kernel.envs e).id := by
    rw [show (w.enter c k').kernel = k' from World.enter_kernel]
    exact h.world.ids step (fun hc => absurd (hc.unique calls) (by decide)) e
  have hnext : ((w.enter c k').setPlace e (.running next)).Inv act :=
    hinv.setPlace place ⟨s, .inl rfl⟩ ⟨next, .inl rfl⟩ (outside_enter outside)
  refine ⟨⟨hnext.world, hnext.slots, hnext.idle, hnext.gone, hnext.guided, hnext.brood,
    hnext.young⟩, .inr ?_⟩
  have hset := Stage.view_setPlace (w := w.enter c k') (p := .running next) (by rw [hids, hslot])
  rw [hview, hids] at hset
  change Actors.Step act w.view { ((w.enter c k').setPlace e (.running next)).view with
    output := w.output ++ [((w.kernel.envs e).id, line)] }
  rw [hset]
  refine Actors.Step.print (A := w.view) ?_ prints
  rw [Stage.view_state_id hslot, place]
  rfl

/-! ### Messages -/

/-- A system call of `ipc_send` or `ipc_recv` that sends nothing. -/
theorem asks (h : w.Inv act) (world : ((w.world.setPhase e φ).enter c k').Inv none)
    (place : w.place e = some (.running s)) (self : Guided act (some (.running s)) φ)
    (prompt : ∀ dest value perm, φ ≠ .asked (.trySend dest value perm))
    (ids : ∀ e, (k'.envs e).id = (w.kernel.envs e).id)
    (young : ∀ e, w.kernel.Young e → k'.Young e) :
    Simulates act w { w with world := (w.world.setPhase e φ).enter c k' } := by
  have hkernel : ((w.world.setPhase e φ).enter c k').kernel = k' := World.enter_kernel
  have hguided : ∀ e', Guided act (w.place e') ((w.world.setPhase e φ).phase e') :=
    h.guides (e := e) (by rw [World.setPhase_self, place]; exact self)
      fun e' he => ⟨rfl, w.world.setPhase_of_ne φ he⟩
  refine ⟨h.goes world (fun e => ?_) rfl (fun e' quiet => ?_) (fun _ => .inl rfl)
    (fun e' => (hguided e').enter (World.enter_phase_cases e')) fun e' hy => ?_, .inl ?_⟩
  · rw [Stage.kernel, hkernel, ids]
  · have hne : e' ≠ e := by
      rintro rfl
      exact Place.not_quiet (place ▸ quiet)
    have hphase : (w.world.setPhase e φ).phase e' = .outside :=
      (w.world.setPhase_of_ne φ hne).trans (h.idle e' quiet)
    exact (World.enter_phase (by simp [hphase])).trans hphase
  · rw [Stage.kernel, hkernel]
    exact young e' hy
  · refine Stage.view_congr (fun e => ?_) (fun _ => rfl) rfl (World.enter_log ?_)
      World.enter_received rfl
    · rw [Stage.kernel, hkernel, ids]
    · intro e' dest value perm heq
      by_cases he : e' = e
      · rw [he, World.setPhase_self] at heq
        exact prompt dest value perm heq
      · rw [World.setPhase_of_ne _ _ he] at heq
        exact (h.world.faithful e').prompt dest value perm heq

/-- `sys_ipc_recv`. -/
theorem recv (h : w.Inv act) {f : Word → Word → S} {tf : Trapframe} {cr2 input : Word}
    (runs : w.kernel.RunsOn c e) (place : w.place e = some (.running s))
    (outside : w.world.phase e = .outside) (waits : act s = .receive f)
    (calls : tf.Calls .ipcRecv) (dstva : tf.regs.edx = recvArg 0)
    (step : Step w.kernel (.trap c tf cr2 input) k') :
    Simulates act w { w with world := (w.world.setPhase e (.asked .recv)).enter c k' } := by
  have hne : ∀ other, other ≠ .ipcRecv → ¬ tf.Calls other :=
    fun other hother calls' => hother (calls'.unique calls)
  refine h.asks (h.world.recv runs outside calls dstva step) place (.receive waits (.inl rfl))
    (by simp) (h.world.ids step (hne _ (by decide))) fun e' => h.young_step step
      (hne _ (by decide)) (hne _ (by decide)) fun hy => ?_
  cases step.ipcStep h.world.parked with
  | quiet unsent unasked same => exact congrArg Inbox.recving (congrFun same e')
  | send sends recving put => exact absurd sends.call (hne _ (by decide))
  | @receive cur va receives await =>
      have hother : e' ≠ cur := by
        rintro rfl
        obtain rfl := Option.some.inj (receives.own.symm.trans runs.2)
        exact hy.idle c runs
      have hsame := congrFun await e'
      rw [Function.update_of_ne hother] at hsame
      exact congrArg Inbox.recving hsame

/-- `sys_yield` in the loop of `ipc_send`. -/
theorem retry (h : w.Inv act) {dest value perm : Word} {tf : Trapframe} {cr2 input : Word}
    (runs : w.kernel.RunsOn c e)
    (failed : w.world.phase e = .answered (.trySend dest value perm) (-eIpcNotRecv))
    (calls : tf.Calls .yield) (step : Step w.kernel (.trap c tf cr2 input) k') :
    Simulates act w
      { w with world := (w.world.setPhase e (.asked (.retry dest value perm))).enter c k' } := by
  have hne : ∀ other, other ≠ .yield → ¬ tf.Calls other :=
    fun other hother calls' => hother (calls'.unique calls)
  have hinbox := h.world.quiet step (hne .ipcTrySend (by decide)) (hne .ipcRecv (by decide))
  obtain ⟨s, next, hplace, sends, rfl⟩ := (h.guided e).sends (by rw [failed]; rfl)
  have hself : Guided act (some (.running s)) (.asked (.retry dest value 0)) :=
    .send sends (.inr (.inr (.inl rfl)))
  refine h.asks (h.world.call runs calls (by decide) (by rw [failed]; rfl) rfl (by simp) step)
    hplace hself (by simp) (h.world.ids step (hne _ (by decide))) fun e' => h.young_step step
      (hne _ (by decide)) (hne _ (by decide)) fun _ => ?_
  exact congrArg Inbox.recving (congrFun hinbox e')

/-- The call returns, and the program is at `next`. -/
theorem answers (h : w.Inv act) {next : S} (world : world'.Inv none)
    (place : w.place e = some (.running s))
    (self : Guided act (some (.running next)) (world'.phase e))
    (others : ∀ e', e' ≠ e → world'.phase e' = w.world.phase e')
    (ids : ∀ e, (world'.kernel.envs e).id = (w.kernel.envs e).id)
    (young : ∀ e, w.kernel.Young e → world'.kernel.Young e) :
    (Stage.setPlace { w with world := world' } e (.running next)).Inv act := by
  have hothers : ∀ e', e' ≠ e →
      (Stage.setPlace { w with world := world' } e (.running next)).place e' = w.place e' ∧
      world'.phase e' = w.world.phase e' :=
    fun e' he => ⟨Stage.setPlace_place_of_ne _ _ he, others e' he⟩
  refine h.goes world ids rfl (h.idles ?_ hothers) (fun e' => ?_) (h.guides ?_ hothers) young
  · rw [Stage.setPlace_place_self]
    exact Place.not_quiet
  · by_cases he : e' = e
    · rw [he, place, Stage.setPlace_place_self]
      exact .inr ⟨⟨s, .inl rfl⟩, next, .inl rfl⟩
    · exact .inl (Stage.setPlace_place_of_ne _ _ he)
  · rw [Stage.setPlace_place_self]
    exact self

/-- `sys_ipc_try_send`. -/
theorem trySend (h : w.Inv act) {next : S} {tf : Trapframe} {cr2 input : Word}
    (runs : w.kernel.RunsOn c e) (place : w.place e = some (.running s))
    (sending : w.world.phase e = .sending tf.regs.edx tf.regs.ecx tf.regs.edi)
    (sends : act s = .send tf.regs.edx tf.regs.ecx next) (calls : tf.Calls .ipcTrySend)
    (step : Step w.kernel (.trap c tf cr2 input) k') :
    Simulates act w (Stage.setPlace { w with world := (w.world.setPhase e
        (.asked (.trySend tf.regs.edx tf.regs.ecx tf.regs.edi))).enter c k' }
      e (.running (if (k'.envs e).tf.regs.eax.slt 0 then s else next))) := by
  have hne : ∀ other, other ≠ .ipcTrySend → ¬ tf.Calls other :=
    fun other hother calls' => hother (calls'.unique calls)
  have hslot := h.slots e _ place
  have hids := h.world.ids step (hne .exofork (by decide))
  obtain ⟨running, clear⟩ := h.world.running runs
  obtain ⟨runs', hsends⟩ := step.sendStep runs running clear calls
  have hanswer : (k'.envs e).tf.regs.eax = 0 ∨ (k'.envs e).tf.regs.eax.slt 0 = true := by
    have lock : w.kernel.Unlocked := by
      cases step with
      | wake mode lock ring run => exact lock
      | trap mode lock ring run => exact lock
    obtain ⟨d, hx⟩ := h.world.executes runs lock
    exact step.send_answer hx clear calls
  obtain ⟨-, -, -, -, hperm⟩ := (h.guided e).sends (by rw [sending]; rfl)
  have hworld := h.world.send runs sending calls step
  -- the flag of who is not started is clear, so that no message goes there
  have hyoung : ∀ e', w.kernel.Young e' → k'.Young e' := fun e' => h.young_step step
    (hne _ (by decide)) (hne _ (by decide)) fun hy => by
      cases hsends with
      | @sent dst target recving put answer woken others =>
          have hdst : e' ≠ dst := by
            rintro rfl
            exact absurd (recving.symm.trans hy.recving) (by decide)
          have hsame := congrFun put e'
          rw [Function.update_of_ne hdst] at hsame
          exact congrArg Inbox.recving hsame
      | failed same answer others => exact congrArg Inbox.recving (congrFun same e')
  have henter := World.enter_asked runs' (w.world.setPhase_self e
    (.asked (.trySend tf.regs.edx tf.regs.ecx tf.regs.edi)))
  generalize (w.world.setPhase e _).enter c k' = world' at hworld henter ⊢
  have hkernel : world'.kernel = k' := by rw [henter]
  have hself : world'.phase e = .answered (.trySend tf.regs.edx tf.regs.ecx tf.regs.edi)
      (k'.envs e).tf.regs.eax := by
    rw [henter]
    exact Function.update_self e _ _
  have hothers : ∀ e', e' ≠ e → world'.phase e' = w.world.phase e' := fun e' he => by
    rw [henter]
    exact (Function.update_of_ne he _ _).trans (w.world.setPhase_of_ne _ he)
  have hreceived : world'.received = w.world.received := by rw [henter]; rfl
  have hlog : world'.log = w.world.log ++ (Request.trySend tf.regs.edx tf.regs.ecx
      tf.regs.edi).message w.kernel e (k'.envs e).tf.regs.eax := by rw [henter]; rfl
  clear henter
  subst hkernel
  obtain hzero | hneg := hanswer
  · -- the message has arrived
    cases hsends with
    | failed same answer others => exact absurd hzero answer
    | @sent dst target recving put answer woken others =>
    rw [World.message_sent hzero target] at hlog
    rw [hzero] at hself ⊢
    rw [if_neg (by decide)]
    have hdst : dst ≠ e := by
      rintro rfl
      exact absurd (recving.symm.trans clear) (by decide)
    obtain ⟨-, hdest⟩ := (Kernel.envid2env_slot target).resolve_left hdst
    have hwaits := (h.world.faithful dst).waiting recving
    obtain ⟨s', f, hother, waits⟩ := (hwaits ▸ h.guided dst).waits rfl
    have hslot' := h.slots dst _ hother
    have hmail : (w.world.phase dst).unread (w.kernel.inbox dst) = [] := by
      rw [hwaits, Phase.unread, if_neg (by simp [recving])]
    have hexact := (h.world.faithful dst).exact
    rw [hmail, List.append_nil] at hexact
    have hsent : ∀ e', world'.sent e' = World.sent { w.world with log := w.world.log ++
        [⟨dst, (w.kernel.envs e).id, tf.regs.ecx, sendArg 0, tf.regs.edi⟩] } e' := fun e' => by
      rw [World.sent, World.sent, hlog]
    refine ⟨h.answers hworld place (hself ▸ .sent) hothers hids hyoung, .inr ?_⟩
    rw [Stage.view_setPlace (w := { w with world := world' }) (by rw [hids, hslot]),
      Stage.view_setMail hslot' (l := [(tf.regs.ecx, (w.kernel.envs e).id)]) hids ?_ ?_]
    · change Actors.Step act w.view ((w.view.setMail (w.kernel.envs dst).id _).become
        (world'.kernel.envs e).id next)
      rw [hids, hdest]
      refine Actors.Step.send (A := w.view) ?_ sends ?_ waits ?_
      · rw [Stage.view_state_id hslot, place, Option.map_some]
        rfl
      · rw [← hdest, Stage.view_state_id hslot', hother, Option.map_some]
        rfl
      · rw [← hdest, Stage.view_mail_id hslot', h.mail, hmail]
    · rw [hsent, World.sent_append_self _ rfl, hreceived, ← hexact, List.drop_left]
    · intro e' he'
      rw [hsent, World.sent_append_other _ he'.symm, hreceived]
      exact ⟨rfl, rfl⟩
  · -- nothing has happened
    cases hsends with
    | sent target recving put answer woken others =>
        rw [answer] at hneg
        exact absurd hneg (by decide)
    | failed same answer others =>
    rw [World.message_failed answer, List.append_nil] at hlog
    rw [if_pos hneg]
    rw [hperm] at hself
    refine ⟨h.answers hworld place (hself ▸ .send sends (.inr (.inl ⟨_, answer, rfl⟩))) hothers
      hids hyoung, .inl ?_⟩
    refine Stage.view_congr hids (fun e' => ?_) rfl hlog hreceived rfl
    by_cases he : e' = e
    · rw [he, Stage.setPlace_place_self, place]
    · rw [Stage.setPlace_place_of_ne _ _ he]

/-! ### The life of an environment -/

theorem noZombie (h : w.Inv act) {ev : Event} (step : Step w.kernel ev k')
    (destroy : ¬ ev.frame.Calls .envDestroy) (e : EnvIdx) : k'.status e ≠ .dying := by
  rcases h.world.exclusive.step_cases step with same | ⟨-, entry⟩
  · exact same.noZombie h.world.alive e
  · exact entry.noZombie destroy h.world.alive e

/-- Who has ended has no mail. -/
theorem mail_quiet (h : w.Inv act) (he : Place.Quiet (w.place e)) :
    (w.world.sent e).drop (w.world.received e).length = [] := by
  rw [h.mail, h.idle e he, Faithful.unread_of_not rfl]

/-- What is known of a call of `sys_exofork`. -/
theorem forks (h : w.Inv act) {tf : Trapframe} {cr2 input : Word} (runs : w.kernel.RunsOn c e)
    (calls : tf.Calls .exofork)
    (quiet : ∀ child, w.kernel.envFreeList = some child → Place.Quiet (w.place child))
    (step : Step w.kernel (.trap c tf cr2 input) k') :
    k'.RunsOn c e ∧ ForkStep w.kernel e k' ∧ k'.inbox = w.kernel.inbox ∧
      (w.world.enter c k').Inv none ∧ ∀ e, w.kernel.Young e → k'.Young e := by
  have hne : ∀ other, other ≠ .exofork → ¬ tf.Calls other :=
    fun other hother calls' => hother (calls'.unique calls)
  have lock : w.kernel.Unlocked := by
    cases step with
    | wake mode lock ring run => exact lock
    | trap mode lock ring run => exact lock
  obtain ⟨d, hx⟩ := h.world.executes runs lock
  obtain ⟨runs', hfork⟩ := step.forkStep hx h.world.exclusive.slots calls
  have hinbox := h.world.quiet step (hne .ipcTrySend (by decide)) (hne .ipcRecv (by decide))
  have hwaits : ∀ e', w.world.phase e' = .asked .recv → e' ≠ e ∧ ¬ Place.Quiet (w.place e') := by
    refine fun e' hφ => ⟨?_, fun hquiet => ?_⟩
    · rintro rfl
      exact h.world.active c e' (by simp) runs .recv hφ
    · rw [h.idle e' hquiet] at hφ
      simp at hφ
  refine ⟨runs', hfork, hinbox, ?_, fun e' => h.young_step step (hne _ (by decide))
    (hne _ (by decide)) fun _ => congrArg Inbox.recving (congrFun hinbox e')⟩
  refine h.world.enters step
    ⟨fun _ _ _ _ hc => absurd hc (hne _ (by decide)),
      fun _ _ _ hc => absurd hc (hne _ (by decide)), fun _ _ _ hc => absurd hc (hne _ (by decide))⟩
    ⟨fun _ _ _ hc => absurd hc (hne _ (by decide)), fun _ child _ _ head => ?_⟩
    (h.noZombie step (hne _ (by decide))) hinbox fun e' hφ => ?_
  · refine (h.world.faithful child).clear ?_
    rw [h.idle child (quiet child head)]
    simp
  · obtain ⟨hcur, hplaced⟩ := hwaits e' hφ
    cases hfork with
    | @made child head answer id status others regs =>
        refine regs e' hcur ?_
        rintro rfl
        exact hplaced (quiet e' head)
    | refused answer ids regs => exact regs e' hcur

/-- `fork` has failed. -/
theorem noFork (h : w.Inv act) {tf : Trapframe} {cr2 input : Word} (runs : w.kernel.RunsOn c e)
    (place : w.place e = some (.running s)) (outside : w.world.phase e = .outside)
    (calls : tf.Calls .exofork)
    (quiet : ∀ child, w.kernel.envFreeList = some child → Place.Quiet (w.place child))
    (step : Step w.kernel (.trap c tf cr2 input) k')
    (failed : (k'.envs e).tf.regs.eax.slt 0 = true) :
    Simulates act w ((w.enter c k').setPlace e (.stopped s)) := by
  obtain ⟨-, hfork, -, hworld, hyoung⟩ := h.forks runs calls quiet step
  cases hfork with
  | made head answer id status others regs =>
      rw [answer, nextEnvId_not_neg] at failed
      exact absurd failed (by decide)
  | refused answer ids regs =>
      obtain ⟨hinv, hview⟩ := h.stays hworld ids hyoung
      have hslot := hinv.slots e _ place
      refine ⟨hinv.setPlace place ⟨s, .inl rfl⟩ ⟨s, .inr rfl⟩ (outside_enter outside), .inl ?_⟩
      rw [← hview]
      refine Stage.view_congr (fun _ => rfl) (fun e' => ?_) rfl rfl rfl rfl
      by_cases he : e' = e
      · rw [he, Stage.setPlace_place_self, Stage.enter_place, place]
        rfl
      · rw [Stage.setPlace_place_of_ne _ _ he]

/-- `sys_exofork` has made a child. -/
theorem fork (h : w.Inv act) {child : S} {f : Word → S} {tf : Trapframe} {cr2 input r : Word}
    (runs : w.kernel.RunsOn c e) (place : w.place e = some (.running s))
    (outside : w.world.phase e = .outside) (spawns : act s = .spawn child f)
    (calls : tf.Calls .exofork)
    (quiet : ∀ child, w.kernel.envFreeList = some child → Place.Quiet (w.place child))
    (step : Step w.kernel (.trap c tf cr2 input) k') (answer : (k'.envs e).tf.regs.eax = r)
    (made : r.slt 0 = false) (new : w.state r = none) :
    Simulates act w ((((w.retire (envx r)).enter c k').setPlace e
      (.forking (envx r) (f r))).setPlace (envx r) (.embryo child)) := by
  obtain ⟨runs', hfork, hinbox, hworld, hyoung⟩ := h.forks runs calls quiet step
  have hslot := h.slots e _ place
  cases hfork with
  | refused negative ids regs =>
      rw [answer, made] at negative
      exact absurd negative (by decide)
  | @made x head hanswer hid status hids regs =>
  rw [answer] at hanswer
  rw [← hanswer] at hid
  have hx : envx r = x := by rw [hanswer, envx_nextEnvId]
  have hquiet := quiet x head
  have hphase := h.idle x hquiet
  rw [hx]
  have hne : x ≠ e := by
    rintro rfl
    rw [place] at hquiet
    exact Place.not_quiet hquiet
  have hkernel : (w.world.enter c k').kernel = k' := World.enter_kernel
  have hself : ∀ {p : Place S}, (((w.retire x).enter c k').setPlace e p).place e = some p :=
    Stage.setPlace_place_self _ _ _
  have hrest : ∀ {e' : EnvIdx} {p p' : Place S}, e' ≠ x → e' ≠ e →
      ((((w.retire x).enter c k').setPlace e p).setPlace x p').place e' = w.place e' :=
    fun hx he => by
      rw [Stage.setPlace_place_of_ne _ _ hx, Stage.setPlace_place_of_ne _ _ he, Stage.enter_place,
        Stage.retire_place]
  have hparent : ∀ {p p' : Place S},
      ((((w.retire x).enter c k').setPlace e p).setPlace x p').place e = some p := fun {_ _} => by
    rw [Stage.setPlace_place_of_ne _ _ hne.symm, hself]
  have hchild : ∀ {p p' : Place S},
      ((((w.retire x).enter c k').setPlace e p).setPlace x p').place x = some p' :=
    Stage.setPlace_place_self _ _ _
  refine ⟨⟨hworld, fun e' p hp => ?_, fun e' he' => ?_, fun i t hi => ?_, fun e' => ?_,
    h.brood.fork hquiet place, fun e' g hg => ?_⟩, .inr ?_⟩
  · change envx ((w.world.enter c k').kernel.envs e').id = e'
    rw [hkernel]
    by_cases he : e' = x
    · rw [he, hid, hx]
    · rw [hids e' he]
      by_cases hcur : e' = e
      · rw [hcur, hslot]
      · exact h.slots e' p (hrest he hcur ▸ hp)
  · have hx' : e' ≠ x := by
      rintro rfl
      rw [hchild] at he'
      simp [Place.Quiet] at he'
    have hcur : e' ≠ e := by
      rintro rfl
      rw [hparent] at he'
      simp [Place.Quiet] at he'
    rw [hrest hx' hcur] at he'
    exact outside_enter (h.idle e' he')
  · by_cases hxi : envx i = x
    · rw [hxi, hchild]
      simp
    · by_cases hei : envx i = e
      · rw [hei, hparent]
        simp
      · have hgone : w.gone i = some t := by
          change (w.retire x).gone i = some t at hi
          cases hp : w.place x with
          | none => rwa [Stage.retire_gone_none hp] at hi
          | some p =>
              have hold : i ≠ (w.kernel.envs x).id := by
                rintro rfl
                exact hxi (h.slots x p hp)
              rwa [Stage.retire_gone_some hp, Function.update_of_ne hold] at hi
        rw [hrest hxi hei]
        exact h.gone i t hgone
  · change Guided act _ ((w.world.enter c k').phase e')
    by_cases he : e' = x
    · rw [he, show (w.world.enter c k').phase x = .outside from outside_enter hphase]
      exact .idle (by simp)
    · by_cases hcur : e' = e
      · rw [hcur, show (w.world.enter c k').phase e = .outside from outside_enter outside]
        exact .idle (by simp)
      · rw [hrest he hcur]
        exact h.guided_enter c k' e'
  · change (w.world.enter c k').kernel.Young e'
    rw [hkernel]
    by_cases he : e' = x
    · rw [he]
      refine h.world.exclusive.forked_young trapping step runs' hne head status ?_
      rw [show (k'.envs x).ipcRecving = (w.kernel.envs x).ipcRecving from
        congrArg Inbox.recving (congrFun hinbox x)]
      refine (h.world.faithful x).clear ?_
      rw [hphase]
      simp
    · by_cases hcur : e' = e
      · rw [hcur, hparent] at hg
        simp at hg
      · exact hyoung e' (h.young e' g (hrest he hcur ▸ hg))
  · obtain ⟨hstate, hmail⟩ := Stage.view_retire hid hids (h.log_enter c k') (h.mail_quiet hquiet)
      h.gone (h.slots x)
    rw [Stage.view_forked hne.symm hx hid hids hslot hstate hmail]
    refine Actors.Step.spawn (A := w.view) ?_ spawns new
    rw [Stage.view_state_id hslot, place, Option.map_some]
    rfl

/-- `fork` makes the child runnable, and returns unless that fails. -/
theorem start (h : w.Inv act) {child : EnvIdx} {tf : Trapframe} {cr2 input : Word}
    (runs : w.kernel.RunsOn c e) (place : w.place e = some (.forking child s))
    (embryo : w.place child = some p) (outside : w.world.phase e = .outside)
    (calls : tf.Calls .envSetStatus) (target : tf.regs.edx = (w.kernel.envs child).id)
    (step : Step w.kernel (.trap c tf cr2 input) k') :
    Simulates act w (((w.enter c k').setPlace child p.started).setPlace e
      (if (k'.envs e).tf.regs.eax.slt 0 then .stopped s else .running s)) := by
  have hne : ∀ other, other ≠ .envSetStatus → ¬ tf.Calls other :=
    fun other hother calls' => hother (calls'.unique calls)
  have hinbox := h.world.quiet step (hne .ipcTrySend (by decide)) (hne .ipcRecv (by decide))
  have hids := h.world.ids step (hne .exofork (by decide))
  obtain ⟨g, hg⟩ := h.brood.child e child s place
  obtain rfl : p = .embryo g := Option.some.inj (embryo.symm.trans hg)
  have hyoung := h.young child g hg
  have hslot := h.slots child _ hg
  have hnec : child ≠ e := by
    rintro rfl
    simp [place] at hg
  have htarget : ∀ cur x, w.kernel.curenv c = some cur →
      w.kernel.envid2env cur tf.regs.edx true = some x → x = e ∨ x = child := by
    intro cur x own hx
    obtain rfl := Option.some.inj (own.symm.trans runs.2)
    obtain rfl | ⟨rfl, -⟩ := Kernel.envid2env_slot hx
    · exact .inl rfl
    · rw [target, hslot]
      exact .inr rfl
  have hworld : (w.world.enter c k').Inv none := by
    refine h.world.enters step
      ⟨fun cur x st enters _ hx _ => ?_, fun _ _ _ hc => absurd hc (hne _ (by decide)),
        fun _ _ _ hc => absurd hc (hne _ (by decide))⟩
      ⟨fun cur x enters _ hx _ => ?_, fun _ _ _ hc => absurd hc (hne _ (by decide))⟩
      (h.noZombie step (hne _ (by decide))) hinbox
      (h.regs step (hne _ (by decide)) (hne _ (by decide)))
    · rintro ⟨c', hc, runs'⟩
      obtain rfl | rfl := htarget cur x enters.1 hx
      · exact absurd (h.world.exclusive.unique c' c x (by simp) (by simp) runs' runs) hc
      · exact absurd runs' (hyoung.idle c')
    · obtain rfl | rfl := htarget cur x enters.1 hx
      · exact (h.world.running runs).2
      · exact hyoung.recving
  have hkernel : (w.world.enter c k').kernel = k' := World.enter_kernel
  generalize hp' : (if (k'.envs e).tf.regs.eax.slt 0 then Place.stopped s else .running s) = p'
  have hstate : p'.state = s ∧ ∀ y u, p' ≠ .forking y u ∧ p' ≠ .embryo u := by
    rw [← hp']
    split
    · exact ⟨rfl, by simp⟩
    · exact ⟨rfl, by simp⟩
  have hself : (((w.enter c k').setPlace child (Place.embryo g).started).setPlace e p').place e =
    some p' := Stage.setPlace_place_self _ _ _
  have hchild : (((w.enter c k').setPlace child (Place.embryo g).started).setPlace e p').place
      child = some (.running g) := by
    rw [Stage.setPlace_place_of_ne _ _ hnec]
    exact Stage.setPlace_place_self _ _ _
  have hrest : ∀ e', e' ≠ child → e' ≠ e →
      (((w.enter c k').setPlace child (Place.embryo g).started).setPlace e p').place e' =
        w.place e' := fun e' hx he => by
    rw [Stage.setPlace_place_of_ne _ _ he, Stage.setPlace_place_of_ne _ _ hx, Stage.enter_place]
  refine ⟨⟨hworld, fun e' p hp => ?_, fun e' he' => ?_, fun i t hi => ?_, fun e' => ?_,
    h.brood.start place (by simp [Place.started]) fun y u => (hstate.2 y u).1,
    fun e' g' hg' => ?_⟩, .inl ?_⟩
  · change envx ((w.world.enter c k').kernel.envs e').id = e'
    rw [hkernel, hids]
    by_cases he : e' = child
    · rw [he, hslot]
    · by_cases hcur : e' = e
      · rw [hcur, h.slots e _ place]
      · exact h.slots e' p (hrest e' he hcur ▸ hp)
  · have hx' : e' ≠ child := by
      rintro rfl
      rw [hchild] at he'
      exact Place.not_quiet he'
    by_cases hcur : e' = e
    · rw [hcur]
      exact outside_enter outside
    · rw [hrest e' hx' hcur] at he'
      exact outside_enter (h.idle e' he')
  · by_cases hchildi : envx i = child
    · rw [hchildi, hchild]
      simp
    · by_cases hei : envx i = e
      · rw [hei, hself]
        simp
      · rw [hrest _ hchildi hei]
        exact h.gone i t hi
  · change Guided act _ ((w.world.enter c k').phase e')
    by_cases hcur : e' = e
    · rw [hcur, show (w.world.enter c k').phase e = .outside from outside_enter outside]
      exact .idle (by simp)
    · by_cases he : e' = child
      · have hguided := h.guided_enter c k' child
        rw [hg] at hguided
        rw [he]
        exact hguided.of_embryo
      · rw [hrest e' he hcur]
        exact h.guided_enter c k' e'
  · have hx' : e' ≠ child := by
      rintro rfl
      simp [hchild] at hg'
    have hcur : e' ≠ e := by
      rintro rfl
      rw [hself] at hg'
      exact (hstate.2 child g').2 (Option.some.inj hg')
    change (w.world.enter c k').kernel.Young e'
    rw [hkernel]
    refine h.world.exclusive.young (h.young e' g' (hrest e' hx' hcur ▸ hg')) step
      (fun cur own => ⟨fun _ hx => ?_, fun hc => absurd hc (hne _ (by decide))⟩)
      (congrArg Inbox.recving (congrFun hinbox e'))
    obtain rfl | rfl := htarget cur e' own hx
    · exact hcur rfl
    · exact hx' rfl
  · refine Stage.view_congr (fun e' => ?_) (fun e' => ?_) rfl (h.log_enter c k')
      World.enter_received rfl
    · change ((w.world.enter c k').kernel.envs e').id = _
      rw [hkernel, hids]
    · by_cases hcur : e' = e
      · rw [hcur, hself, place, Option.map_some, Option.map_some, hstate.1]
        rfl
      · by_cases he : e' = child
        · rw [he, hchild, hg]
          rfl
        · rw [hrest e' he hcur]

/-- `exit`. -/
theorem exit (h : w.Inv act) {tf : Trapframe} {cr2 input : Word} (runs : w.kernel.RunsOn c e)
    (place : w.place e = some (.running s)) (outside : w.world.phase e = .outside)
    (calls : tf.Calls .envDestroy) (self : tf.regs.edx = 0)
    (step : Step w.kernel (.trap c tf cr2 input) k') :
    Simulates act w ((w.enter c k').setPlace e (.stopped s)) := by
  have hne : ∀ other, other ≠ .envDestroy → ¬ tf.Calls other :=
    fun other hother calls' => hother (calls'.unique calls)
  have hinbox := h.world.quiet step (hne .ipcTrySend (by decide)) (hne .ipcRecv (by decide))
  have hids := h.world.ids step (hne .exofork (by decide))
  have htarget : ∀ cur x, w.kernel.curenv c = some cur →
      w.kernel.envid2env cur tf.regs.edx true = some x → x = e := by
    intro cur x own hx
    rw [self, Kernel.envid2env_zero] at hx
    exact (Option.some.inj hx).symm.trans (Option.some.inj (own.symm.trans runs.2))
  have halive : ∀ e', k'.status e' ≠ .dying := fun e' => by
    rcases h.world.exclusive.step_cases step with same | ⟨-, entry⟩
    · exact same.noZombie h.world.alive e'
    · have hself : w.kernel.envid2env e tf.regs.edx true = some e := by
        rw [self, Kernel.envid2env_zero]
      exact entry.exit_noZombie runs.2 hself calls h.world.alive e'
  have hworld : (w.world.enter c k').Inv none := by
    refine h.world.enters step
      ⟨fun _ _ _ _ hc => absurd hc (hne _ (by decide)), fun cur x enters _ hx _ => ?_,
        fun _ _ _ hc => absurd hc (hne _ (by decide))⟩
      ⟨fun _ _ _ hc => absurd hc (hne _ (by decide)),
        fun _ _ _ hc => absurd hc (hne _ (by decide))⟩ halive hinbox
      (h.regs step (hne _ (by decide)) (hne _ (by decide)))
    rw [htarget cur x enters.1 hx]
    exact (h.world.running runs).1
  obtain ⟨hinv, hview⟩ := h.stays hworld hids fun e' hy => by
    refine h.world.exclusive.young hy step (fun cur own => ⟨fun hc => absurd hc (hne _ (by decide)),
      fun _ hx => ?_⟩) (congrArg Inbox.recving (congrFun hinbox e'))
    obtain rfl := htarget cur e' own hx
    exact hy.idle c runs
  refine ⟨hinv.setPlace place ⟨s, .inl rfl⟩ ⟨s, .inr rfl⟩ (outside_enter outside), .inl ?_⟩
  rw [← hview]
  refine Stage.view_congr (fun _ => rfl) (fun e' => ?_) rfl rfl rfl rfl
  by_cases he : e' = e
  · rw [he, Stage.setPlace_place_self, Stage.enter_place, place]
    rfl
  · rw [Stage.setPlace_place_of_ne _ _ he]

/-- Nothing else depends on whether a call has failed. -/
theorem result (h : w.Inv act) (e : EnvIdx) (r : Word) : (w.result e r).Inv act :=
  ⟨h.world, h.slots, h.idle, h.gone, h.guided, h.brood, h.young⟩

/-- Every step of a program or of the machine is an action of one actor, or none. -/
theorem play (h : w.Inv act) (play : Play act w w') : Simulates act w w' := by
  have none : ∀ {w₁ : Stage S O}, w₁.Inv act ∧ w₁.view = w.view → Simulates act w w₁ :=
    fun hsame => ⟨hsame.1, .inl hsame.2⟩
  cases play with
  | begin runs place outside sends => exact h.begin runs place outside sends
  | goOn runs inside computes => exact h.goOn runs inside computes
  | receive runs place waits computes => exact h.receive runs place waits computes
  | recv runs place outside waits calls dstva step =>
      exact h.recv runs place outside waits calls dstva step
  | trySend runs place sending sends calls srcva step =>
      exact h.trySend runs place sending sends calls step
  | retry runs failed calls step => exact h.retry runs failed calls step
  | print runs place outside prints calls step returns =>
      exact h.print runs place outside prints calls step
  | mutter runs calls step why => exact none (h.quietCall runs calls (by decide) step)
  | @memory c e _ _ _ _ _ runs calls kind step =>
      obtain ⟨hinv, hview⟩ := h.quietCall runs calls (List.mem_cons_of_mem _ kind) step
      exact none ⟨hinv.result e _, hview⟩
  | fork runs place outside spawns calls quiet step answer made new =>
      exact h.fork runs place outside spawns calls quiet step answer made new
  | noFork runs place outside spawns calls quiet step failed =>
      exact h.noFork runs place outside calls quiet step failed
  | start runs place embryo outside calls target status step =>
      exact h.start runs place embryo outside calls target step
  | exit runs place outside stops calls self step =>
      exact h.exit runs place outside calls self step
  | other trapno step => exact none (h.other trapno step)

theorem plays (h : w.Inv act) (plays : Relation.ReflTransGen (Play act) w w') :
    w'.Inv act ∧ Actors.Run act w.view w'.view := by
  induction plays with
  | refl => exact ⟨h, .refl⟩
  | tail _ last ih =>
      obtain ⟨hinv, hrun⟩ := ih
      obtain ⟨hinv', hsame | hstep⟩ := hinv.play last
      · exact ⟨hinv', by rw [hsame]; exact hrun⟩
      · exact ⟨hinv', hrun.tail hstep⟩

end Inv

/-- A program that has just been started is a single actor. -/
theorem fresh_inv {k : Kernel} (start : (World.fresh k).Start) (slot : envx (k.envs e).id = e) :
    (Stage.fresh k e s : Stage S O).Inv act := by
  have hno : ∀ {e'} {p : Place S}, (Stage.fresh k e s : Stage S O).place e' = some p →
      e' = e ∧ p = .running s := by
    intro e' p hp
    by_cases he : e' = e
    · rw [he, fresh_place_self] at hp
      exact ⟨he, (Option.some.inj hp).symm⟩
    · rw [fresh_place_of_ne k s he] at hp
      simp at hp
  refine ⟨start.inv, fun e' p hp => ?_, fun _ _ => rfl, fun _ _ hi => ?_, fun _ => .idle ?_,
    ⟨fun e' x t hx => ?_, fun e' e'' x t t' hx => ?_⟩, fun e' g hg => ?_⟩
  · rw [(hno hp).1]
    exact slot
  · simp [Stage.fresh] at hi
  · exact List.mem_cons_self
  · simpa using (hno hx).2
  · simpa using (hno hx).2
  · simpa using (hno hg).2

theorem fresh_view {k : Kernel} (slot : envx (k.envs e).id = e) :
    (Stage.fresh k e s : Stage S O).view = .single (k.envs e).id s := by
  refine Actors.ext (funext fun i => ?_) (funext fun i => ?_) rfl
  · rw [view_state]
    by_cases hi : i = (k.envs e).id
    · subst hi
      rw [Actors.single_state_self, slot, fresh_place_self]
      exact if_pos rfl
    · rw [Actors.single_state_of_ne hi]
      have hgone : (Stage.fresh k e s : Stage S O).gone i = none := rfl
      rw [hgone]
      refine ite_eq_right_iff.mpr fun hid => ?_
      rw [fresh_place_of_ne, Option.map_none]
      rintro rfl
      exact hi hid.symm
  · exact ite_self _

/-- The actors that are seen have all begun as the first program. -/
theorem run_of_plays {k : Kernel} (start : (World.fresh k).Start) (slot : envx (k.envs e).id = e)
    (plays : Relation.ReflTransGen (Play act) (Stage.fresh k e s) w) :
    Actors.Run act (.single (k.envs e).id s) w.view := by
  have hrun := ((Stage.fresh_inv start slot).plays plays).2
  rwa [Stage.fresh_view slot] at hrun

end Stage

end Jos
