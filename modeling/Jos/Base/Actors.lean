import Mathlib.Data.FinEnum
import Mathlib.Logic.Function.Basic
import Mathlib.Logic.Relation

/-!
# Actors

Programs that run side by side under names of their own, each of them one action after the
other. A message is handed over to an actor that waits for one and has none yet, and it stays
with that actor until it is read. Nobody has a clock: any actor that can go on may be next.
-/

/-- What an actor does next, and how it goes on. A new actor gets a name that nobody has. -/
inductive Actors.Action (ι M O S : Type*) where
  | send (dest : ι) (msg : M) (next : S)
  | receive (next : M → ι → S)
  | print (line : O) (next : S)
  | spawn (child : S) (next : ι → S)
  | stop

/-- The actors by their names, the messages that they have not read with the names of the
senders, and what was printed by whom. -/
@[ext] structure Actors (ι M O S : Type*) where
  state : ι → Option S
  mail : ι → List (M × ι)
  output : List (ι × O)

namespace Actors

variable {ι M O S : Type*} {A A' : Actors ι M O S} {i j : ι} {s : S} {l : List (M × ι)}

def prints (A : Actors ι M O S) (i : ι) (line : O) : Actors ι M O S :=
  { A with output := A.output ++ [(i, line)] }

@[simp] theorem prints_state {line : O} : (A.prints i line).state = A.state := rfl

@[simp] theorem prints_mail {line : O} : (A.prints i line).mail = A.mail := rfl

@[simp] theorem prints_output {line : O} : (A.prints i line).output = A.output ++ [(i, line)] := rfl

variable [DecidableEq ι]

def become (A : Actors ι M O S) (i : ι) (s : S) : Actors ι M O S :=
  { A with state := Function.update A.state i (some s) }

def setMail (A : Actors ι M O S) (i : ι) (l : List (M × ι)) : Actors ι M O S :=
  { A with mail := Function.update A.mail i l }

@[simp] theorem become_state_self : (A.become i s).state i = some s := Function.update_self i _ _

theorem become_state_of_ne (h : j ≠ i) : (A.become i s).state j = A.state j :=
  Function.update_of_ne h _ _

@[simp] theorem become_mail : (A.become i s).mail = A.mail := rfl

/-- What `i` was before does not matter. -/
theorem become_congr {B : Actors ι M O S} (state : ∀ j, j ≠ i → A.state j = B.state j)
    (mail : A.mail = B.mail) (output : A.output = B.output) : A.become i s = B.become i s := by
  refine Actors.ext (funext fun j => ?_) mail output
  by_cases hj : j = i
  · rw [hj, become_state_self, become_state_self]
  · rw [become_state_of_ne hj, become_state_of_ne hj, state j hj]

@[simp] theorem become_output : (A.become i s).output = A.output := rfl

@[simp] theorem setMail_state : (A.setMail i l).state = A.state := rfl

@[simp] theorem setMail_mail_self : (A.setMail i l).mail i = l := Function.update_self i _ _

theorem setMail_mail_of_ne (h : j ≠ i) : (A.setMail i l).mail j = A.mail j :=
  Function.update_of_ne h _ _

@[simp] theorem setMail_output : (A.setMail i l).output = A.output := rfl

/-- One actor goes on. -/
inductive Step (act : S → Action ι M O S) : Actors ι M O S → Actors ι M O S → Prop
  | send {A : Actors ι M O S} {i dest : ι} {msg : M} {s s' next : S} {f : M → ι → S}
      (state : A.state i = some s) (sends : act s = .send dest msg next)
      (other : A.state dest = some s') (waits : act s' = .receive f) (empty : A.mail dest = []) :
      Step act A ((A.become i next).setMail dest [(msg, i)])
  | receive {A : Actors ι M O S} {i src : ι} {msg : M} {s : S} {f : M → ι → S}
      (state : A.state i = some s) (waits : act s = .receive f) (mail : A.mail i = [(msg, src)]) :
      Step act A ((A.become i (f msg src)).setMail i [])
  | print {A : Actors ι M O S} {i : ι} {line : O} {s next : S} (state : A.state i = some s)
      (prints : act s = .print line next) : Step act A ((A.become i next).prints i line)
  | spawn {A : Actors ι M O S} {i j : ι} {s child : S} {f : ι → S} (state : A.state i = some s)
      (spawns : act s = .spawn child f) (fresh : A.state j = none) :
      Step act A ((A.become i (f j)).become j child)

/-- What comes of the action of `i`. -/
def After (A : Actors ι M O S) (i : ι) (A' : Actors ι M O S) (act : S → Action ι M O S) :
    Action ι M O S → Prop
  | .send dest msg next => A.mail dest = [] ∧ A' = (A.become i next).setMail dest [(msg, i)] ∧
      ∃ s f, A.state dest = some s ∧ act s = .receive f
  | .receive f => ∃ msg src, A.mail i = [(msg, src)] ∧
      A' = (A.become i (f msg src)).setMail i []
  | .print line next => A' = (A.become i next).prints i line
  | .spawn child f => ∃ j, A.state j = none ∧ A' = (A.become i (f j)).become j child
  | .stop => False

theorem Step.after {act : S → Action ι M O S} (step : Step act A A') :
    ∃ i s, A.state i = some s ∧ A.After i A' act (act s) := by
  cases step with
  | @send i dest msg s s' next f state sends other waits empty =>
      exact ⟨i, s, state, by rw [sends]; exact ⟨empty, rfl, s', f, other, waits⟩⟩
  | @receive i src msg s f state waits mail =>
      exact ⟨i, s, state, by rw [waits]; exact ⟨msg, src, mail, rfl⟩⟩
  | @print i line s next state prints => exact ⟨i, s, state, by rw [prints]; exact rfl⟩
  | @spawn i j s child f state spawns fresh =>
      exact ⟨i, s, state, by rw [spawns]; exact ⟨j, fresh, rfl⟩⟩

/-- Any number of actions, in any order of the actors. -/
def Run (act : S → Action ι M O S) : Actors ι M O S → Actors ι M O S → Prop :=
  Relation.ReflTransGen (Step act)

/-- What every step keeps holds all the time. -/
theorem Run.invariant {act : S → Action ι M O S} {A₀ : Actors ι M O S} {p : Actors ι M O S → Prop}
    (run : Run act A₀ A) (start : p A₀) (step : ∀ A A', p A → Step act A A' → p A') : p A := by
  induction run with
  | refl => exact start
  | tail _ last ih => exact step _ _ ih last

/-- There is one actor, which has just been started. -/
def single (i : ι) (s : S) : Actors ι M O S :=
  ⟨Function.update (fun _ => none) i (some s), fun _ => [], []⟩

@[simp] theorem single_state_self :
    (single i s : Actors ι M O S).state i = some s := by
  simp [single]

theorem single_state_of_ne (h : j ≠ i) :
    (single i s : Actors ι M O S).state j = none := by
  simp [single, Function.update_of_ne h]

@[simp] theorem single_mail : (single i s : Actors ι M O S).mail j = [] := rfl

@[simp] theorem single_output : (single i s : Actors ι M O S).output = [] := rfl

/-- The only actor goes on. -/
theorem Step.after_single {act : S → Action ι M O S} (step : Step act (single i s) A') :
    (single i s).After i A' act (act s) := by
  obtain ⟨j, s', hs, hafter⟩ := step.after
  obtain rfl : j = i := by
    by_contra hj
    simp [single_state_of_ne hj] at hs
  obtain rfl : s = s' := by simpa using hs
  exact hafter

/-- A name for the first actor that it makes. -/
theorem ne_of_single_state (h : (single i s : Actors ι M O S).state j = none) : j ≠ i := by
  rintro rfl
  simp at h

/-- There are more names than these. -/
theorem exists_name {w : Nat} (l : List (BitVec w)) (h : l.length < 2 ^ w) : ∃ x, x ∉ l := by
  by_contra hall
  have hmem : ∀ x, x ∈ l.toFinset := by simpa using hall
  have hcard : Fintype.card (BitVec w) ≤ l.length := by
    rw [← Finset.card_univ, ← Finset.eq_univ_iff_forall.mpr hmem]
    exact l.toFinset_card_le
  rw [← FinEnum.card_eq_fintypeCard, FinEnum.card_bitVec] at hcard
  omega

/-! ### Two actors -/

/-- There are only `x` and `y`, and `y` has the mail `l`. -/
structure Duo (A : Actors ι M O S) (x y : ι) (sx sy : S) (l : List (M × ι)) : Prop where
  ne : x ≠ y
  left : A.state x = some sx
  right : A.state y = some sy
  rest : ∀ i, i ≠ x → i ≠ y → A.state i = none
  mail : A.mail y = l
  empty : ∀ i, i ≠ y → A.mail i = []

/-- The actor cannot go on by itself. -/
def Waits (act : S → Action ι M O S) (s : S) : Prop := act s = .stop ∨ ∃ f, act s = .receive f

namespace Duo

variable {act : S → Action ι M O S} {x y : ι} {sx sy next : S}

theorem swap (h : Duo A x y sx sy []) : Duo A y x sy sx [] :=
  ⟨h.ne.symm, h.right, h.left, fun i hy hx => h.rest i hx hy, h.empty x h.ne, fun i _ => by
    by_cases hi : i = y
    · rw [hi, h.mail]
    · exact h.empty i hi⟩

/-- If one of them waits for the other, it is the turn of the other. -/
theorem turn (h : Duo A x y sx sy l) (waits : Waits act sx) (step : Step act A A') :
    A.After y A' act (act sy) := by
  obtain ⟨i, s, hs, hafter⟩ := step.after
  by_cases hx : i = x
  · subst hx
    obtain rfl : sx = s := Option.some.inj (h.left.symm.trans hs)
    obtain hstop | ⟨f, hf⟩ := waits
    · rw [hstop] at hafter
      exact hafter.elim
    · rw [hf] at hafter
      obtain ⟨msg, src, hmail, -⟩ := hafter
      rw [h.empty i h.ne] at hmail
      simp at hmail
  · by_cases hy : i = y
    · subst hy
      obtain rfl : sy = s := Option.some.inj (h.right.symm.trans hs)
      exact hafter
    · rw [h.rest i hx hy] at hs
      simp at hs

theorem print {line : O} (h : Duo A x y sx sy l) (waits : Waits act sx)
    (prints : act sy = .print line next) (step : Step act A A') :
    Duo A' x y sx next l ∧ A'.output = A.output ++ [(y, line)] := by
  have hafter := h.turn waits step
  rw [prints] at hafter
  obtain rfl : A' = (A.become y next).prints y line := hafter
  refine ⟨⟨h.ne, ?_, by simp, fun i hx hy => ?_, h.mail, h.empty⟩, rfl⟩
  · rw [prints_state, become_state_of_ne h.ne, h.left]
  · rw [prints_state, become_state_of_ne hy, h.rest i hx hy]

theorem send {msg : M} (h : Duo A x y sx sy []) (waits : Waits act sx)
    (sends : act sy = .send x msg next) (step : Step act A A') :
    Duo A' y x next sx [(msg, y)] ∧ A'.output = A.output := by
  have hafter := h.turn waits step
  rw [sends] at hafter
  obtain ⟨-, rfl, -⟩ := hafter
  refine ⟨⟨h.ne.symm, by simp, ?_, fun i hy hx => ?_, by simp, fun i hx => ?_⟩, rfl⟩
  · rw [setMail_state, become_state_of_ne h.ne, h.left]
  · rw [setMail_state, become_state_of_ne hy, h.rest i hx hy]
  · rw [setMail_mail_of_ne hx, become_mail]
    by_cases hy : i = y
    · rw [hy, h.mail]
    · exact h.empty i hy

theorem receive {msg : M} {src : ι} {f : M → ι → S} (h : Duo A x y sx sy [(msg, src)])
    (waits : Waits act sx) (receives : act sy = .receive f) (step : Step act A A') :
    Duo A' x y sx (f msg src) [] ∧ A'.output = A.output := by
  have hafter := h.turn waits step
  rw [receives] at hafter
  obtain ⟨msg', src', hmail, rfl⟩ := hafter
  obtain ⟨rfl, rfl⟩ : msg = msg' ∧ src = src' := by simpa [h.mail] using hmail
  refine ⟨⟨h.ne, ?_, by simp, fun i hx hy => ?_, by simp, fun i hy => ?_⟩, rfl⟩
  · rw [setMail_state, become_state_of_ne h.ne, h.left]
  · rw [setMail_state, become_state_of_ne hy, h.rest i hx hy]
  · rw [setMail_mail_of_ne hy, become_mail, h.empty i hy]

end Duo

end Actors
