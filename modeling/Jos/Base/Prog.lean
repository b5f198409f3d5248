import Mathlib.Logic.Function.Basic

/-!
# Programs that return, leave or panic

A `Prog σ ρ ε α` is one atomic computation over a state `σ`. It returns an `α`,
leaves for good with a reason `ρ` (control is handed over and never comes back
to the caller), or panics with an `ε`. A computation that cannot leave has
`ρ = Empty`, so `zoom` runs it inside a larger state without a case for it.

`wp` is the weakest precondition with one postcondition for each way to end.
Taking `fun _ => False` for the panics gives total correctness, `fun _ => True`
partial correctness. The rewriting rules execute straight-line code; loops go
through the invariant rule `wp_forRange` and never unfold.
-/

/-- How a computation ends. Nothing is known about the state after a panic. -/
inductive Outcome (σ ρ ε α : Type) where
  | ret (value : α) (state : σ)
  | exit (how : ρ) (state : σ)
  | panic (why : ε)

/-- A deterministic computation over the state `σ`. -/
def Prog (σ ρ ε α : Type) : Type := σ → Outcome σ ρ ε α

namespace Prog

variable {σ τ ρ ε α β γ : Type}

instance : Monad (Prog σ ρ ε) where
  pure a := fun s => .ret a s
  bind m f := fun s =>
    match m s with
    | .ret a t => f a t
    | .exit r t => .exit r t
    | .panic e => .panic e

def get : Prog σ ρ ε σ := fun s => .ret s s

def modify (f : σ → σ) : Prog σ ρ ε Unit := fun s => .ret () (f s)

/-- Hand control over; whatever the caller had left to do is dropped. -/
def exit (r : ρ) : Prog σ ρ ε α := fun s => .exit r s

def panic (e : ε) : Prog σ ρ ε α := fun _ => .panic e

/-- `if (c) m;` -/
def when (c : Prop) [Decidable c] (m : Prog σ ρ ε Unit) : Prog σ ρ ε Unit :=
  if c then m else pure ()

/-- Run a computation on a part of the state. The rest is untouched. -/
def zoom (view : σ → τ) (put : τ → σ → σ) (m : Prog τ Empty ε α) : Prog σ ρ ε α := fun s =>
  match m (view s) with
  | .ret a t => .ret a (put t s)
  | .exit r _ => r.elim
  | .panic e => .panic e

/-- `for (i = 0; i < n; i++) body(i)`. -/
def forRange : Nat → (Nat → Prog σ ρ ε Unit) → Prog σ ρ ε Unit
  | 0, _ => pure ()
  | n + 1, body => do
      forRange n body
      body n

section Run

variable {s t : σ} {a : α}

theorem bind_ret {m : Prog σ ρ ε α} (f : α → Prog σ ρ ε β) (h : m s = .ret a t) :
    (m >>= f) s = f a t := by
  change (match m s with
    | .ret a t => f a t
    | .exit r t => .exit r t
    | .panic e => .panic e) = f a t
  rw [h]

theorem bind_exit {m : Prog σ ρ ε α} {r : ρ} (f : α → Prog σ ρ ε β) (h : m s = .exit r t) :
    (m >>= f) s = .exit r t := by
  change (match m s with
    | .ret a t => f a t
    | .exit r t => .exit r t
    | .panic e => .panic e) = .exit r t
  rw [h]

theorem bind_panic {m : Prog σ ρ ε α} {e : ε} (f : α → Prog σ ρ ε β) (h : m s = .panic e) :
    (m >>= f) s = .panic e := by
  change (match m s with
    | .ret a t => f a t
    | .exit r t => .exit r t
    | .panic e => .panic e) = .panic e
  rw [h]

/-- What comes first only matters by its outcome. -/
theorem bind_congr_run {m n : Prog σ ρ ε α} (f : α → Prog σ ρ ε β) (h : m s = n s) :
    (m >>= f) s = (n >>= f) s := by
  cases hn : n s with
  | ret a t => rw [bind_ret f (h.trans hn), bind_ret f hn]
  | exit r t => rw [bind_exit f (h.trans hn), bind_exit f hn]
  | panic e => rw [bind_panic f (h.trans hn), bind_panic f hn]

theorem bind_bind (m : Prog σ ρ ε α) (f : α → Prog σ ρ ε β) (g : β → Prog σ ρ ε γ) :
    ((m >>= f) >>= g) s = (m >>= fun a => f a >>= g) s := by
  cases hm : m s with
  | ret a t =>
      rw [bind_ret (fun a => f a >>= g) hm]
      cases hf : f a t with
      | ret b u => rw [bind_ret g ((bind_ret f hm).trans hf), bind_ret g hf]
      | exit r u => rw [bind_exit g ((bind_ret f hm).trans hf), bind_exit g hf]
      | panic e => rw [bind_panic g ((bind_ret f hm).trans hf), bind_panic g hf]
  | exit r t => rw [bind_exit g (bind_exit f hm), bind_exit _ hm]
  | panic e => rw [bind_panic g (bind_panic f hm), bind_panic _ hm]

@[simp] theorem pure_run : (pure a : Prog σ ρ ε α) s = .ret a s := rfl

@[simp] theorem get_run : (get : Prog σ ρ ε σ) s = .ret s s := rfl

@[simp] theorem modify_run (f : σ → σ) : (modify f : Prog σ ρ ε Unit) s = .ret () (f s) := rfl

@[simp] theorem exit_run (r : ρ) : (exit r : Prog σ ρ ε α) s = .exit r s := rfl

@[simp] theorem panic_run (e : ε) : (panic e : Prog σ ρ ε α) s = .panic e := rfl

@[simp] theorem get_bind (f : σ → Prog σ ρ ε β) : (get >>= f) s = f s s := rfl

@[simp] theorem modify_bind (g : σ → σ) (f : Unit → Prog σ ρ ε β) :
    (modify g >>= f) s = f () (g s) := rfl

@[simp] theorem panic_bind (e : ε) (f : α → Prog σ ρ ε β) :
    (panic e >>= f) s = .panic e := rfl

@[simp] theorem exit_bind (r : ρ) (f : α → Prog σ ρ ε β) :
    (exit r >>= f) s = .exit r s := rfl

@[simp] theorem pure_bind_run (f : α → Prog σ ρ ε β) : (pure a >>= f) s = f a s := rfl

theorem zoom_ret {view : σ → τ} {put : τ → σ → σ} {m : Prog τ Empty ε α} {u : τ}
    (h : m (view s) = .ret a u) : (zoom view put m : Prog σ ρ ε α) s = .ret a (put u s) := by
  simp only [zoom, h]

theorem zoom_panic {view : σ → τ} {put : τ → σ → σ} {m : Prog τ Empty ε α} {e : ε}
    (h : m (view s) = .panic e) : (zoom view put m : Prog σ ρ ε α) s = .panic e := by
  simp only [zoom, h]

theorem when_pos {c : Prop} [Decidable c] (m : Prog σ ρ ε Unit) (h : c) : when c m = m :=
  if_pos h

theorem when_neg {c : Prop} [Decidable c] (m : Prog σ ρ ε Unit) (h : ¬ c) :
    when c m = pure () :=
  if_neg h

/-- A loop that leaves in its first iteration. -/
theorem forRange_exit {body : Nat → Prog σ ρ ε Unit} {r : ρ} (h : body 0 s = .exit r t) (n : Nat) :
    forRange (n + 1) body s = .exit r t := by
  induction n with
  | zero => exact (pure_bind_run _).trans h
  | succ n ih => exact bind_exit _ ih

end Run

/-- Weakest precondition for a return to `Q`, a departure to `X`, a panic to `E`. -/
def wp (m : Prog σ ρ ε α) (Q : α → σ → Prop) (X : ρ → σ → Prop) (E : ε → Prop) (s : σ) : Prop :=
  match m s with
  | .ret a t => Q a t
  | .exit r t => X r t
  | .panic e => E e

section Rules

variable {Q Q' : α → σ → Prop} {R : β → σ → Prop} {X X' : ρ → σ → Prop} {E E' : ε → Prop} {s : σ}

theorem wp_mono {m : Prog σ ρ ε α} (h : wp m Q X E s) (ret : ∀ a t, Q a t → Q' a t)
    (exit : ∀ r t, X r t → X' r t) (panic : ∀ e, E e → E' e) : wp m Q' X' E' s := by
  unfold wp at h ⊢
  cases hm : m s with
  | ret a t => exact ret a t (by simpa only [hm] using h)
  | exit r t => exact exit r t (by simpa only [hm] using h)
  | panic e => exact panic e (by simpa only [hm] using h)

/-- Weaken the postcondition of a return only. -/
theorem wp_imp {m : Prog σ ρ ε α} (h : wp m Q X E s) (ret : ∀ a t, Q a t → Q' a t) :
    wp m Q' X E s :=
  wp_mono h ret (fun _ _ hx => hx) (fun _ he => he)

theorem wp_and {m : Prog σ ρ ε α} (h : wp m Q X E s) (h' : wp m Q' X' E' s) :
    wp m (fun a t => Q a t ∧ Q' a t) (fun r t => X r t ∧ X' r t) (fun e => E e ∧ E' e) s := by
  unfold wp at *
  cases hm : m s with
  | ret a t => exact ⟨by simpa only [hm] using h, by simpa only [hm] using h'⟩
  | exit r t => exact ⟨by simpa only [hm] using h, by simpa only [hm] using h'⟩
  | panic e => exact ⟨by simpa only [hm] using h, by simpa only [hm] using h'⟩

/-- Nothing is claimed about how it ends. -/
theorem wp_true (m : Prog σ ρ ε α) :
    wp m (fun _ _ => True) (fun _ _ => True) (fun _ => True) s := by
  unfold wp
  cases m s with
  | ret a t => trivial
  | exit r t => trivial
  | panic e => trivial

theorem wp_ret {m : Prog σ ρ ε α} {a : α} {t : σ} (h : m s = .ret a t) :
    wp m Q X E s ↔ Q a t := by
  simp only [wp, h]

theorem wp_exit_eq {m : Prog σ ρ ε α} {r : ρ} {t : σ} (h : m s = .exit r t) :
    wp m Q X E s ↔ X r t := by
  simp only [wp, h]

theorem wp_panic_eq {m : Prog σ ρ ε α} {e : ε} (h : m s = .panic e) :
    wp m Q X E s ↔ E e := by
  simp only [wp, h]

@[simp] theorem wp_pure (a : α) : wp (pure a : Prog σ ρ ε α) Q X E s ↔ Q a s := Iff.rfl

@[simp] theorem wp_bind (m : Prog σ ρ ε α) (f : α → Prog σ ρ ε β) :
    wp (m >>= f) R X E s ↔ wp m (fun a t => wp (f a) R X E t) X E s := by
  unfold wp
  change (match (match m s with
      | .ret a t => f a t
      | .exit r t => .exit r t
      | .panic e => .panic e : Outcome σ ρ ε β) with
    | .ret a t => R a t
    | .exit r t => X r t
    | .panic e => E e) ↔ _
  cases m s <;> rfl

@[simp] theorem wp_get {Q : σ → σ → Prop} : wp (get : Prog σ ρ ε σ) Q X E s ↔ Q s s := Iff.rfl

@[simp] theorem wp_modify {Q : Unit → σ → Prop} (f : σ → σ) :
    wp (modify f : Prog σ ρ ε Unit) Q X E s ↔ Q () (f s) := Iff.rfl

@[simp] theorem wp_exit (r : ρ) : wp (exit r : Prog σ ρ ε α) Q X E s ↔ X r s := Iff.rfl

@[simp] theorem wp_panic (e : ε) : wp (panic e : Prog σ ρ ε α) Q X E s ↔ E e := Iff.rfl

theorem wp_ite {c : Prop} [Decidable c] (m n : Prog σ ρ ε α) :
    wp (if c then m else n) Q X E s ↔ (c → wp m Q X E s) ∧ (¬ c → wp n Q X E s) := by
  by_cases h : c <;> simp [h]

theorem wp_when {Q : Unit → σ → Prop} {c : Prop} [Decidable c] (m : Prog σ ρ ε Unit) :
    wp (when c m) Q X E s ↔ (c → wp m Q X E s) ∧ (¬ c → Q () s) := by
  rw [when, wp_ite, wp_pure]

@[simp] theorem wp_zoom (view : σ → τ) (put : τ → σ → σ) (m : Prog τ Empty ε α) :
    wp (zoom view put m : Prog σ ρ ε α) Q X E s ↔
      wp m (fun a t => Q a (put t s)) (fun r _ => r.elim) E (view s) := by
  unfold wp zoom
  cases m (view s) with
  | ret a t => exact Iff.rfl
  | exit r t => exact r.elim
  | panic e => exact Iff.rfl

/-- The zoomed part may change in any way; everything else stays. -/
theorem wp_zoom_frame {view : σ → τ} {put : τ → σ → σ} {m : Prog τ Empty ε α}
    (h : ∀ a t, Q a (put t s)) : wp (zoom view put m : Prog σ ρ ε α) Q X (fun _ => True) s := by
  rw [wp_zoom]
  unfold wp
  cases m (view s) with
  | ret a t => exact h a t
  | exit r t => exact r.elim
  | panic e => trivial

/-- A total specification yields a result. -/
theorem exists_of_wp {m : Prog σ ρ ε α}
    (h : wp m Q (fun _ _ => False) (fun _ => False) s) : ∃ a t, m s = .ret a t ∧ Q a t := by
  unfold wp at h
  cases hm : m s with
  | ret a t =>
      rw [hm] at h
      exact ⟨a, t, rfl, h⟩
  | exit r t =>
      rw [hm] at h
      exact h.elim
  | panic e =>
      rw [hm] at h
      exact h.elim

/-- A specification that allows nothing but an exit yields one. -/
theorem exists_exit_of_wp {m : Prog σ ρ ε α}
    (h : wp m (fun _ _ => False) X (fun _ => False) s) : ∃ r t, m s = .exit r t ∧ X r t := by
  unfold wp at h
  cases hm : m s with
  | ret a t =>
      rw [hm] at h
      exact h.elim
  | exit r t =>
      rw [hm] at h
      exact ⟨r, t, rfl, h⟩
  | panic e =>
      rw [hm] at h
      exact h.elim

/-- A sequence returns through both parts. -/
theorem bind_eq_ret {m : Prog σ ρ ε α} {f : α → Prog σ ρ ε β} {b : β} {u : σ}
    (h : (m >>= f) s = .ret b u) : ∃ a t, m s = .ret a t ∧ f a t = .ret b u := by
  cases hm : m s with
  | ret a t => exact ⟨a, t, rfl, (bind_ret f hm).symm.trans h⟩
  | exit r t =>
      rw [bind_exit f hm] at h
      simp at h
  | panic e =>
      rw [bind_panic f hm] at h
      simp at h

/-- A returning program on a part of the state ran on that part. -/
theorem zoom_eq_ret {view : σ → τ} {put : τ → σ → σ} {m : Prog τ Empty ε α} {a : α} {t : σ}
    (h : (zoom view put m : Prog σ ρ ε α) s = .ret a t) :
    ∃ u, m (view s) = .ret a u ∧ t = put u s := by
  simp only [zoom] at h
  cases hm : m (view s) with
  | ret b u =>
      rw [hm] at h
      obtain ⟨rfl, rfl⟩ := Outcome.ret.inj h
      exact ⟨u, rfl, rfl⟩
  | exit r u => exact r.elim
  | panic e =>
      rw [hm] at h
      simp at h

/-- Programs that go on alike from all results of `m`. -/
theorem bind_congr_of_wp {m : Prog σ ρ ε α} {f g : α → Prog σ ρ ε β}
    (h : wp m (fun a t => f a t = g a t) (fun _ _ => True) (fun _ => True) s) :
    (m >>= f) s = (m >>= g) s := by
  unfold wp at h
  cases hm : m s with
  | ret a t =>
      rw [hm] at h
      rw [bind_ret f hm, bind_ret g hm, h]
  | exit r t => rw [bind_exit f hm, bind_exit g hm]
  | panic e => rw [bind_panic f hm, bind_panic g hm]

/-- If it names the result, it determines the outcome. -/
theorem ret_of_wp {m : Prog σ ρ ε α} {a : α} {t : σ}
    (h : wp m (fun b u => b = a ∧ u = t) (fun _ _ => False) (fun _ => False) s) :
    m s = .ret a t := by
  obtain ⟨b, u, hm, rfl, rfl⟩ := exists_of_wp h
  exact hm

/-- Loop rule: an invariant indexed by the iterations already done. -/
theorem wp_forRange {n : Nat} {body : Nat → Prog σ ρ ε Unit} (I : Nat → σ → Prop)
    (iteration : ∀ i t, i < n → I i t → wp (body i) (fun _ => I (i + 1)) X E t)
    (pre : I 0 s) : wp (forRange n body) (fun _ => I n) X E s := by
  induction n with
  | zero => exact pre
  | succ n ih =>
      rw [forRange, wp_bind]
      apply wp_imp (ih fun i t hi => iteration i t (Nat.lt_succ_of_lt hi))
      intro _ t ht
      exact iteration n t (Nat.lt_succ_self n) ht

end Rules

-- the rules above are the interface; evaluating a goal `wp m ..` would run `m`
attribute [irreducible] wp

end Prog
