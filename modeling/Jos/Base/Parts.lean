import Jos.Base.Prog

/-!
# Programs in parts

A program that is cut into parts. Before each of them others may run: `R mode` is what they may do
there, and `mode` comes with the part. A part runs at a place `ι`, which the others may change, and
`Runs` keeps a list of what has happened. An assertion before a part has to be `Stable` under what
the others do; `Meets` is partial correctness, with one rule for each way to build a program.
-/

/-- A program that returns an `α`. `note` is what a part adds to the list. -/
inductive Parts (μ ι κ σ ρ ε α : Type) : Type 1 where
  | pure (a : α)
  | part {β : Type} (mode : μ) (m : ι → Prog σ ρ ε β) (note : σ → List κ)
      (next : β → Parts μ ι κ σ ρ ε α)

namespace Parts

variable {μ ι κ σ ρ ε α β : Type}

def bind : Parts μ ι κ σ ρ ε α → (α → Parts μ ι κ σ ρ ε β) → Parts μ ι κ σ ρ ε β
  | .pure a, f => f a
  | .part mode m note next, f => .part mode m note fun b => (next b).bind f

instance : Monad (Parts μ ι κ σ ρ ε) where
  pure := .pure
  bind := .bind

/-- One part. -/
def step (mode : μ) (m : ι → Prog σ ρ ε α) (note : σ → List κ) : Parts μ ι κ σ ρ ε α :=
  .part mode m note .pure

def forRange : Nat → (Nat → Parts μ ι κ σ ρ ε Unit) → Parts μ ι κ σ ρ ε Unit
  | 0, _ => .pure ()
  | n + 1, body => do
      forRange n body
      body n

/-! ### Without the others -/

/-- All the parts, one after the other. -/
def run (i : ι) : Parts μ ι κ σ ρ ε α → Prog σ ρ ε α
  | .pure a => Pure.pure a
  | .part _ m _ next => m i >>= fun b => (next b).run i

section Run

variable (i : ι)

end Run

/-! ### Among the others -/

section Runs

variable (R : μ → ι → σ → List κ → ι → σ → Prop)

/-- The program returns `a`, at another place perhaps. -/
inductive Runs : ι → Parts μ ι κ σ ρ ε α → σ → List κ → α → ι → σ → Prop
  | pure {i : ι} {a : α} {s : σ} : Runs i (.pure a) s [] a i s
  | wait {β : Type} {i i' j : ι} {mode : μ} {m : ι → Prog σ ρ ε β} {note : σ → List κ}
      {next : β → Parts μ ι κ σ ρ ε α} {s s' t : σ} {l l' : List κ} {a : α}
      (others : R mode i s l i' s') (rest : Runs i' (.part mode m note next) s' l' a j t) :
      Runs i (.part mode m note next) s (l ++ l') a j t
  | part {β : Type} {i j : ι} {mode : μ} {m : ι → Prog σ ρ ε β} {note : σ → List κ}
      {next : β → Parts μ ι κ σ ρ ε α} {s s' t : σ} {l : List κ} {a : α} {b : β}
      (run : m i s = .ret b s') (rest : Runs i (next b) s' l a j t) :
      Runs i (.part mode m note next) s (note s ++ l) a j t

variable {R} {p : Parts μ ι κ σ ρ ε α} {f : α → Parts μ ι κ σ ρ ε β} {i j : ι} {s t : σ}
  {l : List κ} {a : α} {b : β}

/-- If the others do nothing it is the program as a whole that runs. -/
theorem Runs.of_run (h : p.run i s = .ret a t) : ∃ l, Runs R i p s l a i t := by
  induction p generalizing s with
  | pure b =>
      obtain ⟨rfl, rfl⟩ := Outcome.ret.inj h
      exact ⟨[], .pure⟩
  | part mode m note next ih =>
      obtain ⟨b, s', hm, hnext⟩ := Prog.bind_eq_ret h
      obtain ⟨l, hrest⟩ := ih b hnext
      exact ⟨note s ++ l, .part hm hrest⟩

theorem Runs.mono {R' : μ → ι → σ → List κ → ι → σ → Prop} (h : Runs R i p s l a j t)
    (weaken : ∀ mode i s l j t, R mode i s l j t → R' mode i s l j t) : Runs R' i p s l a j t := by
  induction h with
  | pure => exact .pure
  | wait others rest ih => exact .wait (weaken _ _ _ _ _ _ others) ih
  | part run rest ih => exact .part run ih

theorem Runs.of_bind (h : Runs R i (p >>= f) s l b j t) :
    ∃ l₁ l₂ a i' s', l = l₁ ++ l₂ ∧ Runs R i p s l₁ a i' s' ∧ Runs R i' (f a) s' l₂ b j t := by
  induction p generalizing i s l with
  | pure a => exact ⟨[], l, a, i, s, rfl, .pure, h⟩
  | part mode m note next ih =>
      generalize hq : (Parts.part mode m note next >>= f) = q at h
      induction h with
      | pure => cases hq
      | wait others rest ihr =>
          obtain ⟨rfl, rfl, hm, hnote, hnext⟩ := Parts.part.inj hq
          obtain rfl := eq_of_heq hm
          obtain rfl := hnote
          obtain ⟨l₁, l₂, a, i', s', rfl, hfirst, hrest⟩ := ihr ih hq
          exact ⟨_, l₂, a, i', s', (List.append_assoc _ _ _).symm, .wait others hfirst, hrest⟩
      | part run rest =>
          obtain ⟨rfl, rfl, hm, hnote, hnext⟩ := Parts.part.inj hq
          obtain rfl := eq_of_heq hm
          obtain rfl := hnote
          obtain rfl := eq_of_heq hnext
          obtain ⟨l₁, l₂, a, i', s', rfl, hfirst, hrest⟩ := ih _ rest
          exact ⟨_, l₂, a, i', s', (List.append_assoc _ _ _).symm, .part run hfirst, hrest⟩

end Runs

/-! ### Assertions -/

section Rules

variable (R : μ → ι → σ → List κ → ι → σ → Prop)

/-- The others keep it. The list is what has happened so far. -/
def Stable (mode : μ) (P : ι → List κ → σ → Prop) : Prop :=
  ∀ i l s l' j t, P i l s → R mode i s l' j t → P j (l ++ l') t

/-- Each run from `P` that returns ends in `Q`. -/
def Meets (P : ι → List κ → σ → Prop) (p : Parts μ ι κ σ ρ ε α)
    (Q : α → ι → List κ → σ → Prop) : Prop :=
  ∀ i l s, P i l s → ∀ l' a j t, Runs R i p s l' a j t → Q a j (l ++ l') t

variable {R} {P P' : ι → List κ → σ → Prop} {p q : Parts μ ι κ σ ρ ε α}
  {Q Q' : α → ι → List κ → σ → Prop}

namespace Meets

theorem pure {a : α} (h : ∀ i l s, P i l s → Q a i l s) :
    Meets R P (Pure.pure a : Parts μ ι κ σ ρ ε α) Q := by
  intro i l s hp l' b j t hrun
  cases hrun
  rw [List.append_nil]
  exact h i l s hp

theorem mono (h : Meets R P p Q) (pre : ∀ i l s, P' i l s → P i l s)
    (post : ∀ a i l s, Q a i l s → Q' a i l s) : Meets R P' p Q' :=
  fun i l s hp l' a j t hrun => post a j _ t (h i l s (pre i l s hp) l' a j t hrun)

theorem bind {f : α → Parts μ ι κ σ ρ ε β} {T : β → ι → List κ → σ → Prop} (h : Meets R P p Q)
    (rest : ∀ a, Meets R (Q a) (f a) T) : Meets R P (p >>= f) T := by
  intro i l s hp l' b j t hrun
  obtain ⟨l₁, l₂, a, i', s', rfl, hfirst, hrest⟩ := hrun.of_bind
  rw [← List.append_assoc]
  exact rest a i' _ s' (h i l s hp l₁ a i' s' hfirst) l₂ b j t hrest

theorem step {mode : μ} {m : ι → Prog σ ρ ε α} {note : σ → List κ} (stable : Stable R mode P)
    (body : ∀ i l s a t, P i l s → m i s = .ret a t → Q a i (l ++ note s) t) :
    Meets R P (step mode m note) Q := by
  intro i l s hp l' a j t hrun
  generalize hq : Parts.step mode m note = p at hrun
  induction hrun generalizing l with
  | pure => cases hq
  | wait others rest ih =>
      obtain ⟨rfl, rfl, -, -, -⟩ := Parts.part.inj hq
      rw [← List.append_assoc]
      exact ih _ (stable _ _ _ _ _ _ hp others) hq
  | part run rest =>
      obtain ⟨rfl, rfl, hm, hnote, hnext⟩ := Parts.part.inj hq
      obtain rfl := eq_of_heq hm
      obtain rfl := hnote
      obtain rfl := eq_of_heq hnext
      cases rest
      rw [List.append_nil]
      exact body _ _ _ _ _ hp run

theorem ite {c : Prop} [Decidable c] (pos : c → Meets R P p Q) (neg : ¬ c → Meets R P q Q) :
    Meets R P (if c then p else q) Q := by
  split
  · exact pos ‹_›
  · exact neg ‹_›

/-- `I n` holds after `n` iterations. -/
theorem forRange {I : Nat → ι → List κ → σ → Prop} {body : Nat → Parts μ ι κ σ ρ ε Unit} {n : Nat}
    (h : ∀ m < n, Meets R (I m) (body m) fun _ => I (m + 1)) :
    Meets R (I 0) (forRange n body) fun _ => I n := by
  induction n with
  | zero => exact pure fun _ _ _ hi => hi
  | succ n ih =>
      exact bind (ih fun m hm => h m (Nat.lt_succ_of_lt hm)) fun _ => h n (Nat.lt_succ_self n)

end Meets

end Rules

end Parts
