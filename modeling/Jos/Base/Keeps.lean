import Jos.Base.Prog

/-!
# What a program leaves alone

`Keeps view m` says that `m` does not change what `view` shows of the state, from whatever
state it starts and however it ends, a panic apart. There is one rule for each way to build a
program, so the proof for a function follows its text.
-/

namespace Prog

variable {σ τ ρ ε α β γ : Type}

/-- What `view` shows is the same before and after. -/
def Keeps (view : σ → γ) (m : Prog σ ρ ε α) : Prop :=
  ∀ s, wp m (fun _ t => view t = view s) (fun _ t => view t = view s) (fun _ => True) s

namespace Keeps

variable {view : σ → γ} {s t : σ}

theorem pure (a : α) : Keeps view (pure a : Prog σ ρ ε α) := fun _ => (wp_pure a).mpr rfl

theorem get : Keeps view (get : Prog σ ρ ε σ) := fun _ => wp_get.mpr rfl

theorem exit (r : ρ) : Keeps view (exit r : Prog σ ρ ε α) := fun _ => (wp_exit r).mpr rfl

theorem panic (e : ε) : Keeps view (panic e : Prog σ ρ ε α) := fun _ => (wp_panic e).mpr trivial

theorem modify {f : σ → σ} (h : ∀ s, view (f s) = view s) :
    Keeps view (modify f : Prog σ ρ ε Unit) := fun s => (wp_modify f).mpr (h s)

theorem bind {m : Prog σ ρ ε α} {f : α → Prog σ ρ ε β} (h : Keeps view m)
    (rest : ∀ a, Keeps view (f a)) : Keeps view (m >>= f) := by
  intro s
  rw [wp_bind]
  apply wp_imp (h s)
  intro a t ht
  exact wp_mono (rest a t) (fun _ _ hu => hu.trans ht) (fun _ _ hu => hu.trans ht) fun _ he => he

/-- The part of the state that a program reads is arbitrary. -/
theorem read {f : σ → Prog σ ρ ε α} (rest : ∀ s, Keeps view (f s)) :
    Keeps view (Prog.get >>= f) := bind get rest

theorem ite {c : Prop} [Decidable c] {m n : Prog σ ρ ε α} (hm : c → Keeps view m)
    (hn : ¬ c → Keeps view n) : Keeps view (if c then m else n) := by
  by_cases h : c
  · rw [if_pos h]
    exact hm h
  · rw [if_neg h]
    exact hn h

theorem when {c : Prop} [Decidable c] {m : Prog σ ρ ε Unit} (h : c → Keeps view m) :
    Keeps view (when c m) := ite h fun _ => pure ()

/-- A program on a part of the state that `view` does not show. -/
theorem zoom {part : σ → τ} {put : τ → σ → σ} (m : Prog τ Empty ε α)
    (h : ∀ u s, view (put u s) = view s) : Keeps view (zoom part put m : Prog σ ρ ε α) :=
  fun s => wp_zoom_frame fun _ u => h u s

/-- What is known after a return. -/
theorem ret {m : Prog σ ρ ε α} {a : α} (h : Keeps view m) (run : m s = .ret a t) :
    view t = view s := (wp_ret run).mp (h s)

theorem left {m : Prog σ ρ ε α} {r : ρ} (h : Keeps view m) (run : m s = .exit r t) :
    view t = view s := (wp_exit_eq run).mp (h s)

end Keeps

end Prog
