import Mathlib

/-!
# Runs of a transition system

Every owner in this development is a partial step function over an explicit state: an
action names what the environment answered, and `none` says the code cannot take that
action there. This file is the one place the induction over runs is done.

A run is indexed by a *condition* on its steps. `Reachable` is the condition that always
holds; a weaker theorem ("every run in which no step does X") is the same induction with
another condition, so the two never need two proofs.
-/

namespace KwaqueStorage.Lib

variable {σ α : Type*}

/-- A system: where it may start, and what one action does. -/
structure System (σ α : Type*) where
  init : σ → Prop
  step : σ → α → Option σ

/-- The states of the runs whose every step meets `ok`, judged in the state before it. -/
inductive System.Run (M : System σ α) (ok : σ → α → Prop) : σ → Prop
  | init {s : σ} : M.init s → M.Run ok s
  | step {s s' : σ} {a : α} : M.Run ok s → ok s a → M.step s a = some s' → M.Run ok s'

/-- The states of all runs. -/
def System.Reachable (M : System σ α) : σ → Prop := M.Run fun _ _ => True

namespace System

variable {M : System σ α} {ok : σ → α → Prop}

/-- **The invariant rule.** The step case may use that the state before it is itself a
    state of such a run, so invariants can be proved one on top of another. -/
theorem Run.invariant {I : σ → Prop} (h₀ : ∀ s, M.init s → I s)
    (hstep : ∀ s a s', M.Run ok s → I s → ok s a → M.step s a = some s' → I s')
    {s : σ} (h : M.Run ok s) : I s := by
  induction h with
  | init h => exact h₀ _ h
  | step hr ha hs ih => exact hstep _ _ _ hr ih ha hs

/-- The actions of a list, one after another. -/
def exec (M : System σ α) : σ → List α → Option σ
  | s, [] => some s
  | s, a :: rest => (M.step s a).bind fun s' => M.exec s' rest

/-- What a list of actions executes to is the state of a run. -/
theorem Run.of_exec {s s' : σ} {acts : List α} (h : M.Reachable s)
    (he : M.exec s acts = some s') : M.Reachable s' := by
  induction acts generalizing s with
  | nil =>
    simp only [exec, Option.some.injEq] at he
    exact he ▸ h
  | cons a rest ih =>
    simp only [exec, Option.bind_eq_some_iff] at he
    obtain ⟨s₁, h₁, h₂⟩ := he
    exact ih (.step h trivial h₁) h₂

/-- The same, as long as every step meets a condition that is decided. -/
def execIf (M : System σ α) (ok : σ → α → Bool) : σ → List α → Option σ
  | s, [] => some s
  | s, a :: rest => if ok s a then (M.step s a).bind fun s' => M.execIf ok s' rest else none

theorem Run.of_execIf {ok : σ → α → Bool} {s s' : σ} {acts : List α}
    (h : M.Run (fun s a => ok s a = true) s) (he : M.execIf ok s acts = some s') :
    M.Run (fun s a => ok s a = true) s' := by
  induction acts generalizing s with
  | nil =>
    simp only [execIf, Option.some.injEq] at he
    exact he ▸ h
  | cons a rest ih =>
    unfold execIf at he
    split at he
    next hok =>
      obtain ⟨s₁, h₁, h₂⟩ := Option.bind_eq_some_iff.mp he
      exact ih (.step h hok h₁) h₂
    next => cases he

end System
end KwaqueStorage.Lib
