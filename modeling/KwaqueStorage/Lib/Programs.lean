import Mathlib

/-!
# Programs that wait for a world, and crashes between their steps

A coroutine that awaits one operation after another is a `Prog`: it is done, or it has issued a
command and goes on with the answer. The world is a partial function that says what an answer to a
command does, and `none` says that it cannot give that answer there. A crash may come wherever the
program waits, so what a program keeps has two halves: what holds when it ends, and what holds in
every world it passes (`Triple`).
-/

namespace KwaqueStorage.Lib

/-- A program over commands, each with its own kind of answer. -/
inductive Prog (ε : Type) (ρ : ε → Type) (α : Type) : Type
  | done (a : α)
  | call (e : ε) (next : ρ e → Prog ε ρ α)

namespace Prog

variable {ε : Type} {ρ : ε → Type} {α β W : Type}

def bind : Prog ε ρ α → (α → Prog ε ρ β) → Prog ε ρ β
  | .done a, f => f a
  | .call e next, f => .call e fun r => (next r).bind f

instance : Monad (Prog ε ρ) where
  pure := .done
  bind := bind

@[simp] theorem pure_eq (a : α) : (pure a : Prog ε ρ α) = .done a := rfl

@[simp] theorem bind_eq (p : Prog ε ρ α) (f : α → Prog ε ρ β) : p >>= f = p.bind f := rfl

@[simp] theorem done_bind (a : α) (f : α → Prog ε ρ β) : (Prog.done a).bind f = f a := rfl

section Worlds

variable (step : W → (e : ε) → ρ e → Option W)

/-- How a program may end. -/
inductive Ends : Prog ε ρ α → W → α → W → Prop
  | done {a : α} {w : W} : Ends (.done a) w a w
  | call {e : ε} {next : ρ e → Prog ε ρ α} {r : ρ e} {w w₁ w' : W} {a : α} :
    step w e r = some w₁ → Ends (next r) w₁ a w' → Ends (.call e next) w a w'

/-- The worlds a program may pass, from the one it starts in. -/
inductive Passes : Prog ε ρ α → W → W → Prop
  | here {p : Prog ε ρ α} {w : W} : Passes p w w
  | call {e : ε} {next : ρ e → Prog ε ρ α} {r : ρ e} {w w₁ w' : W} :
    step w e r = some w₁ → Passes (next r) w₁ w' → Passes (.call e next) w w'

/-- The program with its answers from an oracle, which knows how many it has given. -/
def play (oracle : Nat → (e : ε) → ρ e) : Nat → Prog ε ρ α → W → Option (α × W)
  | _, .done a, w => some (a, w)
  | n, .call e next, w => (step w e (oracle n e)).bind (play oracle (n + 1) (next (oracle n e)))

/-- From every world that meets `pre`, the program passes only worlds that meet `crash` and ends only
    as `post` says. -/
def Triple (pre : W → Prop) (p : Prog ε ρ α) (post : α → W → Prop) (crash : W → Prop) : Prop :=
  ∀ w, pre w → (∀ w', Passes step p w w' → crash w') ∧ ∀ a w', Ends step p w a w' → post a w'

end Worlds

variable {step : W → (e : ε) → ρ e → Option W} {pre : W → Prop} {post : α → W → Prop}
  {crash : W → Prop}

/-- What an oracle makes of a program is one of its ends. -/
theorem Ends.of_play {oracle : Nat → (e : ε) → ρ e} {p : Prog ε ρ α} :
    ∀ {n : Nat} {w w' : W} {a : α}, play step oracle n p w = some (a, w') → Ends step p w a w' := by
  induction p with
  | done b =>
    intro n w w' a h
    simp only [play, Option.some.injEq, Prod.mk.injEq] at h
    obtain ⟨rfl, rfl⟩ := h
    exact .done
  | call e next ih =>
    intro n w w' a h
    simp only [play, Option.bind_eq_some_iff] at h
    obtain ⟨w₁, h₁, h₂⟩ := h
    exact .call h₁ (ih _ h₂)

theorem ends_bind {f : α → Prog ε ρ β} {p : Prog ε ρ α} :
    ∀ {w w' : W} {b : β}, Ends step (p.bind f) w b w' →
      ∃ a w₁, Ends step p w a w₁ ∧ Ends step (f a) w₁ b w' := by
  induction p with
  | done a =>
    intro w w' b h
    exact ⟨a, w, .done, h⟩
  | call e next ih =>
    intro w w' b h
    cases h with
    | call hstep hrest =>
      obtain ⟨a, w₁, hp, hf⟩ := ih _ hrest
      exact ⟨a, w₁, .call hstep hp, hf⟩

theorem passes_bind {f : α → Prog ε ρ β} {p : Prog ε ρ α} :
    ∀ {w w' : W}, Passes step (p.bind f) w w' →
      Passes step p w w' ∨ ∃ a w₁, Ends step p w a w₁ ∧ Passes step (f a) w₁ w' := by
  induction p with
  | done a =>
    intro w w' h
    exact .inr ⟨a, w, .done, h⟩
  | call e next ih =>
    intro w w' h
    cases h with
    | here => exact .inl .here
    | call hstep hrest =>
      rcases ih _ hrest with hp | ⟨a, w₁, hp, hf⟩
      · exact .inl (.call hstep hp)
      · exact .inr ⟨a, w₁, .call hstep hp, hf⟩

namespace Triple

theorem done {a : α} (h : ∀ w, pre w → post a w ∧ crash w) : Triple step pre (.done a) post crash := by
  intro w hw
  refine ⟨?_, ?_⟩
  · intro w' hpass
    cases hpass
    exact (h w hw).2
  · intro b w' hend
    cases hend
    exact (h w hw).1

/-- **A command**: the worlds its answer leads to are where the rest begins. -/
theorem call {e : ε} {next : ρ e → Prog ε ρ α} (hcrash : ∀ w, pre w → crash w)
    (h : ∀ r, Triple step (fun w' => ∃ w, pre w ∧ step w e r = some w') (next r) post crash) :
    Triple step pre (.call e next) post crash := by
  intro w hw
  refine ⟨?_, ?_⟩
  · intro w' hpass
    cases hpass with
    | here => exact hcrash w hw
    | call hstep hrest => exact (h _ _ ⟨w, hw, hstep⟩).1 w' hrest
  · intro b w' hend
    cases hend with
    | call hstep hrest => exact (h _ _ ⟨w, hw, hstep⟩).2 b w' hrest

/-- **One program after another.** -/
theorem bind {p : Prog ε ρ α} {f : α → Prog ε ρ β} {mid : α → W → Prop} {post : β → W → Prop}
    (hp : Triple step pre p mid crash) (hf : ∀ a, Triple step (mid a) (f a) post crash) :
    Triple step pre (p.bind f) post crash := by
  intro w hw
  refine ⟨?_, ?_⟩
  · intro w' hpass
    rcases passes_bind hpass with hpass | ⟨a, w₁, hend, hpass⟩
    · exact (hp w hw).1 w' hpass
    · exact (hf a w₁ ((hp w hw).2 a w₁ hend)).1 w' hpass
  · intro b w' hend
    obtain ⟨a, w₁, hfirst, hrest⟩ := ends_bind hend
    exact (hf a w₁ ((hp w hw).2 a w₁ hfirst)).2 b w' hrest

theorem weaken {pre' : W → Prop} {p : Prog ε ρ α} {post' : α → W → Prop} {crash' : W → Prop}
    (h : Triple step pre p post crash) (hpre : ∀ w, pre' w → pre w)
    (hpost : ∀ a w, post a w → post' a w) (hcrash : ∀ w, crash w → crash' w) :
    Triple step pre' p post' crash' := by
  intro w hw
  obtain ⟨hpasses, hends⟩ := h w (hpre w hw)
  exact ⟨fun w' hpass => hcrash w' (hpasses w' hpass), fun a w' hend => hpost a w' (hends a w' hend)⟩

end Triple

/-! ## Calls, one after another -/

section Calls

variable {M C : Type} (step : W → (e : ε) → ρ e → Option W) (op : M → C → Prog ε ρ M)
  (init : M → W → Prop) (may : M → W → C → Prop)

/-- What the owner holds, and the world, after calls that ran to their ends. -/
inductive Reaches : M → W → Prop
  | init {m : M} {w : W} : init m w → Reaches m w
  | call {m m' : M} {w w' : W} {c : C} : Reaches m w → may m w c →
    Ends step (op m c) w m' w' → Reaches m' w'

/-- The worlds on the way: a crash may find any of them. -/
def Visits (w' : W) : Prop :=
  ∃ m w c, Reaches step op init may m w ∧ may m w c ∧ Passes step (op m c) w w'

/-- Calls that an oracle each answers, one after another. -/
def playAll : List (C × (Nat → (e : ε) → ρ e)) → M → W → Option (M × W)
  | [], m, w => some (m, w)
  | (c, oracle) :: rest, m, w =>
    (play step oracle 0 (op m c) w).bind fun after => playAll rest after.1 after.2

variable {step op init may} {inv : M → W → Prop}

theorem Reaches.of_playAll {calls : List (C × (Nat → (e : ε) → ρ e))} (hmay : ∀ m w c, may m w c) :
    ∀ {m m' : M} {w w' : W}, Reaches step op init may m w →
      playAll step op calls m w = some (m', w') → Reaches step op init may m' w' := by
  induction calls with
  | nil =>
    intro m m' w w' h he
    simp only [playAll, Option.some.injEq, Prod.mk.injEq] at he
    obtain ⟨rfl, rfl⟩ := he
    exact h
  | cons first rest ih =>
    intro m m' w w' h he
    simp only [playAll, Option.bind_eq_some_iff] at he
    obtain ⟨⟨m₁, w₁⟩, hfirst, hrest⟩ := he
    exact ih (.call h (hmay m w first.1) (Ends.of_play hfirst)) hrest

/-- **The invariant rule**: one triple for each call. -/
theorem Reaches.invariant (h₀ : ∀ m w, init m w → inv m w)
    (hop : ∀ m c, Triple step (fun w => inv m w ∧ may m w c) (op m c) inv crash) {m : M} {w : W}
    (h : Reaches step op init may m w) : inv m w := by
  induction h with
  | init h => exact h₀ _ _ h
  | call _ hmay hend ih => exact (hop _ _ _ ⟨ih, hmay⟩).2 _ _ hend

theorem Visits.invariant (h₀ : ∀ m w, init m w → inv m w)
    (hop : ∀ m c, Triple step (fun w => inv m w ∧ may m w c) (op m c) inv crash) {w' : W}
    (h : Visits step op init may w') : crash w' := by
  obtain ⟨m, w, c, hreach, hmay, hpass⟩ := h
  exact (hop m c w ⟨hreach.invariant h₀ hop, hmay⟩).1 w' hpass

end Calls

end Prog
end KwaqueStorage.Lib
