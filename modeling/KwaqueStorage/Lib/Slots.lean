import Mathlib

/-!
# Objects in slots

A program that keeps objects of one kind in slots: it makes an object from some content, asks one something,
which gives an answer and may change it, and moves one to another slot, which leaves a blank behind. Two
kinds of objects answer alike in every program when one is the image of the other under every single step.
-/

namespace KwaqueStorage.Lib.Slots

open Function (update update_apply)

/-- A kind of objects: one that is blank, how one is made, and how one answers. -/
structure Machine (P β ρ α : Type) where
  blank : P
  make : β → P
  ask : P → ρ → α × P

/-- What a program does. -/
inductive Action (β ρ : Type)
  | make (slot : Nat) (content : β)
  | ask (slot : Nat) (request : ρ)
  | move (target source : Nat)

variable {P Q β γ ρ α ω : Type}

/-- The same action on other contents. -/
def Action.map (f : β → γ) : Action β ρ → Action γ ρ
  | make slot content => .make slot (f content)
  | ask slot request => .ask slot request
  | move target source => .move target source

/-- One action, with its answer if it asks. A move onto its own slot does nothing. -/
def Machine.perform (m : Machine P β ρ α) (slots : Nat → P) : Action β ρ → Option α × (Nat → P)
  | .make slot content => (none, update slots slot (m.make content))
  | .ask slot request =>
    let answered := m.ask (slots slot) request
    (some answered.1, update slots slot answered.2)
  | .move target source =>
    if target = source then (none, slots)
    else (none, update (update slots target (slots source)) source m.blank)

/-- A run from slots that are all blank, with the answers in order. -/
def Machine.run (m : Machine P β ρ α) (actions : List (Action β ρ)) : List (Option α) × (Nat → P) :=
  actions.foldl (fun state action =>
    let done := m.perform state.2 action
    (state.1 ++ [done.1], done.2)) ([], fun _ => m.blank)

theorem Machine.run_concat {m : Machine P β ρ α} {actions : List (Action β ρ)} {action : Action β ρ} :
    m.run (actions ++ [action])
      = ((m.run actions).1 ++ [(m.perform (m.run actions).2 action).1],
        (m.perform (m.run actions).2 action).2) := by
  unfold Machine.run
  rw [List.foldl_append]
  rfl

/-- One kind of objects does what another does: `abs` is what an object stands for, `inv` what is true of
    every object. -/
structure Machine.Refines (m : Machine P β ρ α) (spec : Machine Q γ ρ ω) (inv : P → Prop) (abs : P → Q)
    (content : β → γ) (shown : α → ω) : Prop where
  blank : inv m.blank ∧ abs m.blank = spec.blank
  make : ∀ given, inv (m.make given) ∧ abs (m.make given) = spec.make (content given)
  ask : ∀ p request, inv p → inv (m.ask p request).2
    ∧ shown (m.ask p request).1 = (spec.ask (abs p) request).1
    ∧ abs (m.ask p request).2 = (spec.ask (abs p) request).2

section Refines

variable {m : Machine P β ρ α} {spec : Machine Q γ ρ ω} {inv : P → Prop} {abs : P → Q} {content : β → γ}
  {shown : α → ω}

theorem abs_update {slots : Nat → P} {slot : Nat} {p : P} :
    (fun i => abs (update slots slot p i))
      = update (fun i => abs (slots i)) slot (abs p) := by
  funext i
  exact Function.apply_update (fun _ => abs) slots slot p i

theorem forall_update {slots : Nat → P} {slot : Nat} {p : P} (h : ∀ i, inv (slots i)) (hp : inv p) :
    ∀ i, inv (update slots slot p i) := by
  intro i
  rw [update_apply]
  split
  · exact hp
  · exact h i

/-- One step: what is true of every object stays so, and the answer and the slots are those of the other
    kind. -/
theorem Machine.Refines.perform (h : m.Refines spec inv abs content shown) {slots : Nat → P}
    (hinv : ∀ i, inv (slots i)) (action : Action β ρ) :
    (∀ i, inv ((m.perform slots action).2 i))
    ∧ (m.perform slots action).1.map shown
        = (spec.perform (fun i => abs (slots i)) (action.map content)).1
    ∧ (fun i => abs ((m.perform slots action).2 i))
        = (spec.perform (fun i => abs (slots i)) (action.map content)).2 := by
  cases action with
  | make slot given =>
    obtain ⟨hmade, habs⟩ := h.make given
    refine ⟨forall_update hinv hmade, rfl, ?_⟩
    exact abs_update.trans (by rw [habs]; rfl)
  | ask slot request =>
    obtain ⟨hkept, hshown, habs⟩ := h.ask (slots slot) request (hinv slot)
    refine ⟨forall_update hinv hkept, congrArg some hshown, ?_⟩
    exact abs_update.trans (by rw [habs]; rfl)
  | move target source =>
    unfold Machine.perform Action.map
    dsimp only
    by_cases hsame : target = source
    · rw [if_pos hsame, if_pos hsame]
      exact ⟨hinv, rfl, rfl⟩
    · rw [if_neg hsame, if_neg hsame]
      refine ⟨forall_update (forall_update hinv (hinv source)) h.blank.1, rfl, ?_⟩
      dsimp only
      rw [abs_update, abs_update, h.blank.2]

/-- **A run** answers as the run of the other kind does, and keeps what is true of every object. -/
theorem Machine.Refines.run (h : m.Refines spec inv abs content shown) (actions : List (Action β ρ)) :
    (∀ i, inv ((m.run actions).2 i))
    ∧ (m.run actions).1.map (Option.map shown) = (spec.run (actions.map (Action.map content))).1
    ∧ (fun i => abs ((m.run actions).2 i)) = (spec.run (actions.map (Action.map content))).2 := by
  induction actions using List.reverseRecOn with
  | nil => exact ⟨fun _ => h.blank.1, rfl, funext fun _ => h.blank.2⟩
  | append_singleton actions action ih =>
    obtain ⟨hinv, hanswers, hslots⟩ := ih
    obtain ⟨hkept, hanswer, hafter⟩ := h.perform hinv action
    rw [List.map_append, List.map_singleton, Machine.run_concat, Machine.run_concat, ← hslots]
    refine ⟨hkept, ?_, hafter⟩
    rw [List.map_append, hanswers, List.map_singleton, hanswer]

end Refines

end KwaqueStorage.Lib.Slots
