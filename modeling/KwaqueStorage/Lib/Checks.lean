import Mathlib

/-!
# Chains of checks

A decoder or an admission is a chain of checks, each of which ends it with its own error. These are
the words such a chain is written in and the rules that turn one which passed into what it checked.
-/

namespace KwaqueStorage.Lib

variable {ε α β : Type} {x : Except ε α} {f : α → Except ε β} {a a' : α} {b : β} {e : ε}

/-- One check: the chain goes on if it holds. -/
def require (p : Prop) [Decidable p] (e : ε) : Except ε Unit := if p then .ok () else .error e

/-- A chain passes when its head does and the rest passes after it. -/
theorem bind_eq_ok : (x >>= f) = .ok b ↔ ∃ a, x = .ok a ∧ f a = .ok b := by
  cases x with
  | error e =>
    constructor
    · exact nofun
    · rintro ⟨a, h, _⟩
      cases h
  | ok a =>
    constructor
    · intro h
      exact ⟨a, rfl, h⟩
    · rintro ⟨a', h, hf⟩
      cases h
      exact hf

theorem require_eq_ok {p : Prop} [Decidable p] {u : Unit} : require p e = .ok u ↔ p := by
  unfold require
  by_cases hp : p
  · rw [if_pos hp]
    exact iff_of_true rfl hp
  · rw [if_neg hp]
    exact iff_of_false nofun hp

/-- What an optional value leaves to be checked: that it is there. -/
def expect (x : Option α) (e : ε) : Except ε α :=
  match x with
  | some a => .ok a
  | none => .error e

theorem expect_eq_ok {x : Option α} : expect x e = .ok a ↔ x = some a := by
  cases x with
  | none => exact iff_of_false nofun nofun
  | some a' =>
    constructor
    · intro h
      cases h
      rfl
    · intro h
      cases h
      rfl

theorem toOption_eq_some : x.toOption = some a ↔ x = .ok a := by
  cases x with
  | error e => exact iff_of_false nofun nofun
  | ok a' =>
    constructor
    · intro h
      cases h
      rfl
    · intro h
      cases h
      rfl

theorem mapError_eq_ok {ε' : Type} {g : ε → ε'} : x.mapError g = .ok a ↔ x = .ok a := by
  cases x with
  | error e => exact iff_of_false nofun nofun
  | ok a' =>
    constructor
    · intro h
      cases h
      rfl
    · intro h
      cases h
      rfl

theorem pure_eq_ok : (pure a : Except ε α) = .ok a' ↔ a = a' := by
  constructor
  · intro h
    cases h
    rfl
  · rintro rfl
    rfl

/-- A check made for each value of a list passes when it does for every one of them. -/
theorem mapM_eq_ok {g : α → Except ε β} : ∀ {l : List α} {l' : List β},
    l.mapM g = .ok l' ↔ List.Forall₂ (fun a b => g a = .ok b) l l'
  | [], l' => by
    rw [List.mapM_nil, pure_eq_ok, List.forall₂_nil_left_iff]
    exact eq_comm
  | a :: l, l' => by
    rw [List.mapM_cons, bind_eq_ok, List.forall₂_cons_left_iff]
    constructor
    · rintro ⟨b, hb, h⟩
      obtain ⟨bs, hbs, h⟩ := bind_eq_ok.mp h
      exact ⟨b, bs, hb, mapM_eq_ok.mp hbs, (pure_eq_ok.mp h).symm⟩
    · rintro ⟨b, bs, hb, hbs, rfl⟩
      exact ⟨b, hb, bind_eq_ok.mpr ⟨bs, mapM_eq_ok.mpr hbs, rfl⟩⟩

/-- A chain over a list whose checks can be exchanged ends the same way in every order. -/
theorem foldlM_perm {f : β → α → Except ε β} (hcomm : ∀ b x y, (f b x >>= (f · y)) = (f b y >>= (f · x)))
    {l l' : List α} (h : l.Perm l') : ∀ b, l.foldlM f b = l'.foldlM f b := by
  induction h with
  | nil => exact fun _ => rfl
  | cons x _ ih =>
    intro b
    rw [List.foldlM_cons, List.foldlM_cons]
    exact bind_congr ih
  | swap x y l =>
    intro b
    simp only [List.foldlM_cons]
    rw [← bind_assoc, ← bind_assoc, hcomm]
  | trans _ _ ih ih' => exact fun b => (ih b).trans (ih' b)

/-! ## Both ends of a chain -/

/-- What holds of a chain however it ends: `passed` of its value, `refused` of its error. -/
def Settles (x : Except ε α) (passed : α → Prop) (refused : ε → Prop) : Prop :=
  match x with
  | .ok a => passed a
  | .error e => refused e

section Settles

variable {passed passed' : α → Prop} {refused refused' : ε → Prop}

theorem Settles.of_ok (h : Settles x passed refused) (hx : x = .ok a) : passed a := by
  rw [hx] at h
  exact h

theorem Settles.of_error (h : Settles x passed refused) (hx : x = .error e) : refused e := by
  rw [hx] at h
  exact h

/-- A chain is settled by its head and, where that passes, by the rest after it. -/
theorem Settles.bind {passedRest : β → Prop} (h : Settles x passed refused)
    (hrest : ∀ a, passed a → Settles (f a) passedRest refused) : Settles (x >>= f) passedRest refused := by
  cases x with
  | error e => exact h
  | ok a => exact hrest a h

theorem Settles.require {p : Prop} [Decidable p] (h : ¬ p → refused e) :
    Settles (require p e) (fun _ => p) refused := by
  unfold Lib.require
  by_cases hp : p
  · rw [if_pos hp]
    exact hp
  · rw [if_neg hp]
    exact h hp

end Settles

end KwaqueStorage.Lib
