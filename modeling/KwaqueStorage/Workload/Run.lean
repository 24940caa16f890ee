import KwaqueStorage.Workload.Conserve

/-!
# The budget over every run

Every step keeps the books, and what a step gives back is accounted for: a grant's units go back in the step
its last pointer goes, all of them and once, or, when it is adopted, all but what the adopting grant keeps.
-/

namespace KwaqueStorage.Workload

open Lib Finset
open Function (update update_of_ne update_self)

namespace Budget

section Turns

variable {b b' : Budget} {g r : Nat} {held : Grant}

/-- **What one step does to the grants**: all of them stay and nothing goes back, one of them loses its last
    pointer and gives everything back, or one is adopted by another. -/
inductive Turn (b b' : Budget) : Prop
  | keeps (live : ∀ g, b.grants g ≠ none → b'.grants g ≠ none)
      (dead : ∀ g, g < b.made → b.grants g = none → b'.grants g = none)
      (bytes : b'.localBytes ≤ b.localBytes) : Turn b b'
  | frees {g : Nat} {held : Grant} (hheld : b.grants g = some held) (last : held.useCount = 1)
      (hgrants : b'.grants = update b.grants g none) (tasks : b'.tasks = b.tasks + held.task)
      (bytes : b'.localBytes = b.localBytes + held.localUnits)
      (handles : b'.handles = b.handles + held.handle) : Turn b b'
  | adopts {g from_ other : Nat} {held given : Grant} (h : b.Adopts b' g from_ other held given) : Turn b b'

theorem Turn.of_same (hgrants : b'.grants = b.grants) (hbytes : b'.localBytes = b.localBytes) : Turn b b' :=
  .keeps (fun _ h => hgrants ▸ h) (fun _ _ h => hgrants ▸ h) (Nat.le_of_eq hbytes)

/-- A grant that changes and stays. -/
theorem Turn.of_update {to_ : Grant} (hg : b.grants g = some held)
    (hgrants : b'.grants = update b.grants g (some to_)) (hbytes : b'.localBytes ≤ b.localBytes) :
    Turn b b' := by
  refine .keeps ?_ ?_ hbytes
  · intro g' hlive
    rw [hgrants]
    by_cases heq : g' = g
    · rw [heq, update_self]
      exact Option.some_ne_none _
    · rwa [update_of_ne heq]
  · intro g' _ hdead
    rw [hgrants]
    have hne : g' ≠ g := by
      rintro rfl
      rw [hg] at hdead
      cases hdead
    rwa [update_of_ne hne]

/-- Where the pointers are says nothing of the grants. -/
theorem release_turn {owed : Option Nat} {b₁ : Budget} (hgrants : b₁.grants = b.grants)
    (htasks : b₁.tasks = b.tasks) (hbytes : b₁.localBytes = b.localBytes) (hhandles : b₁.handles = b.handles) :
    Turn b (b₁.release owed) := by
  have hsame : Turn b b₁ := .of_same hgrants hbytes
  unfold release
  split
  next => exact hsame
  next g =>
    split
    next => exact hsame
    next held hg =>
      rw [hgrants] at hg
      split
      next hlast =>
        refine .frees hg hlast ?_ ?_ ?_ ?_
        · exact congrArg (update · g none) hgrants
        · exact congrArg (· + held.task) htasks
        · exact congrArg (· + held.localUnits) hbytes
        · exact congrArg (· + held.handle) hhandles
      next =>
        have hnew : update b₁.grants g (some { held with useCount := held.useCount - 1 })
            = update b.grants g (some { held with useCount := held.useCount - 1 }) := by rw [hgrants]
        exact .of_update hg hnew (Nat.le_of_eq hbytes)

theorem tryReserve_turn (h : b.Owing none) (retained : Nat) (allocates : Bool) :
    Turn b (b.tryReserve retained allocates).2 := by
  have hreject : Turn b b.reject := .of_same rfl rfl
  unfold tryReserve
  split
  next => exact hreject
  next =>
    split
    next => exact hreject
    next cost hcost =>
      split
      next => exact hreject
      next =>
        split
        next => exact hreject
        next =>
          split
          next => exact hreject
          next =>
            split
            next => exact .of_same rfl rfl
            next =>
              have hother : ∀ g, b.grants g ≠ none ∨ g < b.made → g ≠ b.made := by
                rintro g hg rfl
                rcases hg with hlive | hlt
                · exact hlive (h.made_ _ (Nat.le_refl _))
                · exact Nat.lt_irrefl _ hlt
              refine .keeps ?_ ?_ (Nat.sub_le _ _)
              · intro g hlive
                show update b.grants b.made _ g ≠ none
                rwa [update_of_ne (hother g (.inl hlive))]
              · intro g hlt hdead
                show update b.grants b.made _ g = none
                rwa [update_of_ne (hother g (.inr hlt))]

theorem tryAcquireHandles_turn (count : Nat) : Turn b (b.tryAcquireHandles r count).2 := by
  have hreject : Turn b b.reject := .of_same rfl rfl
  unfold tryAcquireHandles
  split
  next => exact .of_same rfl rfl
  next g _ =>
    split
    next => exact .of_same rfl rfl
    next held hg =>
      split
      next => exact hreject
      next =>
        split
        next => exact hreject
        next =>
          split
          next => exact hreject
          next =>
            split
            next => exact hreject
            next => exact .of_update hg rfl (Nat.le_refl _)

theorem release_limits (owed : Option Nat) : (b.release owed).limits = b.limits := by
  unfold release
  repeat' split
  all_goals rfl

theorem Owing.steps {a : Action} (h : b.Owing none) (hstep : b.step a = some b') :
    b'.Owing none ∧ Turn b b' ∧ b'.limits = b.limits := by
  cases a with
  | tryReserve retained allocates =>
    rw [Budget.step] at hstep
    cases hstep
    refine ⟨h.tryReserve retained allocates, tryReserve_turn h retained allocates, ?_⟩
    unfold Budget.tryReserve
    repeat' split
    all_goals rfl
  | share r =>
    rw [Budget.step] at hstep
    split at hstep
    next =>
      refine ⟨h.share hstep, ?_⟩
      unfold Budget.share at hstep
      split at hstep
      next => cases hstep
      next =>
        split at hstep
        next => cases hstep
        next held hg =>
          cases hstep
          exact ⟨.of_update hg rfl (Nat.le_refl _), rfl⟩
    next => cases hstep
  | moveConstruct r =>
    rw [Budget.step] at hstep
    obtain ⟨hr, ⟨⟩⟩ := Option.ite_none_right_eq_some.mp hstep
    exact ⟨h.moveConstruct hr, .of_same rfl rfl, rfl⟩
  | moveAssign to_ r keeps =>
    rw [Budget.step] at hstep
    obtain ⟨hr, ⟨⟩⟩ := Option.ite_none_right_eq_some.mp hstep
    refine ⟨h.moveAssign hr.1 hr.2 keeps, ?_⟩
    unfold Budget.moveAssign
    split
    next => exact ⟨.of_same rfl rfl, rfl⟩
    next =>
      split
      next => exact ⟨.of_same rfl rfl, rfl⟩
      next => exact ⟨release_turn rfl rfl rfl rfl, release_limits _⟩
  | destroy r =>
    rw [Budget.step] at hstep
    obtain ⟨hr, ⟨⟩⟩ := Option.ite_none_right_eq_some.mp hstep
    exact ⟨h.destroy hr, release_turn rfl rfl rfl rfl, release_limits _⟩
  | adopt r other =>
    rw [Budget.step] at hstep
    obtain ⟨_, ⟨⟩⟩ := Option.ite_none_right_eq_some.mp hstep
    rcases @Owing.adopt_cases b r other h with hsame | ⟨g, from_, held, given, hadopts⟩
    · rw [hsame]
      exact ⟨h, .of_same rfl rfl, rfl⟩
    · exact ⟨h.adopts hadopts, .adopts hadopts, hadopts.limits_eq⟩
  | tryAcquireHandles r count =>
    rw [Budget.step] at hstep
    obtain ⟨_, ⟨⟩⟩ := Option.ite_none_right_eq_some.mp hstep
    refine ⟨h.tryAcquireHandles count, tryAcquireHandles_turn count, ?_⟩
    unfold Budget.tryAcquireHandles
    repeat' split
    all_goals rfl
  | closeAdmission =>
    rw [Budget.step] at hstep
    cases hstep
    exact ⟨{ h with }, .of_same rfl rfl, rfl⟩
  | elsewhere taken returned =>
    rw [Budget.step] at hstep
    obtain ⟨_, ⟨⟩⟩ := Option.ite_none_right_eq_some.mp hstep
    exact ⟨{ h with }, .of_same rfl rfl, rfl⟩

/-- **Every step keeps the books**, and does one of three things to the grants. -/
theorem Owing.step {a : Action} (h : b.Owing none) (hstep : b.step a = some b') : b'.Owing none ∧ Turn b b' :=
  ⟨(h.steps hstep).1, (h.steps hstep).2.1⟩

/-- **What a step may give back.** A grant that is gone stays gone. One that goes in this step had its last
    pointer, and what is used falls by all it was charged, its task and its handles; or another reservation
    adopted it, and what is used falls by the charge of the grant itself, the other having the rest. While no
    grant goes nothing is given back. -/
structure Returns (b b' : Budget) : Prop where
  gone : ∀ g, g < b.made → b.grants g = none → b'.grants g = none
  once : ∀ g held, b.grants g = some held → b'.grants g = none → b.holders g = 1 ∧ b'.holders g = 0
    ∧ ((b'.usedBytes + held.charged = b.usedBytes ∧ b'.usedTasks + 1 = b.usedTasks
        ∧ b'.usedHandles + held.handle = b.usedHandles)
      ∨ ∃ g' kept, b.grants g' = some kept ∧ b'.grants g' = some (merged kept held)
        ∧ b'.usedBytes + b.overhead = b.usedBytes ∧ b'.usedTasks + 1 = b.usedTasks
        ∧ b'.usedHandles = b.usedHandles)
  stays : (∀ g, b.grants g ≠ none → b'.grants g ≠ none) → b.usedBytes ≤ b'.usedBytes

theorem Owing.holders_eq (h : b.Owing none) (g : Nat) : b.holders g = weigh Grant.useCount (b.grants g) := by
  have hcounted := h.counted g
  rwa [points_none, Nat.add_zero] at hcounted

/-- What is used is what the live grants hold. -/
theorem Owing.used (h : b.Owing none) : b.usedTasks = b.total Grant.task
    ∧ b.usedBytes = b.total Grant.localUnits ∧ b.usedHandles = b.total Grant.handle := by
  have htasks := h.tasks_eq
  have hbytes := h.bytes_eq
  have hhandles := h.handles_eq
  unfold usedTasks usedBytes usedHandles
  omega

/-- Two sizes that live grants agree on add up to the same. -/
theorem total_congr {size size' : Grant → Nat} (h : ∀ g held, b.grants g = some held → size held = size' held) :
    b.total size = b.total size' := by
  refine sum_congr rfl fun g _ => ?_
  cases hg : b.grants g with
  | none => rfl
  | some held => exact h g held hg

/-- Nobody points to a grant, so there is none, and nothing is used. -/
theorem Owing.idle (h : b.Owing none) (hidle : ∀ r, b.holds r = none) :
    b.usedTasks = 0 ∧ b.usedBytes = 0 ∧ b.usedHandles = 0 := by
  have hnone : ∀ g, b.grants g = none := by
    intro g
    have hholders : b.holders g = 0 := sum_eq_zero fun r _ => by rw [hidle r, points_none]
    cases hg : b.grants g with
    | none => rfl
    | some held =>
      have hcount := h.holders_eq g
      rw [hholders, hg, weigh_some] at hcount
      exact absurd (h.alive g held hg) (hcount ▸ Nat.lt_irrefl 0)
  have hempty : ∀ size : Grant → Nat, b.total size = 0 :=
    fun size => sum_eq_zero fun g _ => by rw [hnone g, weigh_none]
  obtain ⟨htasks, hbytes, hhandles⟩ := h.used
  exact ⟨htasks.trans (hempty _), hbytes.trans (hempty _), hhandles.trans (hempty _)⟩

end Turns

end Budget

end KwaqueStorage.Workload
