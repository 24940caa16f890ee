import KwaqueStorage.Append.Step

/-!
# The shape of a state

What every proof about the owner starts from: which branches a slot's file order holds and in
which order, how far it is passed, which group the formation lock holds, and what a group that
the WAL has not answered cannot have. None of it mentions a row, a result or a stream.

Most functions of the owner do not touch any of this. `State.shape` forgets everything else, so
"does not touch" is one equation, and `Shape.congr` carries the invariant across it.
-/

namespace KwaqueStorage.Append

open Lib
open Function (update)

/-! ## What the shape of a state is -/

/-- The part of a state that `Shape` reads. -/
def State.shape (s : State) : State :=
  { maximumRequests := 0
    slots :=
      { segment := s.slots.segment, order := s.slots.order, frontier := s.slots.frontier }
    attachments := s.attachments
    writers := fun segment => { reserved := (s.writers segment).reserved }
    table := .made 0
    branches :=
      { group := s.branches.group
        slot := s.branches.slot
        placement := s.branches.placement
        boundary := s.branches.boundary
        queued := s.branches.queued
        ready := s.branches.ready
        submitted := s.branches.submitted
        passed := s.branches.passed }
    branchCount := s.branchCount
    groups :=
      { branches := s.groups.branches
        walDecided := s.groups.walDecided
        walAccepted := s.groups.walAccepted
        walUnknown := s.groups.walUnknown
        walSettled := s.groups.walSettled }
    groupCount := s.groupCount
    formation := s.formation
    reserved := ⟨0, 0⟩
    recovered := ⟨0, 0⟩ }

/-- The group that holds the formation lock. -/
def Formation.group? : Formation → Option Nat
  | .idle => none
  | .freezing g _ | .offering g | .deciding g => some g

/-- The branches the formation has still to freeze. -/
def Formation.left : Formation → List Nat
  | .freezing _ left => left
  | _ => []

/-- **The shape invariant.** -/
structure Shape (s : State) : Prop where
  slot_fresh : ∀ σ, s.attachments ≤ σ → s.slots.order σ = [] ∧ s.slots.frontier σ = 0
  branch_fresh : ∀ b, s.branchCount ≤ b → s.branches.queued b = false
  group_fresh : ∀ g, s.groupCount ≤ g → s.groups.branches g = [] ∧ s.groups.walDecided g = false
  branch_slot : ∀ b < s.branchCount, s.branches.slot b < s.attachments
  /-- A slot's file order holds exactly its frozen branches, by where they end. -/
  mem_order : ∀ σ b, b ∈ s.slots.order σ ↔ s.branches.queued b = true ∧ s.branches.slot b = σ
  sorted : ∀ σ, (s.slots.order σ).Pairwise fun a b => s.endOf a < s.endOf b
  end_le : ∀ σ, ∀ b ∈ s.slots.order σ, s.endOf b ≤ (s.writers (s.slots.segment σ)).reserved
  /-- Passed is a prefix of it. -/
  frontier_le : ∀ σ, s.slots.frontier σ ≤ (s.slots.order σ).length
  passed_iff : ∀ σ k b, (s.slots.order σ)[k]? = some b →
    (s.branches.passed b = true ↔ k < s.slots.frontier σ)
  ready_of_passed : ∀ b, s.branches.passed b = true → s.branches.ready b = true
  ready_of_submitted : ∀ b, s.branches.submitted b = true → s.branches.ready b = true
  queued_of_ready : ∀ b, s.branches.ready b = true → s.branches.queued b = true
  /-- Groups and their branches. -/
  branch_group : ∀ b < s.branchCount, s.branches.group b < s.groupCount ∧
    b ∈ s.groups.branches (s.branches.group b)
  mem_group : ∀ g, ∀ b ∈ s.groups.branches g, b < s.branchCount ∧ s.branches.group b = g
  group_nodup : ∀ g, (s.groups.branches g).Nodup
  /-- Exactly the group that holds the lock is undecided. -/
  undecided_iff : ∀ g < s.groupCount,
    (s.groups.walDecided g = false ↔ s.formation.group? = some g)
  formation_lt : ∀ g, s.formation.group? = some g → g < s.groupCount
  undecided : ∀ g, s.groups.walDecided g = false →
    s.groups.walAccepted g = false ∧ s.groups.walUnknown g = false ∧ s.groups.walSettled g = false
  /-- The branches left to freeze are the last of their group, and not frozen. -/
  left_suffix : ∀ g, s.formation.group? = some g → s.formation.left <:+ s.groups.branches g
  left_unqueued : ∀ b ∈ s.formation.left, s.branches.queued b = false
  /-- A WAL-placed branch is ready once the WAL answered, and submitted once it accepted. -/
  decided_of_ready : ∀ b, s.branches.placement b = .wal → s.branches.ready b = true →
    s.groups.walDecided (s.branches.group b) = true
  accepted_of_submitted : ∀ b, s.branches.placement b = .wal → s.branches.submitted b = true →
    s.groups.walAccepted (s.branches.group b) = true

namespace Shape

variable {s s' : State}

theorem congr (hs : Shape s) (h : s'.shape = s.shape) : Shape s' := by
  have h₁ : Shape s.shape := { hs with }
  rw [← h] at h₁
  exact { h₁ with }

theorem queued_lt (hs : Shape s) {b : Nat} (h : s.branches.queued b = true) :
    b < s.branchCount := by
  by_contra hb
  rw [hs.branch_fresh b (by omega)] at h
  exact absurd h (by simp)

end Shape

/-! ## What leaves a state alone

The owner's functions fall into families that write disjoint fields. `State.core` forgets what
acceptance and publication write, `State.rowless` what the obligation rows are; a function that
only writes the one or the other is one equation between the two states that are left. -/

namespace State

/-- A state without its requests: what acceptance and publication leave alone. -/
def core (s : State) : State :=
  { s with
    maximumRequests := 0
    items := {}
    itemCount := 0
    forming := []
    requests := 0
    waiting := []
    accepting := none
    installed := []
    fired := []
    branches.published := fun _ => false
    groups.remaining := fun _ => 0
    slots.retry := fun _ => { depth := 0 }
    slots.forming := fun _ => 0
    slots.groups := fun _ => 0
    slots.cursor := fun _ => 0
    slots.head := fun _ => 0
    slots.reported := fun _ => none
    slots.broken := fun _ => false
    slots.brokenFailure := fun _ => none }

/-- A state without its obligation rows. -/
def rowless (s : State) : State :=
  { s with
    table := .made 0
    branches.row := fun _ => none
    branches.obliged := fun _ => false
    slots.row := fun _ => none }

variable {s t : State}

theorem shape_of_core (h : s.core = t.core) : s.shape = t.shape := by
  have := congrArg shape h
  exact this

theorem shape_of_rowless (h : s.rowless = t.rowless) : s.shape = t.shape := by
  have := congrArg shape h
  exact this

/-- A fold of steps that leave a view of the state alone leaves it alone. -/
theorem view_foldl {α : Type*} {v : State → α} {f : State → Nat → State}
    (h : ∀ t b, v (f t b) = v t) (l : List Nat) : v (l.foldl f s) = v s := by
  induction l generalizing s with
  | nil => rfl
  | cons b rest ih => rw [List.foldl_cons, ih, h]

/-! ### Publication -/

theorem core_installAll {value : Outcome} {l : List Nat} :
    (s.installAll value l).core = s.core := by
  induction l generalizing s with
  | nil => rfl
  | cons i rest ih => rw [installAll, ih]; rfl

theorem core_addFacts {σ : Nat} {l : List Nat} : (s.addFacts σ l).core = s.core := by
  induction l generalizing s with
  | nil => rfl
  | cons i rest ih => rw [addFacts, ih]; rfl

theorem core_publishBranch {b : Nat} {v : Verdict} :
    (s.publishBranch b v).core = s.core := by
  unfold publishBranch
  dsimp only
  split
  · split
    · exact core_addFacts.trans core_installAll
    · exact core_installAll
  · exact core_installAll

theorem core_publishFrom {σ : Nat} {l : List Nat} : (s.publishFrom σ l).core = s.core := by
  induction l generalizing s with
  | nil => rfl
  | cons b rest ih =>
    rw [publishFrom]
    split
    · rfl
    · split
      · rfl
      · rw [ih, core_publishBranch]; rfl

theorem core_letGo {σ : Nat} {l : List Nat} : (s.letGo σ l).core = s.core := by
  induction l generalizing s with
  | nil => rfl
  | cons b rest ih =>
    rw [letGo]
    split
    · rw [ih]; rfl
    · rfl

theorem core_publishReady {σ : Nat} : (s.publishReady σ).core = s.core := by
  rw [publishReady, core_letGo, core_publishFrom]

theorem core_publishUnfrozen {b : Nat} : (s.publishUnfrozen b).core = s.core := by
  unfold publishUnfrozen
  split
  · rfl
  · exact core_publishBranch

theorem core_publishUnqueued {b : Nat} : (s.publishUnqueued b).core = s.core := by
  unfold publishUnqueued
  split
  · rfl
  · exact core_publishUnfrozen

theorem core_publishQueued {b : Nat} : (s.publishQueued b).core = s.core := by
  unfold publishQueued
  split
  · exact core_publishReady
  · rfl

/-! ### Acceptance -/

theorem core_frozeItems {σ : Nat} {l : List Nat} : (s.frozeItems σ l).core = s.core := by
  induction l generalizing s with
  | nil => rfl
  | cons i rest ih => rw [frozeItems, ih]; rfl

theorem core_join {r : Request} {answer : JoinAnswer} : (s.join r answer).core = s.core := by
  unfold join
  split
  · rfl
  · split
    · rfl
    · cases answer with
      | fits => rfl
      | full => dsimp only; split <;> rfl
      | rejected => rfl

theorem core_tryJoin {r : Request} {answer : JoinAnswer} :
    (s.tryJoin r answer).core = s.core := by
  unfold tryJoin
  split
  · rfl
  · split
    · rfl
    · split
      · rfl
      · exact core_join

theorem core_admitRequest {r : Request} {budget : Bool} {answer : JoinAnswer} :
    (s.admitRequest r budget answer).core = s.core := by
  unfold admitRequest
  dsimp only
  split
  · rfl
  · split
    · exact core_tryJoin
    · rfl
    · rfl

theorem core_dropForming {failure : Errc} {failing : Nat → Bool} :
    (s.dropForming failure failing).core = s.core := core_installAll

/-! ### Rows -/

theorem rowless_unreserve {b : Nat} : (s.unreserve b).rowless = s.rowless := by
  unfold unreserve
  split <;> rfl

theorem rowless_obligeBranch {b : Nat} : (s.obligeBranch b).rowless = s.rowless := by
  unfold obligeBranch
  dsimp only
  split
  · rfl
  · split
    · rfl
    · exact rowless_unreserve

theorem rowless_pinBranch {b : Nat} : (s.pinBranch b).rowless = s.rowless := by
  unfold pinBranch
  dsimp only
  split
  · rfl
  · split
    · rfl
    · exact rowless_unreserve

theorem rowless_passDropped {b : Nat} : (s.passDropped b).rowless = s.rowless := by
  unfold passDropped
  dsimp only
  split <;> rfl

theorem rowless_reserveRows {chosen : List (Nat × Placement)} :
    (s.reserveRows chosen).2.1.rowless = s.rowless := by
  induction chosen generalizing s with
  | nil => rfl
  | cons c rest ih =>
    obtain ⟨σ, placement⟩ := c
    cases placement with
    | segment => exact ih
    | wal =>
      rw [reserveRows]
      dsimp only
      split
      · rfl
      · exact ih

theorem rowless_unreserveRows {rows : List (Option Nat)} :
    (s.unreserveRows rows).rowless = s.rowless := by
  induction rows generalizing s with
  | nil => rfl
  | cons row rest ih =>
    cases row with
    | none => exact ih
    | some i => rw [unreserveRows, ih]; rfl

/-! ### Cuts -/

theorem shape_promoteClosing {σ : Nat} : (s.promoteClosing σ).shape = s.shape := by
  unfold promoteClosing
  split
  · rfl
  · split <;> rfl

theorem shape_passSubmitted {σ b : Nat} : (s.passSubmitted σ b).shape = s.shape := by
  have hcount : ∀ t : State, (t.countPassed σ b).shape = t.shape := by
    intro t
    unfold countPassed
    dsimp only
    split <;> rfl
  unfold passSubmitted
  dsimp only
  split <;> exact hcount _

/-- What a turn of `mark_ready`'s loop does to the shape. -/
theorem shape_pass {σ b : Nat} : (s.pass σ b).shape = ({ s with
    slots.frontier := update s.slots.frontier σ (s.slots.frontier σ + 1)
    branches.passed := update s.branches.passed b true } : State).shape := by
  unfold pass
  dsimp only
  split
  · exact shape_passSubmitted
  · exact shape_of_rowless rowless_passDropped

end State
end KwaqueStorage.Append
