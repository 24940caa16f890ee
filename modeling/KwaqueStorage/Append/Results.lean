import KwaqueStorage.Append.Cuts
import KwaqueStorage.Lib.Count

/-!
# Results

What the owner tells its callers: which accepted requests have an outcome, in which order the
outcomes were installed, and what each one rests on.

An accepted request is forming, or a member of one branch. A branch is published as a whole: a
frozen one when its slot's cursor passes it, so the published ones are a prefix of the file
order; one that never froze when its group is decided. `installed` is the history of the
installations, and `Results.installed_order` says it is, slot by slot, the file order up to the
cursor.

Inside a decision the branches that never froze are published one after another; `due` are the
ones still to come. Between actions none is due.
-/

namespace KwaqueStorage.Append

open Lib
open Function (update update_apply update_self)

/-- The invariants publication can break. -/
def Invariant.ofResults : Invariant → Bool
  | .publishOnce | .verdict _ => true
  | _ => false

/-- The part of a state that `Results` reads. -/
def State.results (s : State) : State :=
  { maximumRequests := 0
    slots :=
      { order := s.slots.order
        head := s.slots.head
        cursor := s.slots.cursor
        receipt := s.slots.receipt
        broken := s.slots.broken }
    writers := fun _ => {}
    table := .made 0
    items := { slot := s.items.slot, branch := s.items.branch, outcome := s.items.outcome }
    itemCount := s.itemCount
    forming := s.forming
    branches :=
      { group := s.branches.group
        slot := s.branches.slot
        placement := s.branches.placement
        items := s.branches.items
        boundary := s.branches.boundary
        queued := s.branches.queued
        ready := s.branches.ready
        submitted := s.branches.submitted
        published := s.branches.published }
    branchCount := s.branchCount
    groups :=
      { branches := s.groups.branches
        walFailure := s.groups.walFailure
        walReceipt := s.groups.walReceipt
        walDecided := s.groups.walDecided
        walAccepted := s.groups.walAccepted
        walUnknown := s.groups.walUnknown
        walSettled := s.groups.walSettled
        remaining := s.groups.remaining
        released := s.groups.released }
    reserved := ⟨0, 0⟩
    recovered := ⟨0, 0⟩
    installed := s.installed
    fired := s.fired.filter Invariant.ofResults }

/-- What a durable outcome rests on: the WAL's receipt, or a segment barrier's that reaches
    the group's end. -/
def DurableBy (s : State) (b : Nat) : Prop :=
  s.branches.placement b = .wal ∧ s.groups.walSettled (s.branches.group b) = true
      ∧ (s.groups.walReceipt (s.branches.group b)).isSome = true
      ∧ s.groups.walFailure (s.branches.group b) = none
    ∨ ∃ cut, s.slots.receipt (s.branches.slot b) = some cut ∧ s.endOf b ≤ cut.endBytes

/-- Why a branch was never written: it did not freeze, or it was dropped and the WAL refused
    it or was never offered it. -/
def UnwrittenBy (s : State) (b : Nat) : Prop :=
  s.branches.queued b = false ∧ s.groups.walDecided (s.branches.group b) = true ∨
    s.branches.ready b = true ∧ s.branches.submitted b = false ∧
      (s.branches.placement b = .segment ∨
        s.groups.walDecided (s.branches.group b) = true
          ∧ s.groups.walAccepted (s.branches.group b) = false
          ∧ s.groups.walUnknown (s.branches.group b) = false)

/-- What an outcome of a branch's members rests on. -/
def Grounded (s : State) (b : Nat) : Status → Prop
  | .durable => s.branches.queued b = true ∧ DurableBy s b
  | .notWritten => UnwrittenBy s b
  | .uncertain => s.branches.queued b = true

/-- The group is done with the branch: let go by its slot, or published without a place in it. -/
def finished (s : State) (b : Nat) : Bool :=
  if s.branches.queued b then
    decide ((s.slots.order (s.branches.slot b)).idxOf b < s.slots.head (s.branches.slot b))
  else s.branches.published b

/-- A member of a frozen branch of the slot. -/
def frozenIn (s : State) (σ i : Nat) : Bool :=
  (s.items.branch i).any fun b => s.branches.queued b && s.branches.slot b = σ

/-- **The result invariant**, while the branches `due` are to be published. -/
structure ResultsBut (due : List Nat) (s : State) : Prop where
  item_fresh : ∀ i, s.itemCount ≤ i → s.items.branch i = none ∧ s.items.outcome i = none
  forming_nodup : s.forming.Nodup
  /-- An accepted request without a branch and without an outcome is forming. -/
  mem_forming : ∀ i, i ∈ s.forming ↔
    i < s.itemCount ∧ s.items.branch i = none ∧ s.items.outcome i = none
  mem_items : ∀ b i, i ∈ s.branches.items b ↔ s.items.branch i = some b
  items_nodup : ∀ b, (s.branches.items b).Nodup
  branch_lt : ∀ i b, s.items.branch i = some b →
    b < s.branchCount ∧ s.items.slot i = s.branches.slot b
  published_lt : ∀ b, s.branches.published b = true → b < s.branchCount
  /-- A branch's members have their outcomes exactly when it is published. -/
  outcome_iff : ∀ i b, s.items.branch i = some b →
    (s.items.outcome i ≠ none ↔ s.branches.published b = true)
  /-- The published frozen branches of a slot are a prefix of its file order. -/
  cursor_le : ∀ σ, s.slots.cursor σ ≤ (s.slots.order σ).length
  published_iff : ∀ σ k b, (s.slots.order σ)[k]? = some b →
    (s.branches.published b = true ↔ k < s.slots.cursor σ)
  head_le : ∀ σ, s.slots.head σ ≤ s.slots.cursor σ
  /-- One that never froze is published once its group is decided. -/
  unqueued_published : ∀ b, s.branches.queued b = false → s.branches.published b = true →
    s.groups.walDecided (s.branches.group b) = true
  decided_published : ∀ b < s.branchCount, s.branches.queued b = false →
    s.groups.walDecided (s.branches.group b) = true → s.branches.published b = true ∨ b ∈ due
  /-- Each outcome was installed once, and a slot's in file order. -/
  installed_nodup : s.installed.Nodup
  mem_installed : ∀ i, i ∈ s.installed ↔ s.items.outcome i ≠ none
  installed_order : ∀ σ, s.installed.filter (frozenIn s σ)
    = ((s.slots.order σ).take (s.slots.cursor σ)).flatMap s.branches.items
  /-- Until a slot breaks, all its frozen branches were published durable. -/
  unbroken : ∀ i b o, s.items.branch i = some b → s.branches.queued b = true →
    s.slots.broken (s.branches.slot b) = false → s.items.outcome i = some o → o.status = .durable
  after_failure : ∀ (σ j k a b i i' : Nat) (o o' : Outcome), (s.slots.order σ)[j]? = some a →
    (s.slots.order σ)[k]? = some b → j < k → s.items.branch i = some a →
    s.items.branch i' = some b → s.items.outcome i = some o → s.items.outcome i' = some o' →
    o.status ≠ .durable → o'.status ≠ .durable
  unbranched : ∀ i o, s.items.branch i = none → s.items.outcome i = some o →
    o.status = .notWritten
  grounded : ∀ i b o, s.items.branch i = some b → s.items.outcome i = some o →
    Grounded s b o.status
  remaining : ∀ g, s.groups.remaining g = (s.groups.branches g).countP fun b => !finished s b
  /-- A group is released only when all its branches are published. -/
  released : ∀ g, s.groups.released g = true → s.groups.walDecided g = true ∧
    ∀ b ∈ s.groups.branches g, s.branches.published b = true
  unfired : s.fired.filter Invariant.ofResults = []

/-- The result invariant between actions. -/
abbrev Results : State → Prop := ResultsBut []

section

variable {s s' : State} {due : List Nat}

theorem ResultsBut.congr (hr : ResultsBut due s) (h : s'.results = s.results) :
    ResultsBut due s' := by
  have h₁ : ResultsBut due s.results :=
    { hr with unfired := by rw [← hr.unfired]; simp [State.results] }
  rw [← h] at h₁
  refine { h₁ with unfired := ?_ }
  simpa [State.results] using h₁.unfired

theorem results_of_rowless (h : s.rowless = s'.rowless) : s.results = s'.results := by
  have := congrArg State.results h
  exact this

end

/-! ## The verdict is always one of the table's -/

namespace Shape

variable {s : State}

/-- The owner never produces a combination the table calls impossible. -/
theorem possible (hs : Shape s) (b : Nat) :
    ¬ Impossible (s.branches.placement b) (s.walState b) (s.segmentState b) := by
  cases hq : s.branches.queued b with
  | false =>
    have hw : s.walState b = .none := by simp [State.walState, hq]
    have hg : s.segmentState b = .unfrozen := by simp [State.segmentState, hq]
    rw [hw, hg]
    cases s.branches.placement b <;> simp [Impossible]
  | true =>
    have hne : s.segmentState b ≠ .unfrozen := by
      simp only [State.segmentState, hq]
      repeat' split <;> simp_all
    cases hp : s.branches.placement b with
    | segment =>
      have hw : s.walState b = .none := by simp [State.walState, hp]
      rw [hw]
      cases s.segmentState b <;> simp [Impossible]
    | wal =>
      cases hd : s.groups.walDecided (s.branches.group b) with
      | false =>
        -- Not decided, so not ready: it is frozen and the WAL deciding.
        have hr : s.branches.ready b = false := by
          by_contra h
          rw [hs.decided_of_ready b hp (by simpa using h)] at hd
          cases hd
        have hw : s.walState b = .deciding := by simp [State.walState, hp, hq, hd]
        have hg : s.segmentState b = .frozen := by simp [State.segmentState, hq, hr]
        rw [hw, hg]
        simp [Impossible]
      | true =>
        cases ha : s.groups.walAccepted (s.branches.group b) with
        | true =>
          have hw : s.walState b = .pending ∨ s.walState b = .durable ∨ s.walState b = .failed := by
            simp only [State.walState, hp, hq, hd, ha]
            repeat' split <;> simp_all
          rcases hw with hw | hw | hw <;> rw [hw] <;>
            cases h : s.segmentState b <;> simp_all [Impossible]
        | false =>
          -- Not accepted, so not submitted: it is frozen or dropped.
          have hsub : s.branches.submitted b = false := by
            by_contra h
            rw [hs.accepted_of_submitted b hp (by simpa using h)] at ha
            cases ha
          have hg : s.segmentState b = .frozen ∨ s.segmentState b = .dropped := by
            simp only [State.segmentState, hq, hsub]
            repeat' split <;> simp_all
          have hw : s.walState b = .unknown ∨ s.walState b = .refused := by
            simp only [State.walState, hp, hq, hd, ha]
            repeat' split <;> simp_all
          rcases hw with hw | hw <;> rcases hg with hg | hg <;> rw [hw, hg] <;>
            simp [Impossible]

/-- So a branch's state always selects a row. -/
theorem verdictOf_ok (hs : Shape s) (b : Nat) :
    ∃ row ∈ verdictCases, s.verdictOf b = .ok row := classify_ok (hs.possible b)

end Shape

/-! ## One branch is published -/

namespace State

variable {s : State}

/-- A branch's members have their outcome. -/
def withOutcome (s : State) (b : Nat) (value : Outcome) : State :=
  { s with
    branches.published := update s.branches.published b true
    items.outcome := fun i => if i ∈ s.branches.items b then some value else s.items.outcome i
    installed := s.installed ++ s.branches.items b }

/-- Members without an outcome are installed without breaking the invariant. -/
theorem installAll_eq (value : Outcome) {l : List Nat} (hn : l.Nodup)
    (hnone : ∀ i ∈ l, s.items.outcome i = none) :
    s.installAll value l = { s with
      items.outcome := fun i => if i ∈ l then some value else s.items.outcome i
      installed := s.installed ++ l
      requests := s.requests - l.length } := by
  induction l generalizing s with
  | nil => simp [installAll]
  | cons i rest ih =>
    obtain ⟨hi, hrest⟩ := List.nodup_cons.mp hn
    have hone : s.install i value = { s with
        items.outcome := update s.items.outcome i (some value)
        installed := s.installed ++ [i]
        requests := s.requests - 1 } := by
      simp [install, check, hnone i (by simp)]
    rw [installAll, hone, ih hrest]
    · have houtcome : (fun j => if j ∈ rest then some value
          else update s.items.outcome i (some value) j)
          = fun j => if j ∈ i :: rest then some value else s.items.outcome j := by
        funext j
        by_cases hj : j = i
        · subst hj; simp
        · simp [hj]
      simp only [houtcome, List.append_assoc, List.singleton_append, List.length_cons,
        Nat.sub_sub, Nat.add_comm 1]
    · intro j hj
      have hne : j ≠ i := fun h => hi (h ▸ hj)
      simpa [hne] using hnone j (List.mem_cons_of_mem i hj)

theorem results_addFacts {σ : Nat} {l : List Nat} : (s.addFacts σ l).results = s.results := by
  induction l generalizing s with
  | nil => rfl
  | cons i rest ih =>
    rw [addFacts, ih]
    simp only [check, results]
    split
    · rfl
    · simp [Invariant.ofResults]

/-- What publishing a branch does to the results. -/
theorem results_publishBranch {b : Nat} (verdict : Verdict) (hn : (s.branches.items b).Nodup)
    (hnone : ∀ i ∈ s.branches.items b, s.items.outcome i = none) :
    (s.publishBranch b verdict).results
      = ({ s.withOutcome b (s.outcomeOf b verdict (s.failureOf b verdict)) with
          slots.broken :=
            if s.branches.queued b ∧ verdict ≠ .durable then
              update s.slots.broken (s.branches.slot b) true
            else s.slots.broken } : State).results := by
  have heq := installAll_eq (s := { s with
    branches.published := update s.branches.published b true })
    (s.outcomeOf b verdict (s.failureOf b verdict)) hn hnone
  simp only [publishBranch, heq]
  by_cases hq : s.branches.queued b = true
  · by_cases hv : verdict = .durable
    · simp only [hq, hv, if_true, ne_eq, not_true_eq_false, and_false, if_false, report]
      exact results_addFacts
    · simp only [hq, hv, if_true, if_false, ne_eq, not_false_eq_true, and_self, breakSlot]
      rfl
  · simp only [hq]
    rfl

end State

namespace ResultsBut

variable {s : State} {due : List Nat}

/-- The members of an unpublished branch have no outcome yet. -/
theorem no_outcome (hr : ResultsBut due s) {b i : Nat} (hb : s.branches.published b = false)
    (hi : i ∈ s.branches.items b) : s.items.outcome i = none := by
  by_contra h
  rw [(hr.outcome_iff i b ((hr.mem_items b i).mp hi)).mp h] at hb
  cases hb

/-- What is common to publishing a frozen and an unfrozen branch. -/
structure Publishing (due due' : List Nat) (s : State) (b : Nat) (value : Outcome) : Prop where
  results : ResultsBut due s
  lt : b < s.branchCount
  unpublished : s.branches.published b = false
  grounded : Grounded s b value.status
  due_sub : ∀ a ∈ due, a = b ∨ a ∈ due'

namespace Publishing

variable {due' : List Nat} {b : Nat} {value : Outcome}

theorem not_installed (hp : Publishing due due' s b value) {i : Nat}
    (hi : i ∈ s.branches.items b) : i ∉ s.installed := by
  rw [hp.results.mem_installed, hp.results.no_outcome hp.unpublished hi]
  simp

/-- An item with an outcome after is a member of the branch, or had it before. -/
theorem outcome_cases (hp : Publishing due due' s b value) {i a : Nat} {o : Outcome}
    (ha : s.items.branch i = some a)
    (ho : (s.withOutcome b value).items.outcome i = some o) :
    a = b ∧ o = value ∨ a ≠ b ∧ s.items.outcome i = some o := by
  simp only [State.withOutcome] at ho
  split at ho
  · next hi =>
    have := (hp.results.mem_items b i).mp hi
    exact .inl ⟨Option.some.inj (ha.symm.trans this), (Option.some.inj ho).symm⟩
  · next hi =>
    refine .inr ⟨?_, ho⟩
    rintro rfl
    exact hi ((hp.results.mem_items a i).mpr ha)

theorem filter_installed (hp : Publishing due due' s b value) (σ : Nat) :
    (s.installed ++ s.branches.items b).filter (frozenIn s σ)
      = s.installed.filter (frozenIn s σ) ++
        if s.branches.queued b ∧ s.branches.slot b = σ then s.branches.items b else [] := by
  rw [List.filter_append]
  congr 1
  have hmem : ∀ i ∈ s.branches.items b, frozenIn s σ i
      = (s.branches.queued b && s.branches.slot b = σ) := by
    intro i hi
    simp [frozenIn, (hp.results.mem_items b i).mp hi]
  split
  · next h =>
    rw [List.filter_eq_self]
    intro i hi
    rw [hmem i hi]
    simpa using h
  · next h =>
    rw [List.filter_eq_nil_iff]
    intro i hi
    rw [hmem i hi]
    simpa using h

/-- The result invariant after, but for what the place of the branch decides. -/
theorem base (hp : Publishing due due' s b value) :
    (∀ i, s.itemCount ≤ i → s.items.branch i = none ∧
      (s.withOutcome b value).items.outcome i = none) ∧
    (∀ i, i ∈ s.forming ↔ i < s.itemCount ∧ s.items.branch i = none ∧
      (s.withOutcome b value).items.outcome i = none) ∧
    (∀ i a, s.items.branch i = some a →
      ((s.withOutcome b value).items.outcome i ≠ none
        ↔ (s.withOutcome b value).branches.published a = true)) ∧
    (s.withOutcome b value).installed.Nodup ∧
    (∀ i, i ∈ (s.withOutcome b value).installed
      ↔ (s.withOutcome b value).items.outcome i ≠ none) ∧
    (∀ i o, s.items.branch i = none →
      (s.withOutcome b value).items.outcome i = some o → o.status = .notWritten) := by
  have hr := hp.results
  have hnone : ∀ i, s.items.branch i = none → i ∉ s.branches.items b := by
    intro i hi hmem
    rw [(hr.mem_items b i).mp hmem] at hi
    cases hi
  refine ⟨?_, ?_, ?_, ?_, ?_, ?_⟩
  · intro i hi
    obtain ⟨h₁, h₂⟩ := hr.item_fresh i hi
    exact ⟨h₁, by simpa [State.withOutcome, hnone i h₁] using h₂⟩
  · intro i
    rw [hr.mem_forming]
    constructor
    · rintro ⟨h₁, h₂, h₃⟩
      exact ⟨h₁, h₂, by simpa [State.withOutcome, hnone i h₂] using h₃⟩
    · rintro ⟨h₁, h₂, h₃⟩
      exact ⟨h₁, h₂, by simpa [State.withOutcome, hnone i h₂] using h₃⟩
  · intro i a ha
    by_cases hab : a = b
    · subst hab
      simp [State.withOutcome, (hr.mem_items a i).mpr ha]
    · have hi : i ∉ s.branches.items b := by
        intro hmem
        exact hab (Option.some.inj (ha.symm.trans ((hr.mem_items b i).mp hmem)))
      simpa [State.withOutcome, hi, hab] using hr.outcome_iff i a ha
  · refine List.nodup_append.mpr ⟨hr.installed_nodup, hr.items_nodup b, ?_⟩
    rintro i hi j hj rfl
    exact hp.not_installed hj hi
  · intro i
    by_cases hi : i ∈ s.branches.items b
    · simp [State.withOutcome, hi]
    · simpa [State.withOutcome, hi] using hr.mem_installed i
  · intro i o hi ho
    exact hr.unbranched i o hi (by simpa [State.withOutcome, hnone i hi] using ho)

end Publishing

/-- The frozen branch at the cursor is published. -/
theorem publish_queued (hs : Shape s) {σ b : Nat} {value : Outcome} (broken : Nat → Bool)
    (hp : Publishing due due s b value) (hk : (s.slots.order σ)[s.slots.cursor σ]? = some b)
    (hother : ∀ τ, τ ≠ σ → broken τ = s.slots.broken τ)
    (hbreak : broken σ = false → s.slots.broken σ = false ∧ value.status = .durable)
    (hdurable : value.status = .durable → s.slots.broken σ = false) :
    ResultsBut due { s.withOutcome b value with
      slots.cursor := update s.slots.cursor σ (s.slots.cursor σ + 1)
      slots.broken := broken } := by
  have hr := hp.results
  obtain ⟨hq, hσ⟩ := (hs.mem_order σ b).mp (List.mem_of_getElem? hk)
  obtain ⟨hfresh, hforming, houtcome, hnodup, hinstalled, hunbranched⟩ := hp.base
  have hpub : ∀ a, a ≠ b → update s.branches.published b true a = s.branches.published a :=
    fun a hab => by simp [hab]
  refine { hr with
    item_fresh := hfresh, mem_forming := hforming, published_lt := ?_, outcome_iff := houtcome,
    cursor_le := ?_, published_iff := ?_, head_le := ?_, unqueued_published := ?_,
    decided_published := ?_, installed_nodup := hnodup, mem_installed := hinstalled,
    installed_order := ?_, unbroken := ?_, after_failure := ?_, unbranched := hunbranched,
    grounded := ?_, remaining := ?_, released := ?_ }
  · intro a ha
    by_cases hab : a = b
    · exact hab ▸ hp.lt
    · exact hr.published_lt a ((hpub a hab).symm.trans ha)
  · intro τ
    by_cases hτ : τ = σ
    · subst hτ
      simp only [update_self]
      exact (List.getElem?_eq_some_iff.mp hk).1
    · simp only [update_apply, if_neg hτ]
      exact hr.cursor_le τ
  · intro τ k a ha
    by_cases hab : a = b
    · subst hab
      obtain rfl : τ = σ := ((hs.mem_order τ a).mp (List.mem_of_getElem? ha)).2.symm.trans hσ
      simp [State.withOutcome, hs.place_unique ha hk]
    · have hold := hr.published_iff τ k a ha
      by_cases hτ : τ = σ
      · subst hτ
        have hne : k ≠ s.slots.cursor τ := by
          rintro rfl
          exact hab (Option.some.inj (ha.symm.trans hk))
        simp only [State.withOutcome, hpub a hab, update_self, hold]
        omega
      · simpa [State.withOutcome, hab, hτ] using hold
  · intro τ
    by_cases hτ : τ = σ
    · subst hτ
      simp only [update_self]
      exact Nat.le_succ_of_le (hr.head_le τ)
    · simp only [update_apply, if_neg hτ]
      exact hr.head_le τ
  · intro a haq ha
    have hab : a ≠ b := by
      rintro rfl
      exact absurd (haq.symm.trans hq) (by simp)
    exact hr.unqueued_published a haq ((hpub a hab).symm.trans ha)
  · intro a hlt haq hdec
    have hab : a ≠ b := by
      rintro rfl
      exact absurd (haq.symm.trans hq) (by simp)
    simp only [State.withOutcome, hpub a hab]
    exact hr.decided_published a hlt haq hdec
  · intro τ
    refine (hp.filter_installed τ).trans ?_
    rw [hr.installed_order τ]
    by_cases hτ : τ = σ
    · subst hτ
      simp [State.withOutcome, hq, hσ, List.take_add_one, hk, List.flatMap_append]
    · have hne : s.branches.slot b ≠ τ := fun h => hτ (h.symm.trans hσ)
      simp [State.withOutcome, hτ, hne]
  · intro i a o ha haq hbrk ho
    rcases hp.outcome_cases ha ho with ⟨rfl, rfl⟩ | ⟨hab, ho⟩
    · exact (hbreak (hσ ▸ hbrk)).2
    · refine hr.unbroken i a o ha haq ?_ ho
      by_cases hτ : s.branches.slot a = σ
      · rw [hτ]
        exact (hbreak (hτ ▸ hbrk)).1
      · rw [← hother _ hτ]
        exact hbrk
  · intro τ j k a c i i' o o' hj hkc hjk hi hi' ho ho' hnd
    rcases hp.outcome_cases hi' ho' with ⟨rfl, rfl⟩ | ⟨-, hold'⟩
    · -- The new one is durable only where the slot was not broken.
      intro hd
      obtain rfl : τ = σ := ((hs.mem_order τ c).mp (List.mem_of_getElem? hkc)).2.symm.trans hσ
      obtain ⟨haq, haσ⟩ := (hs.mem_order τ a).mp (List.mem_of_getElem? hj)
      rcases hp.outcome_cases hi ho with ⟨rfl, -⟩ | ⟨-, ho⟩
      · exact absurd (hs.place_unique hj hkc) (Nat.ne_of_lt hjk)
      · exact hnd (hr.unbroken i a o hi haq (haσ ▸ hdurable hd) ho)
    · rcases hp.outcome_cases hi ho with ⟨rfl, -⟩ | ⟨-, ho⟩
      · -- Nothing past the cursor is published.
        obtain rfl : τ = σ := ((hs.mem_order τ a).mp (List.mem_of_getElem? hj)).2.symm.trans hσ
        have hcur := hs.place_unique hj hk
        have hpc := (hr.outcome_iff i' c hi').mp (Option.ne_none_iff_exists'.mpr ⟨o', hold'⟩)
        have := (hr.published_iff τ k c hkc).mp hpc
        omega
      · exact hr.after_failure τ j k a c i i' o o' hj hkc hjk hi hi' ho hold' hnd
  · intro i a o ha ho
    rcases hp.outcome_cases ha ho with ⟨rfl, rfl⟩ | ⟨-, ho⟩
    · exact hp.grounded
    · exact hr.grounded i a o ha ho
  · intro g
    refine (hr.remaining g).trans (List.countP_congr fun a _ => ?_)
    have hsame : finished s a = finished { s.withOutcome b value with
        slots.cursor := update s.slots.cursor σ (s.slots.cursor σ + 1)
        slots.broken := broken } a := by
      by_cases hab : a = b
      · subst hab
        simp only [finished, State.withOutcome, hq, if_true]
        rfl
      · simp only [finished, State.withOutcome, hpub a hab]
        rfl
    rw [hsame]
  · intro g hg
    refine ⟨(hr.released g hg).1, fun a ha => ?_⟩
    by_cases hab : a = b
    · simp [State.withOutcome, hab]
    · simpa [State.withOutcome, hab] using (hr.released g hg).2 a ha

/-- A branch that never froze is published, and its group is done with it. -/
theorem publish_unqueued (hs : Shape s) {b : Nat} {value : Outcome} {due' : List Nat}
    (hp : Publishing due due' s b value) (hq : s.branches.queued b = false)
    (hdec : s.groups.walDecided (s.branches.group b) = true) :
    ResultsBut due' ((s.withOutcome b value).finish (s.branches.group b)) := by
  have hr := hp.results
  obtain ⟨hfresh, hforming, houtcome, hnodup, hinstalled, hunbranched⟩ := hp.base
  have hpub : ∀ a, a ≠ b → update s.branches.published b true a = s.branches.published a :=
    fun a hab => by simp [hab]
  have hne : ∀ a, s.branches.queued a = true → a ≠ b := by
    rintro a ha rfl
    exact absurd (hq.symm.trans ha) (by simp)
  have horder : ∀ {τ k a : Nat}, (s.slots.order τ)[k]? = some a → a ≠ b :=
    fun ha => hne _ ((hs.mem_order _ _).mp (List.mem_of_getElem? ha)).1
  refine { hr with
    item_fresh := hfresh, mem_forming := hforming, published_lt := ?_, outcome_iff := houtcome,
    published_iff := ?_, unqueued_published := ?_, decided_published := ?_,
    installed_nodup := hnodup, mem_installed := hinstalled, installed_order := ?_,
    unbroken := ?_, after_failure := ?_, unbranched := hunbranched, grounded := ?_,
    remaining := ?_, released := ?_ }
  · intro a ha
    by_cases hab : a = b
    · exact hab ▸ hp.lt
    · exact hr.published_lt a ((hpub a hab).symm.trans ha)
  · intro τ k a ha
    simp only [State.finish, State.withOutcome, hpub a (horder ha)]
    exact hr.published_iff τ k a ha
  · intro a haq ha
    by_cases hab : a = b
    · exact hab ▸ hdec
    · exact hr.unqueued_published a haq ((hpub a hab).symm.trans ha)
  · intro a hlt haq hdec'
    by_cases hab : a = b
    · left
      simp [State.finish, State.withOutcome, hab]
    · simp only [State.finish, State.withOutcome, hpub a hab]
      rcases hr.decided_published a hlt haq hdec' with h | h
      · exact .inl h
      · exact .inr ((hp.due_sub a h).resolve_left hab)
  · intro τ
    refine (hp.filter_installed τ).trans ?_
    rw [hr.installed_order τ]
    simp [hq, State.finish, State.withOutcome]
  · intro i a o ha haq hbrk ho
    rcases hp.outcome_cases ha ho with ⟨rfl, -⟩ | ⟨-, ho⟩
    · exact absurd rfl (hne a haq)
    · exact hr.unbroken i a o ha haq hbrk ho
  · intro τ j k a c i i' o o' hj hkc hjk hi hi' ho ho' hnd
    have ho := ((hp.outcome_cases hi ho).resolve_left fun h => horder hj h.1).2
    have ho' := ((hp.outcome_cases hi' ho').resolve_left fun h => horder hkc h.1).2
    exact hr.after_failure τ j k a c i i' o o' hj hkc hjk hi hi' ho ho' hnd
  · intro i a o ha ho
    rcases hp.outcome_cases ha ho with ⟨rfl, rfl⟩ | ⟨-, ho⟩
    · exact hp.grounded
    · exact hr.grounded i a o ha ho
  · intro g
    have hmem := (hs.branch_group b hp.lt).2
    have hother : ∀ a, a ≠ b → finished ((s.withOutcome b value).finish (s.branches.group b)) a
        = finished s a := by
      intro a hab
      simp only [finished, State.finish, State.withOutcome, hpub a hab]
      rfl
    by_cases hg : g = s.branches.group b
    · subst hg
      have hlose := countP_lose (hs.group_nodup _) hmem
        (p := fun a => !finished s a)
        (q := fun a => !finished ((s.withOutcome b value).finish (s.branches.group b)) a)
        (by simp [finished, hq, hp.unpublished])
        (by simp [finished, State.finish, State.withOutcome, hq])
        (fun a _ hab => by rw [hother a hab])
      have hrem := hr.remaining (s.branches.group b)
      rw [hlose] at hrem
      simp only [State.finish, update_self] at hrem ⊢
      exact Nat.sub_eq_of_eq_add hrem
    · have hnot : b ∉ s.groups.branches g := by
        intro h
        exact hg ((hs.mem_group g b h).2).symm
      simp only [State.finish, update_apply, if_neg hg]
      refine (hr.remaining g).trans (List.countP_congr fun a ha => ?_)
      have := hother a (fun h => hnot (h ▸ ha))
      simp only [State.finish] at this
      rw [this]
  · intro g hg
    refine ⟨(hr.released g hg).1, fun a ha => ?_⟩
    by_cases hab : a = b
    · simp [State.finish, State.withOutcome, hab]
    · simpa [State.finish, State.withOutcome, hab] using (hr.released g hg).2 a ha

/-! ## What a verdict rests on -/

theorem status_durable {b : Nat} {verdict : Verdict} {why : Option Errc} :
    (s.outcomeOf b verdict why).status = .durable ↔ verdict = .durable := by
  unfold State.outcomeOf
  split
  · next h =>
    simp only [h, iff_false]
    split <;> simp
  · next h => simpa using h

theorem status_notWritten {b : Nat} {verdict : Verdict} {why : Option Errc}
    (h : (s.outcomeOf b verdict why).status = .notWritten) :
    verdict ≠ .durable ∧ verdict ≠ .uncertain := by
  unfold State.outcomeOf at h
  split at h
  · next hv =>
    refine ⟨hv, ?_⟩
    rintro rfl
    simp at h
  · simp at h

theorem walState_durable {b : Nat} (h : s.walState b = .durable) :
    s.branches.queued b = true ∧ s.branches.placement b = .wal
      ∧ s.groups.walSettled (s.branches.group b) = true
      ∧ (s.groups.walReceipt (s.branches.group b)).isSome = true
      ∧ s.groups.walFailure (s.branches.group b) = none := by
  unfold State.walState at h
  dsimp only at h
  split at h
  · cases h
  · next hq =>
    obtain ⟨hp, hq⟩ := not_or.mp hq
    split at h
    · cases h
    · split at h
      · split at h <;> cases h
      · split at h
        · cases h
        · next hs =>
          split at h
          · next hr =>
            refine ⟨by simpa using hq, ?_, by simpa using hs, hr.1, hr.2⟩
            cases hpl : s.branches.placement b with
            | wal => rfl
            | segment => exact absurd hpl hp
          · cases h

theorem walState_refused {b : Nat} (h : s.walState b = .refused) :
    s.groups.walDecided (s.branches.group b) = true
      ∧ s.groups.walAccepted (s.branches.group b) = false
      ∧ s.groups.walUnknown (s.branches.group b) = false := by
  unfold State.walState at h
  dsimp only at h
  split at h
  · cases h
  · split at h
    · cases h
    · next hd =>
      split at h
      · next ha =>
        split at h
        · cases h
        · next hu => exact ⟨by simpa using hd, ha, by simpa using hu⟩
      · split at h
        · cases h
        · split at h <;> cases h

/-- Where a branch stands in its segment, read back. -/
theorem segmentState_cases {b : Nat} :
    match s.segmentState b with
    | .unfrozen => s.branches.queued b = false
    | .dropped => s.branches.queued b = true ∧ s.branches.ready b = true
        ∧ s.branches.submitted b = false
    | .durable => s.branches.queued b = true ∧
        ∃ cut, s.slots.receipt (s.branches.slot b) = some cut ∧ s.endOf b ≤ cut.endBytes
    | _ => s.branches.queued b = true := by
  unfold State.segmentState
  dsimp only
  cases hq : s.branches.queued b with
  | false => simp
  | true =>
    cases hr : s.branches.ready b with
    | false => simp
    | true =>
      cases hsub : s.branches.submitted b with
      | false => simp
      | true =>
        simp only [Bool.true_eq_false, if_false]
        by_cases h : (s.slots.receipt (s.branches.slot b)).any (s.endOf b ≤ ·.endBytes) = true
        · obtain ⟨cut, hcut, hle⟩ := (Option.any_eq_true _ _).mp h
          simp only [h, if_true]
          exact ⟨trivial, cut, hcut, of_decide_eq_true hle⟩
        · by_cases h' : (s.slots.failedThrough (s.branches.slot b)).any (s.endOf b ≤ ·) = true
          · simp [h, h']
          · simp [h, h']

/-- A row that decides a branch grounds the outcome it gives. -/
theorem grounded_of_verdict {b : Nat} {row : VerdictCase} (why : Option Errc)
    (hv : s.verdictOf b = .ok row) (hw : row.verdict ≠ .wait)
    (hdec : s.branches.queued b = false →
      s.groups.walDecided (s.branches.group b) = true) :
    Grounded s b (s.outcomeOf b row.verdict why).status ∧
      (row.verdict = .durable → s.slots.broken (s.branches.slot b) = false) := by
  have hseg := segmentState_cases (s := s) (b := b)
  constructor
  · cases hst : (s.outcomeOf b row.verdict why).status with
    | durable =>
      obtain ⟨-, ⟨hp, hwal⟩ | hg⟩ := classify_durable hv (status_durable.mp hst)
      · obtain ⟨hq, h⟩ := walState_durable hwal
        exact ⟨hq, .inl h⟩
      · rw [hg] at hseg
        exact ⟨hseg.1, .inr hseg.2⟩
    | notWritten =>
      obtain ⟨hnd, hnu⟩ := status_notWritten hst
      have hnw : row.verdict = .notWritten := by
        have := classify_not_impossible hv
        cases h : row.verdict <;> simp_all
      rcases classify_notWritten hv hnw with hg | ⟨hg, hwal | ⟨hp, -⟩⟩
      · rw [hg] at hseg
        exact .inl ⟨hseg, hdec hseg⟩
      · rw [hg] at hseg
        exact .inr ⟨hseg.2.1, hseg.2.2, .inr (walState_refused hwal)⟩
      · rw [hg] at hseg
        exact .inr ⟨hseg.2.1, hseg.2.2, .inl hp⟩
    | uncertain =>
      have hne : s.segmentState b ≠ .unfrozen := by
        intro hg
        have hnw : row.verdict = .notWritten := by
          unfold State.verdictOf at hv
          rw [hg] at hv
          exact classify_unfrozen hv
        rw [hnw] at hst
        simp [State.outcomeOf] at hst
      show s.branches.queued b = true
      revert hseg hne
      cases s.segmentState b <;> simp +contextual
  · intro hd
    have := (classify_durable hv hd).1
    unfold State.earlierState at this
    split at this
    · cases this
    · next h => simpa using h

/-! ## The loops of `publish_ready` -/

/-- A decided branch at the cursor is published. -/
theorem publishBranch (hr : ResultsBut due s) (hs : Shape s) {σ b : Nat} {row : VerdictCase}
    (hk : (s.slots.order σ)[s.slots.cursor σ]? = some b) (hv : s.verdictOf b = .ok row)
    (hw : row.verdict ≠ .wait) :
    ResultsBut due ({ s with
      slots.cursor := update s.slots.cursor σ (s.slots.cursor σ + 1) }.publishBranch b
        row.verdict) := by
  obtain ⟨hq, hσ⟩ := (hs.mem_order σ b).mp (List.mem_of_getElem? hk)
  have hunpub : s.branches.published b = false := by
    by_contra h
    exact absurd ((hr.published_iff σ _ b hk).mp (by simpa using h)) (Nat.lt_irrefl _)
  obtain ⟨hground, hdurable⟩ := grounded_of_verdict (s.failureOf b row.verdict) hv hw
    fun h => absurd (h.symm.trans hq) (by simp)
  have hp : Publishing due due s b (s.outcomeOf b row.verdict (s.failureOf b row.verdict)) :=
    ⟨hr, hs.queued_lt hq, hunpub, hground, fun a h => .inr h⟩
  refine ResultsBut.congr (publish_queued hs
    (if row.verdict = .durable then s.slots.broken else update s.slots.broken σ true) hp hk
    ?_ ?_ ?_) ?_
  · intro τ hτ
    split
    · rfl
    · simp [hτ]
  · intro h
    split at h
    · next hd => exact ⟨h, status_durable.mpr hd⟩
    · simp at h
  · intro hst
    exact hσ ▸ hdurable (status_durable.mp hst)
  · refine (State.results_publishBranch (s := { s with
      slots.cursor := update s.slots.cursor σ (s.slots.cursor σ + 1) }) _ (hr.items_nodup b)
      fun i hi => hr.no_outcome hunpub hi).trans ?_
    by_cases hd : row.verdict = .durable
    · simp only [hd, hq, ne_eq, not_true_eq_false, and_false, if_false, if_true]
      rfl
    · simp only [hd, hq, ne_eq, not_false_eq_true, and_self, if_true, if_false, hσ]
      rfl

/-- Publishing a branch moves no cursor and marks no other branch. -/
theorem publishBranch_fields {b : Nat} {verdict : Verdict} :
    (s.publishBranch b verdict).slots.cursor = s.slots.cursor ∧
      (s.publishBranch b verdict).branches.published = update s.branches.published b true := by
  have hinstall : ∀ (t : State) (value : Outcome) (l : List Nat),
      (t.installAll value l).slots.cursor = t.slots.cursor ∧
        (t.installAll value l).branches.published = t.branches.published := by
    intro t value l
    induction l generalizing t with
    | nil => exact ⟨rfl, rfl⟩
    | cons i rest ih => exact ih _
  have hfacts : ∀ (t : State) (σ : Nat) (l : List Nat),
      (t.addFacts σ l).slots.cursor = t.slots.cursor ∧
        (t.addFacts σ l).branches.published = t.branches.published := by
    intro t σ l
    induction l generalizing t with
    | nil => exact ⟨rfl, rfl⟩
    | cons i rest ih => exact ih _
  unfold State.publishBranch
  dsimp only
  split
  · split
    · exact ⟨(hfacts _ _ _).1.trans (hinstall _ _ _).1,
        (hfacts _ _ _).2.trans (hinstall _ _ _).2⟩
    · exact hinstall _ _ _
  · exact hinstall _ _ _

theorem publishFrom (hr : ResultsBut due s) (hs : Shape s) {σ : Nat} {l : List Nat}
    (hd : (s.slots.order σ).drop (s.slots.cursor σ) = l) :
    ResultsBut due (s.publishFrom σ l) := by
  induction l generalizing s with
  | nil => exact hr
  | cons b rest ih =>
    obtain ⟨hk, hrest, -⟩ := drop_eq_cons hd
    obtain ⟨row, -, hv⟩ := hs.verdictOf_ok b
    rw [State.publishFrom, hv]
    dsimp only
    split
    · exact hr
    · next hw =>
      have hshape := State.shape_of_core (State.core_publishBranch (b := b)
        (v := row.verdict) (s := { s with
          slots.cursor := update s.slots.cursor σ (s.slots.cursor σ + 1) }))
      refine ih (hr.publishBranch hs hk hv hw) (hs.congr (hshape.trans rfl)) ?_
      have horder := congrArg (fun t : State => t.slots.order σ) hshape
      simp only [publishBranch_fields.1, update_self]
      exact (congrArg (List.drop (s.slots.cursor σ + 1)) horder).trans hrest

/-- A branch both published and passed is let go. -/
theorem letGo_one (hr : ResultsBut due s) (hs : Shape s) {σ b : Nat}
    (hk : (s.slots.order σ)[s.slots.head σ]? = some b)
    (hpub : s.branches.published b = true) :
    ResultsBut due ({ s with
      slots.head := update s.slots.head σ (s.slots.head σ + 1) }.finish (s.branches.group b)) := by
  obtain ⟨hq, hσ⟩ := (hs.mem_order σ b).mp (List.mem_of_getElem? hk)
  have hcur := (hr.published_iff σ _ b hk).mp hpub
  refine { hr with head_le := ?_, remaining := ?_ }
  · intro τ
    by_cases hτ : τ = σ
    · subst hτ
      simp only [State.finish, update_self]
      exact hcur
    · simp only [State.finish, update_apply, if_neg hτ]
      exact hr.head_le τ
  · intro g
    have hother : ∀ a, a < s.branchCount → a ≠ b → finished ({ s with
        slots.head := update s.slots.head σ (s.slots.head σ + 1) }.finish (s.branches.group b)) a
        = finished s a := by
      intro a _ hab
      cases haq : s.branches.queued a with
      | false => simp only [finished, State.finish, haq]; rfl
      | true =>
        by_cases haσ : s.branches.slot a = σ
        · obtain ⟨k, hka⟩ := List.mem_iff_getElem?.mp ((hs.mem_order σ a).mpr ⟨haq, haσ⟩)
          have hne : k ≠ s.slots.head σ := by
            rintro rfl
            exact hab (Option.some.inj (hka.symm.trans hk))
          simp only [finished, State.finish, haq, if_true, haσ, update_self,
            hs.idxOf_eq hka]
          rw [decide_eq_decide]
          omega
        · simp only [finished, State.finish, haq, if_true, update_apply, if_neg haσ]
    have hmem := (hs.branch_group b (hs.queued_lt hq)).2
    by_cases hg : g = s.branches.group b
    · subst hg
      have hlose := countP_lose (hs.group_nodup _) hmem
        (p := fun a => !finished s a)
        (q := fun a => !finished ({ s with
          slots.head := update s.slots.head σ (s.slots.head σ + 1) }.finish
            (s.branches.group b)) a)
        (by simp [finished, hq, hσ, hs.idxOf_eq hk])
        (by simp [finished, State.finish, hq, hσ, hs.idxOf_eq hk])
        (fun a ha hab => by rw [hother a (hs.mem_group _ a ha).1 hab])
      have hrem := hr.remaining (s.branches.group b)
      rw [hlose] at hrem
      simp only [State.finish, update_self] at hrem ⊢
      exact Nat.sub_eq_of_eq_add hrem
    · have hnot : b ∉ s.groups.branches g := by
        intro h
        exact hg ((hs.mem_group g b h).2).symm
      simp only [State.finish, update_apply, if_neg hg]
      refine (hr.remaining g).trans (List.countP_congr fun a ha => ?_)
      have := hother a (hs.mem_group g a ha).1 (fun h => hnot (h ▸ ha))
      simp only [State.finish] at this
      rw [this]

theorem letGo (hr : ResultsBut due s) (hs : Shape s) {σ : Nat} {l : List Nat}
    (hd : (s.slots.order σ).drop (s.slots.head σ) = l) : ResultsBut due (s.letGo σ l) := by
  induction l generalizing s with
  | nil => exact hr
  | cons b rest ih =>
    obtain ⟨hk, hrest, -⟩ := drop_eq_cons hd
    rw [State.letGo]
    split
    · next h =>
      refine ih (hr.letGo_one hs hk h.1) (hs.congr rfl) ?_
      simp only [State.finish, update_self]
      exact hrest
    · exact hr

theorem publishReady (hr : ResultsBut due s) (hs : Shape s) {σ : Nat} :
    ResultsBut due (s.publishReady σ) :=
  (hr.publishFrom hs rfl).letGo (hs.congr (State.shape_of_core State.core_publishFrom)) rfl

/-- A branch that never froze is published once its group is decided. -/
theorem publishUnfrozen (hr : ResultsBut due s) (hs : Shape s) {b : Nat} {due' : List Nat}
    (hb : b < s.branchCount) (hq : s.branches.queued b = false)
    (hunpub : s.branches.published b = false)
    (hdec : s.groups.walDecided (s.branches.group b) = true)
    (hdue : ∀ a ∈ due, a = b ∨ a ∈ due') : ResultsBut due' (s.publishUnfrozen b) := by
  obtain ⟨row, -, hv⟩ := hs.verdictOf_ok b
  have hseg : s.segmentState b = .unfrozen := by simp [State.segmentState, hq]
  have hnw : row.verdict = .notWritten := by
    have hv' := hv
    unfold State.verdictOf at hv'
    rw [hseg] at hv'
    exact classify_unfrozen hv'
  obtain ⟨hground, -⟩ := grounded_of_verdict (s.failureOf b row.verdict) hv
    (by rw [hnw]; simp) fun _ => hdec
  have hp : Publishing due due' s b (s.outcomeOf b row.verdict (s.failureOf b row.verdict)) :=
    ⟨hr, hb, hunpub, hground, hdue⟩
  have hview := State.results_publishBranch (s := s) (b := b) row.verdict
    (hr.items_nodup b) fun i hi => hr.no_outcome hunpub hi
  simp only [hq, Bool.false_eq_true, false_and, if_false] at hview
  rw [State.publishUnfrozen, hv]
  refine (publish_unqueued hs hp hq hdec).congr ?_
  have hfinish := congrArg (fun t : State => t.finish (s.branches.group b)) hview
  exact hfinish

end ResultsBut
end KwaqueStorage.Append
