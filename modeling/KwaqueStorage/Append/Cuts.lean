import KwaqueStorage.Append.ShapeRun

/-!
# Where the cuts are

`submitted`, `footed`, `closing`, the running barrier, the newest receipt and the newest failed
barrier of a slot are file positions, and everything the owner concludes from one of them rests
on a single relation: every group of the slot that ends at or before the position was passed
(`Reached`). A barrier is only ever started at a position that is reached, past every position
an earlier barrier was asked to cover, so receipts and failures of a slot only move forward.

A closing footer is the one position that is not reached: it waits for the groups before it.
Inside `mark_ready`'s loop it may have been overtaken; between actions it never is (`Waiting`).
-/

namespace KwaqueStorage.Append

open Lib
open Function (update update_apply update_self)

/-- Every group of the slot up to a position of its file was passed. -/
def Reached (s : State) (σ e : Nat) : Prop :=
  e ≤ (s.writer σ).reserved ∧ ∀ b ∈ s.slots.order σ, s.endOf b ≤ e → s.branches.passed b = true

/-- The part of a state that `Cuts` reads. -/
def State.cuts (s : State) : State :=
  { maximumRequests := 0
    slots :=
      { attached := s.slots.attached
        looping := s.slots.looping
        segment := s.slots.segment
        order := s.slots.order
        submitted := s.slots.submitted
        footed := s.slots.footed
        closing := s.slots.closing
        attempted := s.slots.attempted
        barrier := s.slots.barrier
        receipt := s.slots.receipt
        failedThrough := s.slots.failedThrough
        frontier := s.slots.frontier }
    attachments := s.attachments
    writers := fun segment => { reserved := (s.writers segment).reserved }
    table := .made 0
    branches :=
      { boundary := s.branches.boundary
        submitted := s.branches.submitted
        passed := s.branches.passed }
    reserved := ⟨0, 0⟩
    recovered := ⟨0, 0⟩ }

/-- **The cut invariant.** -/
structure Cuts (s : State) : Prop where
  attached_lt : ∀ σ, s.slots.attached σ = true → σ < s.attachments
  looping_lt : ∀ σ, s.slots.looping σ = true → σ < s.attachments
  slot_fresh : ∀ σ, s.attachments ≤ σ →
    s.slots.submitted σ = none ∧ s.slots.footed σ = none ∧ s.slots.closing σ = none
      ∧ s.slots.barrier σ = none ∧ s.slots.receipt σ = none ∧ s.slots.failedThrough σ = none
  /-- The newest cut passed submitted. -/
  submitted_max : ∀ σ, ∀ b ∈ s.slots.order σ, s.branches.passed b = true →
    s.branches.submitted b = true → ∃ cut, s.slots.submitted σ = some cut ∧ s.endOf b ≤ cut.endBytes
  submitted_mem : ∀ σ cut, s.slots.submitted σ = some cut → ∃ b ∈ s.slots.order σ,
    s.branches.passed b = true ∧ s.branches.boundary b = cut
  footed : ∀ σ cut, s.slots.footed σ = some cut → Reached s σ cut.endBytes
  /-- A closing footer lies between two groups. -/
  closing : ∀ σ cut, s.slots.closing σ = some cut → cut.endBytes ≤ (s.writer σ).reserved ∧
    ∃ begin_, cut.footer = some begin_ ∧ begin_ < cut.endBytes ∧
      ∀ b ∈ s.slots.order σ, s.endOf b ≤ begin_ ∨ cut.endBytes < s.endOf b
  barrier : ∀ σ cut, s.slots.barrier σ = some cut →
    s.slots.attempted σ = some cut.endBytes ∧ Reached s σ cut.endBytes
      ∧ (∀ old, s.slots.receipt σ = some old → old.endBytes < cut.endBytes)
      ∧ ∀ old, s.slots.failedThrough σ = some old → old < cut.endBytes
  receipt : ∀ σ cut, s.slots.receipt σ = some cut → Reached s σ cut.endBytes ∧
    ∃ attempted, s.slots.attempted σ = some attempted ∧ cut.endBytes ≤ attempted
  failedThrough : ∀ σ e, s.slots.failedThrough σ = some e → Reached s σ e ∧
    ∃ attempted, s.slots.attempted σ = some attempted ∧ e ≤ attempted

/-- A closing footer waits for a group before it. -/
def Waiting (s : State) : Prop :=
  ∀ σ cut, s.slots.closing σ = some cut → s.blocked σ cut = true

section

variable {s s' : State}

theorem Cuts.congr (hc : Cuts s) (h : s'.cuts = s.cuts) : Cuts s' := by
  have h₁ : Cuts s.cuts := { hc with }
  rw [← h] at h₁
  exact { h₁ with }

theorem Waiting.congr (hw : Waiting s) (h : s'.cuts = s.cuts) : Waiting s' := by
  have h₁ : Waiting s.cuts := hw
  rw [← h] at h₁
  exact h₁

theorem cuts_of_core (h : s.core = s'.core) : s.cuts = s'.cuts := by
  have := congrArg State.cuts h
  exact this

theorem cuts_of_rowless (h : s.rowless = s'.rowless) : s.cuts = s'.cuts := by
  have := congrArg State.cuts h
  exact this

end

namespace Cuts

variable {s : State}

/-! ## Passing -/

/-- The flags of `mark_ready`'s turn: more is passed, and the newest cut may move. -/
theorem pass_flags (hc : Cuts s) {σ b : Nat} {cuts : Nat → Option Boundary}
    (hfresh : ∀ τ, s.attachments ≤ τ → cuts τ = none)
    (hmax : ∀ τ, ∀ a ∈ s.slots.order τ, update s.branches.passed b true a = true →
      s.branches.submitted a = true → ∃ cut, cuts τ = some cut ∧ s.endOf a ≤ cut.endBytes)
    (hmem : ∀ τ cut, cuts τ = some cut → ∃ a ∈ s.slots.order τ,
      update s.branches.passed b true a = true ∧ s.branches.boundary a = cut) :
    Cuts { s with
      slots.frontier := update s.slots.frontier σ (s.slots.frontier σ + 1)
      branches.passed := update s.branches.passed b true
      slots.submitted := cuts } := by
  have hmono : ∀ a, s.branches.passed a = true → update s.branches.passed b true a = true := by
    intro a ha
    by_cases hab : a = b <;> simp [hab, ha]
  have hreach : ∀ τ e, Reached s τ e → Reached { s with
      slots.frontier := update s.slots.frontier σ (s.slots.frontier σ + 1)
      branches.passed := update s.branches.passed b true
      slots.submitted := cuts } τ e :=
    fun τ e h => ⟨h.1, fun a ha hle => hmono a (h.2 a ha hle)⟩
  refine { hc with
    slot_fresh := ?_, submitted_max := hmax, submitted_mem := hmem, footed := ?_, barrier := ?_,
    receipt := ?_, failedThrough := ?_ }
  · intro τ hτ
    exact ⟨hfresh τ hτ, (hc.slot_fresh τ hτ).2⟩
  · intro τ cut h
    exact hreach τ _ (hc.footed τ cut h)
  · intro τ cut h
    obtain ⟨h₁, h₂, h₃⟩ := hc.barrier τ cut h
    exact ⟨h₁, hreach τ _ h₂, h₃⟩
  · intro τ cut h
    obtain ⟨h₁, h₂⟩ := hc.receipt τ cut h
    exact ⟨hreach τ _ h₁, h₂⟩
  · intro τ e h
    obtain ⟨h₁, h₂⟩ := hc.failedThrough τ e h
    exact ⟨hreach τ _ h₁, h₂⟩

/-- A new newest footer at a reached position. -/
theorem footed_at (hc : Cuts s) {σ : Nat} {cut : Boundary} {f : Nat → Option Boundary}
    (hr : Reached s σ cut.endBytes) (hσ : σ < s.attachments)
    (hf : ∀ τ, f τ = s.slots.footed τ ∨ τ = σ ∧ f τ = some cut) :
    Cuts { s with slots.footed := f } := by
  refine { hc with slot_fresh := ?_, footed := ?_ }
  · intro τ hτ
    obtain ⟨h₁, h₂, h₃⟩ := hc.slot_fresh τ hτ
    refine ⟨h₁, ?_, h₃⟩
    rcases hf τ with h | ⟨rfl, -⟩
    · exact h.trans h₂
    · exact absurd hσ (Nat.not_lt.mpr hτ)
  · intro τ cut' h
    rcases hf τ with h' | ⟨rfl, h'⟩
    · exact hc.footed τ cut' (h'.symm.trans h)
    · obtain rfl := Option.some.inj (h'.symm.trans h)
      exact hr

theorem cover (hc : Cuts s) {σ : Nat} {cut : Boundary} (hr : Reached s σ cut.endBytes)
    (hσ : σ < s.attachments) : Cuts (s.cover σ cut) := by
  refine (hc.footed_at hr hσ (f := (s.cover σ cut).slots.footed) ?_).congr rfl
  intro τ
  simp only [State.cover]
  split
  · exact .inl rfl
  · by_cases hτ : τ = σ
    · exact .inr ⟨hτ, by simp [hτ]⟩
    · exact .inl (by simp [hτ])

end Cuts

/-! ### One turn of `mark_ready`'s loop -/

namespace Shape

variable {s : State}

/-- The slot of a branch in a file order is an attachment. -/
theorem order_slot (hs : Shape s) {σ b : Nat} (h : b ∈ s.slots.order σ) : σ < s.attachments := by
  obtain ⟨hq, rfl⟩ := (hs.mem_order σ b).mp h
  exact hs.branch_slot b (hs.queued_lt hq)

/-- The branch at the frontier ends after every branch passed with it. -/
theorem end_le_next (hs : Shape s) {σ a b : Nat} {rest : List Nat}
    (hd : (s.slots.order σ).drop (s.slots.frontier σ) = b :: rest) (ha : a ∈ s.slots.order σ)
    (hp : update s.branches.passed b true a = true) : s.endOf a ≤ s.endOf b := by
  obtain ⟨hk, -, -⟩ := drop_eq_cons hd
  obtain ⟨j, hj⟩ := List.mem_iff_getElem?.mp ha
  by_cases hab : a = b
  · exact hab ▸ le_rfl
  · have := (hs.passed_iff σ j a hj).mp (by simpa [hab] using hp)
    exact (hs.end_le_iff hj hk).mpr (by omega)

/-- The branch at the frontier is the only one a turn passes. -/
theorem next_mem (hs : Shape s) {σ b : Nat} {rest : List Nat}
    (hd : (s.slots.order σ).drop (s.slots.frontier σ) = b :: rest) :
    b ∈ s.slots.order σ ∧ s.branches.slot b = σ := by
  obtain ⟨hk, -, -⟩ := drop_eq_cons hd
  have hb := List.mem_of_getElem? hk
  exact ⟨hb, ((hs.mem_order σ b).mp hb).2⟩

end Shape

namespace Cuts

variable {s : State}

/-- A branch passed submitted is the newest cut. -/
theorem pass_submitted (hc : Cuts s) (hs : Shape s) {σ b : Nat} {rest : List Nat}
    (hd : (s.slots.order σ).drop (s.slots.frontier σ) = b :: rest) :
    Cuts { s with
      slots.frontier := update s.slots.frontier σ (s.slots.frontier σ + 1)
      branches.passed := update s.branches.passed b true
      slots.submitted := update s.slots.submitted σ (some (s.branches.boundary b)) } := by
  obtain ⟨hb, hslot⟩ := hs.next_mem hd
  refine hc.pass_flags ?_ ?_ ?_
  · intro τ hτ
    have hne : τ ≠ σ := Nat.ne_of_gt (Nat.lt_of_lt_of_le (hs.order_slot hb) hτ)
    simpa [hne] using (hc.slot_fresh τ hτ).1
  · intro τ a ha hp hsub
    by_cases hτ : τ = σ
    · subst hτ
      exact ⟨_, by simp, hs.end_le_next hd ha hp⟩
    · have hab : a ≠ b := by
        rintro rfl
        exact hτ (((hs.mem_order τ a).mp ha).2.symm.trans hslot)
      simpa [hτ] using hc.submitted_max τ a ha (by simpa [hab] using hp) hsub
  · intro τ cut h
    by_cases hτ : τ = σ
    · subst hτ
      exact ⟨b, hb, by simp, by simpa using h⟩
    · obtain ⟨a, ha, hp, hcut⟩ := hc.submitted_mem τ cut (by simpa [hτ] using h)
      refine ⟨a, ha, ?_, hcut⟩
      by_cases hab : a = b <;> simp [hab, hp]

/-- A branch passed dropped is no cut. -/
theorem pass_dropped (hc : Cuts s) {σ b : Nat} (hns : s.branches.submitted b = false) :
    Cuts { s with
      slots.frontier := update s.slots.frontier σ (s.slots.frontier σ + 1)
      branches.passed := update s.branches.passed b true } := by
  refine hc.pass_flags (fun τ hτ => (hc.slot_fresh τ hτ).1) ?_ ?_
  · intro τ a ha hp hsub
    have hab : a ≠ b := by
      rintro rfl
      rw [hns] at hsub
      cases hsub
    exact hc.submitted_max τ a ha (by simpa [hab] using hp) hsub
  · intro τ cut h
    obtain ⟨a, ha, hp, hcut⟩ := hc.submitted_mem τ cut h
    refine ⟨a, ha, ?_, hcut⟩
    by_cases hab : a = b <;> simp [hab, hp]

theorem cuts_countPassed {σ b : Nat} : (s.countPassed σ b).cuts = s.cuts := by
  unfold State.countPassed
  dsimp only
  split <;> rfl

theorem pass (hc : Cuts s) (hs : Shape s) {σ b : Nat} {rest : List Nat}
    (hd : (s.slots.order σ).drop (s.slots.frontier σ) = b :: rest)
    (hr : s.branches.ready b = true) : Cuts (s.pass σ b) := by
  obtain ⟨hb, -⟩ := hs.next_mem hd
  unfold State.pass
  dsimp only
  split
  · next hsub =>
    have hs' := hs.pass_flags hd hr
    have hreach : Reached { s with
        slots.frontier := update s.slots.frontier σ (s.slots.frontier σ + 1)
        branches.passed := update s.branches.passed b true
        slots.submitted := update s.slots.submitted σ (some (s.branches.boundary b)) } σ
        (s.branches.boundary b).endBytes :=
      ⟨hs.end_le σ b hb, fun a ha hle => hs'.passed_of_le ha hb (by simp) hle⟩
    have hcut := hc.pass_submitted hs hd
    unfold State.passSubmitted
    dsimp only
    split
    · refine (hcut.cover hreach (hs.order_slot hb)).congr ?_
      have := congrArg (fun u : State => (u.cover σ (s.branches.boundary b)).cuts)
        (cuts_countPassed (s := { s with
          slots.frontier := update s.slots.frontier σ (s.slots.frontier σ + 1)
          branches.passed := update s.branches.passed b true
          slots.submitted := update s.slots.submitted σ (some (s.branches.boundary b)) })
          (σ := σ) (b := b))
      exact this
    · exact (hcut.congr cuts_countPassed).congr rfl
  · next hsub =>
    exact (hc.pass_dropped (by simpa using hsub)).congr
      (cuts_of_rowless State.rowless_passDropped)

theorem passFrom (hc : Cuts s) (hs : Shape s) {σ : Nat} {l : List Nat}
    (hd : (s.slots.order σ).drop (s.slots.frontier σ) = l) : Cuts (s.passFrom σ l) := by
  induction l generalizing s with
  | nil => exact hc
  | cons b rest ih =>
    rw [State.passFrom]
    split
    · next hr => exact ih (hc.pass hs hd hr) (hs.pass hd hr) (Shape.pass_drop hd)
    · exact hc

/-- A closing footer that nothing waits before is reached. -/
theorem reached_closing (hc : Cuts s) (hs : Shape s) {σ : Nat} {cut : Boundary}
    (h : s.slots.closing σ = some cut) (hb : s.blocked σ cut = false) :
    Reached s σ cut.endBytes := by
  obtain ⟨hle, begin_, hfooter, hlt, hsplit⟩ := hc.closing σ cut h
  refine ⟨hle, fun a ha hend => hs.passed_of_frontier ha ?_⟩
  have ha' : s.endOf a ≤ begin_ := (hsplit a ha).resolve_right (Nat.not_lt.mpr hend)
  simp only [State.blocked, State.frontierEnd, hfooter, Option.any_map, Option.any_some,
    Option.any_eq_false, decide_eq_false_iff_not] at hb
  simp only [Option.all_eq_true, decide_eq_true_eq]
  intro b hmem
  have := hb b hmem
  omega

/-- The closing footer let go, for a lemma that then moves the newest footer there. -/
theorem drop_closing (hc : Cuts s) {σ : Nat} :
    Cuts { s with slots.closing := update s.slots.closing σ none } := by
  have hold : ∀ τ cut, update s.slots.closing σ none τ = some cut →
      s.slots.closing τ = some cut := by
    intro τ cut h
    by_cases hτ : τ = σ
    · subst hτ; simp at h
    · simpa [hτ] using h
  refine { hc with slot_fresh := ?_, closing := ?_ }
  · intro τ hτ
    obtain ⟨h₁, h₂, h₃, h₄⟩ := hc.slot_fresh τ hτ
    refine ⟨h₁, h₂, ?_, h₄⟩
    by_cases hτσ : τ = σ <;> simp [hτσ, h₃]
  · intro τ cut h
    exact hc.closing τ cut (hold τ cut h)

theorem promoteClosing (hc : Cuts s) (hs : Shape s) {σ : Nat} : Cuts (s.promoteClosing σ) := by
  unfold State.promoteClosing
  split
  · exact hc
  · next cut h =>
    split
    · exact hc
    · next hb =>
      have hσ : σ < s.attachments := by
        by_contra hσ
        rw [(hc.slot_fresh σ (by omega)).2.2.1] at h
        cases h
      exact hc.drop_closing.cover (hc.reached_closing hs h (by simpa using hb)) hσ

/-- The cut of a run just closed: every group lies before its footer. -/
theorem closing_at (hc : Cuts s) {σ : Nat} (cut : Boundary) {begin_ : Nat}
    (hσ : σ < s.attachments) (hle : cut.endBytes ≤ (s.writer σ).reserved)
    (hf : cut.footer = some begin_) (hlt : begin_ < cut.endBytes)
    (hall : ∀ b ∈ s.slots.order σ, s.endOf b ≤ begin_) :
    Cuts { s with slots.closing := update s.slots.closing σ (some cut) } := by
  refine { hc with slot_fresh := ?_, closing := ?_ }
  · intro τ hτ
    have hne : τ ≠ σ := Nat.ne_of_gt (Nat.lt_of_lt_of_le hσ hτ)
    simpa [hne] using hc.slot_fresh τ hτ
  · intro τ cut' h
    by_cases hτ : τ = σ
    · subst hτ
      simp only [update_self, Option.some.injEq] at h
      subst h
      exact ⟨hle, begin_, hf, hlt, fun b hb => .inl (hall b hb)⟩
    · exact hc.closing τ cut' (by simpa [hτ] using h)

/-! ## The writer moves -/

theorem setWriter (hc : Cuts s) {σ : Nat} {w : Writer}
    (h : (s.writer σ).reserved ≤ w.reserved) : Cuts (s.setWriter σ w) := by
  have hle : ∀ τ, (s.writer τ).reserved ≤ ((s.setWriter σ w).writer τ).reserved := by
    intro τ
    by_cases hτ : s.slots.segment τ = s.slots.segment σ
    · simpa [State.setWriter, State.writer, hτ] using h
    · simp [State.setWriter, State.writer, hτ]
  have hreach : ∀ τ e, Reached s τ e → Reached (s.setWriter σ w) τ e :=
    fun τ e hr => ⟨hr.1.trans (hle τ), hr.2⟩
  refine { hc with footed := ?_, closing := ?_, barrier := ?_, receipt := ?_,
                   failedThrough := ?_ }
  · intro τ cut h
    exact hreach τ _ (hc.footed τ cut h)
  · intro τ cut h
    obtain ⟨h₁, h₂⟩ := hc.closing τ cut h
    exact ⟨h₁.trans (hle τ), h₂⟩
  · intro τ cut h
    obtain ⟨h₁, h₂, h₃⟩ := hc.barrier τ cut h
    exact ⟨h₁, hreach τ _ h₂, h₃⟩
  · intro τ cut h
    obtain ⟨h₁, h₂⟩ := hc.receipt τ cut h
    exact ⟨hreach τ _ h₁, h₂⟩
  · intro τ e h
    obtain ⟨h₁, h₂⟩ := hc.failedThrough τ e h
    exact ⟨hreach τ _ h₁, h₂⟩

/-- A branch takes the last place of a file order, past everything the writer had reserved. -/
theorem queue (hc : Cuts s) (hs : Shape s) {σ b : Nat} {cut : Boundary} {w : Writer}
    (hq : s.branches.queued b = false) (hlt : (s.writer σ).reserved < cut.endBytes)
    (hle : cut.endBytes ≤ w.reserved) :
    Cuts { s.setWriter σ w with
      slots.order := update s.slots.order σ (s.slots.order σ ++ [b])
      branches.boundary := update s.branches.boundary b cut } := by
  have hnp : s.branches.passed b = false := by
    by_contra hp
    rw [hs.queued_of_ready b (hs.ready_of_passed b (by simpa using hp))] at hq
    cases hq
  have hnotin : ∀ τ, b ∉ s.slots.order τ := by
    intro τ h
    rw [((hs.mem_order τ b).mp h).1] at hq
    cases hq
  have hbound : ∀ τ, ∀ a ∈ s.slots.order τ,
      update s.branches.boundary b cut a = s.branches.boundary a := by
    intro τ a ha
    have hne : a ≠ b := fun h => hnotin τ (h ▸ ha)
    simp [hne]
  have hmem : ∀ τ a, a ∈ update s.slots.order σ (s.slots.order σ ++ [b]) τ →
      a ∈ s.slots.order τ ∨ τ = σ ∧ a = b := by
    intro τ a ha
    by_cases hτ : τ = σ
    · subst hτ
      simpa using ha
    · exact .inl (by simpa [hτ] using ha)
  have hsub : ∀ τ a, a ∈ s.slots.order τ → a ∈ update s.slots.order σ (s.slots.order σ ++ [b]) τ := by
    intro τ a ha
    by_cases hτ : τ = σ
    · subst hτ
      simp [ha]
    · simpa [hτ] using ha
  have hw := hc.setWriter (σ := σ) (w := w) (by omega)
  -- A position the writer had reserved lies before the new branch.
  have hreach : ∀ τ e, e ≤ (s.writer τ).reserved → Reached (s.setWriter σ w) τ e →
      Reached { s.setWriter σ w with
        slots.order := update s.slots.order σ (s.slots.order σ ++ [b])
        branches.boundary := update s.branches.boundary b cut } τ e := by
    intro τ e he hr
    refine ⟨hr.1, ?_⟩
    intro a ha hend
    rcases hmem τ a ha with h | ⟨rfl, rfl⟩
    · refine hr.2 a h ?_
      simp only [State.endOf, hbound τ a h] at hend
      exact hend
    · simp only [State.endOf, update_self] at hend
      omega
  refine { hw with
    submitted_max := ?_, submitted_mem := ?_, footed := ?_, closing := ?_, barrier := ?_,
    receipt := ?_, failedThrough := ?_ }
  · intro τ a ha hp hsubm
    rcases hmem τ a ha with h | ⟨rfl, rfl⟩
    · simp only [State.endOf, hbound τ a h]
      exact hc.submitted_max τ a h hp hsubm
    · exact absurd (hp.symm.trans hnp) (by simp)
  · intro τ cut' h
    obtain ⟨a, ha, hp, hcut⟩ := hc.submitted_mem τ cut' h
    exact ⟨a, hsub τ a ha, hp, (hbound τ a ha).trans hcut⟩
  · intro τ cut' h
    exact hreach τ _ (hc.footed τ cut' h).1 (hw.footed τ cut' h)
  · intro τ cut' h
    obtain ⟨h₁, begin_, h₂, h₃, h₄⟩ := hw.closing τ cut' h
    refine ⟨h₁, begin_, h₂, h₃, ?_⟩
    intro a ha
    rcases hmem τ a ha with h' | ⟨rfl, rfl⟩
    · simp only [State.endOf, hbound τ a h']
      exact h₄ a h'
    · have := (hc.closing τ cut' h).1
      simp only [State.endOf, update_self]
      omega
  · intro τ cut' h
    obtain ⟨h₁, h₂, h₃⟩ := hw.barrier τ cut' h
    exact ⟨h₁, hreach τ _ (hc.barrier τ cut' h).2.1.1 h₂, h₃⟩
  · intro τ cut' h
    obtain ⟨h₁, h₂⟩ := hw.receipt τ cut' h
    exact ⟨hreach τ _ (hc.receipt τ cut' h).1.1 h₁, h₂⟩
  · intro τ e h
    obtain ⟨h₁, h₂⟩ := hw.failedThrough τ e h
    exact ⟨hreach τ _ (hc.failedThrough τ e h).1.1 h₁, h₂⟩

end Cuts

/-! ## Barriers

What `next_cut` answers, once for every proof about it. Between actions a closing footer waits,
so promoting it again changes nothing. -/

/-- A cut a barrier may start at: past everything attempted, and either the newest footer or,
    of a failed writer whose groups all passed, the newest group. -/
def CutFor (s : State) (σ : Nat) (cut : Boundary) : Prop :=
  (∀ attempted, s.slots.attempted σ = some attempted → attempted < cut.endBytes) ∧
    ((s.writer σ).failed = false ∧ s.slots.footed σ = some cut ∨
      (s.writer σ).failed = true ∧ s.slots.submitted σ = some cut
        ∧ (s.slots.order σ).length ≤ s.slots.frontier σ)

namespace State

variable {s : State}

theorem promoteClosing_of_waiting (hw : Waiting s) {σ : Nat} : s.promoteClosing σ = s := by
  unfold promoteClosing
  split
  · rfl
  · next cut h => rw [if_pos (hw σ cut h)]

/-- What is owed lies past everything attempted. -/
theorem attempted_lt_of_owed {σ target : Nat} (ho : s.owed σ = true)
    (ht : s.wantedEnd σ = some target) {attempted : Nat}
    (ha : s.slots.attempted σ = some attempted) : attempted < target := by
  simpa [owed, ht, ha] using ho

theorem nextCutFailed_cases {σ : Nat} (hf : (s.writer σ).failed = true) :
    (∃ cut, CutFor s σ cut ∧ s.nextCutFailed σ = (some cut, s)) ∨
      s.nextCutFailed σ = (none, s) ∨
      s.nextCutFailed σ
        = (none, { s with slots.attempted := update s.slots.attempted σ (s.wantedEnd σ) }) := by
  unfold nextCutFailed
  split
  · exact .inr (.inl rfl)
  · next hlen =>
    split
    · next cut h =>
      refine .inl ⟨cut, ⟨?_, .inr ⟨hf, ?_, Nat.not_lt.mp hlen⟩⟩, rfl⟩
      · intro attempted ha
        have := (Option.filter_eq_some_iff.mp h).2
        simpa [ha] using this
      · exact (Option.filter_eq_some_iff.mp h).1
    · exact .inr (.inr rfl)

/-- What a turn of the barrier loop finds. -/
theorem nextCut_cases (hw : Waiting s) (σ : Nat) (answer : CloseAnswer) :
    s.nextCut σ answer = (none, s) ∨
      ∃ target, s.owed σ = true ∧ s.wantedEnd σ = some target ∧
        ((s.writer σ).failed = true ∧ s.nextCut σ answer = s.nextCutFailed σ ∨
          (s.writer σ).failed = false ∧
            ((∃ cut, CutFor s σ cut ∧ s.nextCut σ answer = (some cut, s)) ∨
              s.mustClose σ target = true
                ∧ s.nextCut σ answer = s.closeForCut σ target answer)) := by
  unfold nextCut
  split
  · next target ho ht =>
    rw [promoteClosing_of_waiting hw]
    split
    · next hf => exact .inr ⟨target, ho, ht, .inl ⟨hf, rfl⟩⟩
    · next hf =>
      have hf' : (s.writer σ).failed = false := by simpa using hf
      dsimp only
      split
      · next cut h =>
        obtain ⟨hfooted, hle⟩ := Option.filter_eq_some_iff.mp h
        have hle' : target ≤ cut.endBytes := by simpa using hle
        refine .inr ⟨target, ho, ht, .inr ⟨hf', .inl ⟨cut, ⟨?_, .inl ⟨hf', hfooted⟩⟩, rfl⟩⟩⟩
        intro attempted ha
        exact Nat.lt_of_lt_of_le (attempted_lt_of_owed ho ht ha) hle'
      · split
        · next hm => exact .inr ⟨target, ho, ht, .inr ⟨hf', .inr ⟨hm, rfl⟩⟩⟩
        · exact .inl rfl
  · exact .inl rfl

/-- Promoting a footer changes only where the newest footer is and what it covers. -/
theorem promoteClosing_fields {σ : Nat} : (s.promoteClosing σ).writers = s.writers ∧
    (s.promoteClosing σ).slots.attempted = s.slots.attempted ∧
    (s.promoteClosing σ).slots.barrier = s.slots.barrier ∧
    (s.promoteClosing σ).attachments = s.attachments ∧
    (s.promoteClosing σ).slots.segment = s.slots.segment := by
  unfold promoteClosing
  split
  · simp
  · split
    · simp
    · exact ⟨rfl, rfl, rfl, rfl, rfl⟩

theorem keepClosing_fields (σ : Nat) (cut : Boundary) :
    (s.keepClosing σ cut).writers = s.writers ∧
    (s.keepClosing σ cut).slots.attempted = s.slots.attempted ∧
    (s.keepClosing σ cut).slots.barrier = s.slots.barrier ∧
    (s.keepClosing σ cut).attachments = s.attachments ∧
    (s.keepClosing σ cut).slots.segment = s.slots.segment :=
  promoteClosing_fields (s := { s with slots.closing := update s.slots.closing σ (some cut) })

theorem writer_keepClosing {σ τ : Nat} {cut : Boundary} :
    (s.keepClosing σ cut).writer τ = s.writer τ := by
  obtain ⟨hwriters, -, -, -, hseg⟩ := keepClosing_fields (s := s) σ cut
  simp only [writer, hwriters, hseg]

/-- The cut a turn found may start a barrier in the state it left. -/
theorem cutFor_of_nextCut (hw : Waiting s) {σ : Nat} {answer : CloseAnswer} {cut : Boundary}
    {t : State} (h : s.nextCut σ answer = (some cut, t)) :
    CutFor t σ cut ∧ t.slots.barrier = s.slots.barrier ∧ t.attachments = s.attachments := by
  have hfailed : ∀ u : State, (u.writer σ).failed = true →
      u.nextCutFailed σ = (some cut, t) → CutFor t σ cut ∧ t = u := by
    intro u hf hu
    rcases nextCutFailed_cases hf with ⟨cut', hfor, h'⟩ | h' | h'
    · obtain ⟨hcut, rfl⟩ := Prod.mk.inj (h'.symm.trans hu)
      cases hcut
      exact ⟨hfor, rfl⟩
    · exact absurd (Prod.mk.inj (h'.symm.trans hu)).1 (by simp)
    · exact absurd (Prod.mk.inj (h'.symm.trans hu)).1 (by simp)
  rcases nextCut_cases hw σ answer with h' | ⟨target, ho, ht, h'⟩
  · exact absurd (Prod.mk.inj (h'.symm.trans h)).1 (by simp)
  · rcases h' with ⟨hf, h'⟩ | ⟨hf, ⟨cut', hfor, h'⟩ | ⟨-, h'⟩⟩
    · obtain ⟨hfor, rfl⟩ := hfailed s hf (h'.symm.trans h)
      exact ⟨hfor, rfl, rfl⟩
    · obtain ⟨hcut, rfl⟩ := Prod.mk.inj (h'.symm.trans h)
      cases hcut
      exact ⟨hfor, rfl, rfl⟩
    · rw [h'] at h
      cases answer with
      | closed footer =>
        obtain ⟨hcut, rfl⟩ := Prod.mk.inj h
        obtain ⟨hfooted, hle⟩ := Option.filter_eq_some_iff.mp hcut
        have hle' : target ≤ cut.endBytes := by simpa using hle
        obtain ⟨-, hattempted, hbarrier, hatt, -⟩ := keepClosing_fields
          (s := s.setWriter σ ((s.writer σ).closeRun (.closed footer)).2) σ
          ⟨(s.writer σ).reserved + footer, some (s.writer σ).reserved⟩
        refine ⟨⟨?_, .inl ⟨?_, hfooted⟩⟩, hbarrier, hatt⟩
        · intro attempted ha
          exact Nat.lt_of_lt_of_le
            (attempted_lt_of_owed ho ht ((congrFun hattempted σ).symm.trans ha)) hle'
        · refine (congrArg Writer.failed writer_keepClosing).trans ?_
          simpa [setWriter, writer, Writer.closeRun] using hf
      | refused =>
        simp only [closeForCut, Writer.closeRun, hf, Bool.false_eq_true, if_false,
          Prod.mk.injEq] at h
        exact absurd h.1 (by simp)
      | failed =>
        simp only [closeForCut, Writer.closeRun, if_true] at h
        obtain ⟨hfor, rfl⟩ := hfailed _ (by simp [setWriter, writer]) h
        exact ⟨hfor, rfl, rfl⟩

end State

namespace Cuts

variable {s : State}

/-- A cut a barrier may start at is reached. -/
theorem reached_cutFor (hc : Cuts s) (hs : Shape s) {σ : Nat} {cut : Boundary}
    (h : CutFor s σ cut) : Reached s σ cut.endBytes := by
  rcases h.2 with ⟨-, hf⟩ | ⟨-, hsub, hlen⟩
  · exact hc.footed σ cut hf
  · obtain ⟨b, hb, -, rfl⟩ := hc.submitted_mem σ cut hsub
    refine ⟨hs.end_le σ b hb, fun a ha _ => hs.passed_of_frontier ha ?_⟩
    rw [List.getElem?_eq_none hlen]
    rfl

/-- Nothing runs, and what was attempted moves on. -/
theorem attempted_at (hc : Cuts s) {σ e : Nat} (hb : s.slots.barrier σ = none)
    (he : ∀ attempted, s.slots.attempted σ = some attempted → attempted ≤ e) :
    Cuts { s with slots.attempted := update s.slots.attempted σ (some e) } := by
  refine { hc with barrier := ?_, receipt := ?_, failedThrough := ?_ }
  · intro τ cut h
    have hτ : τ ≠ σ := by
      rintro rfl
      exact absurd (h.symm.trans hb) (by simp)
    simp only [update_apply, if_neg hτ]
    exact hc.barrier τ cut h
  · intro τ cut h
    obtain ⟨h₁, attempted, h₂, h₃⟩ := hc.receipt τ cut h
    refine ⟨h₁, ?_⟩
    by_cases hτ : τ = σ
    · subst hτ
      exact ⟨e, by simp, h₃.trans (he _ h₂)⟩
    · exact ⟨attempted, by simpa [hτ] using h₂, h₃⟩
  · intro τ e' h
    obtain ⟨h₁, attempted, h₂, h₃⟩ := hc.failedThrough τ e' h
    refine ⟨h₁, ?_⟩
    by_cases hτ : τ = σ
    · subst hτ
      exact ⟨e, by simp, h₃.trans (he _ h₂)⟩
    · exact ⟨attempted, by simpa [hτ] using h₂, h₃⟩

theorem startBarrier (hc : Cuts s) (hs : Shape s) {σ : Nat} {cut : Boundary}
    (hσ : σ < s.attachments) (hb : s.slots.barrier σ = none) (h : CutFor s σ cut) :
    Cuts (s.startBarrier σ cut) := by
  have hreach := hc.reached_cutFor hs h
  have ha := hc.attempted_at hb fun attempted h' => Nat.le_of_lt (h.1 attempted h')
  refine Cuts.congr (s := { s with
    slots.attempted := update s.slots.attempted σ (some cut.endBytes)
    slots.barrier := update s.slots.barrier σ (some cut) }) ?_ rfl
  refine { ha with slot_fresh := ?_, barrier := ?_ }
  · intro τ hτ
    have hne : τ ≠ σ := Nat.ne_of_gt (Nat.lt_of_lt_of_le hσ hτ)
    simpa [hne] using hc.slot_fresh τ hτ
  · intro τ cut' h'
    by_cases hτ : τ = σ
    · subst hτ
      simp only [update_self, Option.some.injEq] at h'
      subst h'
      refine ⟨by simp, hreach, ?_, ?_⟩
      · intro old hold
        obtain ⟨-, attempted, h₁, h₂⟩ := hc.receipt τ old hold
        exact Nat.lt_of_le_of_lt h₂ (h.1 attempted h₁)
      · intro old hold
        obtain ⟨-, attempted, h₁, h₂⟩ := hc.failedThrough τ old hold
        exact Nat.lt_of_le_of_lt h₂ (h.1 attempted h₁)
    · exact ha.barrier τ cut' (by simpa [hτ] using h')

theorem nextCutFailed (hc : Cuts s) {σ : Nat} (hf : (s.writer σ).failed = true)
    (hb : s.slots.barrier σ = none) {target : Nat} (ho : s.owed σ = true)
    (ht : s.wantedEnd σ = some target) : Cuts (s.nextCutFailed σ).2 := by
  rcases State.nextCutFailed_cases hf with ⟨cut, -, h⟩ | h | h
  · rw [h]; exact hc
  · rw [h]; exact hc
  · rw [h, ht]
    exact hc.attempted_at hb fun attempted ha =>
      Nat.le_of_lt (State.attempted_lt_of_owed ho ht ha)

/-- The run held open is closed, and its footer kept until it is reached. -/
theorem keepClosing (hc : Cuts s) (hs : Shape s) {σ footer : Nat} (hσ : σ < s.attachments)
    (hpos : 0 < footer) :
    Cuts ((s.setWriter σ ((s.writer σ).closeRun (.closed footer)).2).keepClosing σ
      ⟨(s.writer σ).reserved + footer, some (s.writer σ).reserved⟩) := by
  have hle : (s.writer σ).reserved ≤ ((s.writer σ).closeRun (.closed footer)).2.reserved :=
    State.closeRun_reserved
  have hcw := hc.setWriter hle
  have hsw := hs.setWriter hle
  have hclosing := hcw.closing_at (σ := σ)
    ⟨(s.writer σ).reserved + footer, some (s.writer σ).reserved⟩ hσ
    (by simp [State.setWriter, State.writer, Writer.closeRun]) rfl (by simpa using hpos)
    (fun b hb => hs.end_le σ b hb)
  exact hclosing.promoteClosing (hsw.congr rfl)

theorem closeForCut (hc : Cuts s) (hs : Shape s) {σ target : Nat} {answer : CloseAnswer}
    (hσ : σ < s.attachments) (hv : answer.valid = true) (hb : s.slots.barrier σ = none)
    (ho : s.owed σ = true) (ht : s.wantedEnd σ = some target) :
    Cuts (s.closeForCut σ target answer).2 := by
  cases answer with
  | closed footer => exact hc.keepClosing hs hσ (by simpa [CloseAnswer.valid] using hv)
  | refused =>
    have hw := hc.setWriter (σ := σ) (w := s.writer σ) le_rfl
    cases hf : (s.writer σ).failed with
    | true =>
      simp only [State.closeForCut, Writer.closeRun, hf, if_true]
      exact hw.nextCutFailed (by simpa [State.setWriter, State.writer] using hf) hb ho ht
    | false =>
      simp only [State.closeForCut, Writer.closeRun, hf, Bool.false_eq_true, if_false]
      exact hw
  | failed =>
    have hw := hc.setWriter (σ := σ) (w := { s.writer σ with failed := true }) le_rfl
    simp only [State.closeForCut, Writer.closeRun, if_true]
    exact hw.nextCutFailed (by simp [State.setWriter, State.writer]) hb ho ht

/-- The cut a turn found may start a barrier, in the state it left. -/
theorem nextCut (hc : Cuts s) (hs : Shape s) (hw : Waiting s) {σ : Nat} {answer : CloseAnswer}
    (hσ : σ < s.attachments) (hv : answer.valid = true) (hb : s.slots.barrier σ = none) :
    Cuts (s.nextCut σ answer).2 := by
  rcases State.nextCut_cases hw σ answer with h | ⟨target, ho, ht, h⟩
  · rw [h]; exact hc
  · rcases h with ⟨hf, h⟩ | ⟨-, ⟨cut, -, h⟩ | ⟨-, h⟩⟩
    · rw [h]; exact hc.nextCutFailed hf hb ho ht
    · rw [h]; exact hc
    · rw [h]; exact hc.closeForCut hs hσ hv hb ho ht

theorem settle (hc : Cuts s) {σ : Nat} {cut : Boundary} (durable : Bool)
    (hb : s.slots.barrier σ = some cut) :
    Cuts { s with
      slots.barrier := update s.slots.barrier σ none
      slots.receipt := if durable then update s.slots.receipt σ (some cut) else s.slots.receipt
      slots.failedThrough :=
        if durable then s.slots.failedThrough
        else update s.slots.failedThrough σ (some cut.endBytes) } := by
  have hσ : σ < s.attachments := by
    by_contra hσ
    rw [(hc.slot_fresh σ (by omega)).2.2.2.1] at hb
    cases hb
  obtain ⟨hattempted, hreach, hreceipt, hfailed⟩ := hc.barrier σ cut hb
  refine { hc with slot_fresh := ?_, barrier := ?_, receipt := ?_, failedThrough := ?_ }
  · intro τ hτ
    have hne : τ ≠ σ := Nat.ne_of_gt (Nat.lt_of_lt_of_le hσ hτ)
    cases durable <;> simpa [hne] using hc.slot_fresh τ hτ
  · intro τ cut' h
    have hτ : τ ≠ σ := by
      rintro rfl
      simp at h
    obtain ⟨h₁, h₂, h₃, h₄⟩ := hc.barrier τ cut' (by simpa [hτ] using h)
    cases durable with
    | true => exact ⟨h₁, h₂, by simpa [hτ] using h₃, h₄⟩
    | false => exact ⟨h₁, h₂, h₃, by simpa [hτ] using h₄⟩
  · intro τ cut' h
    cases durable with
    | true =>
      by_cases hτ : τ = σ
      · subst hτ
        obtain rfl : cut = cut' := by simpa using h
        exact ⟨hreach, _, hattempted, le_rfl⟩
      · exact hc.receipt τ cut' (by simpa [hτ] using h)
    | false => exact hc.receipt τ cut' h
  · intro τ e h
    cases durable with
    | true => exact hc.failedThrough τ e h
    | false =>
      by_cases hτ : τ = σ
      · subst hτ
        obtain rfl : cut.endBytes = e := by simpa using h
        exact ⟨hreach, _, hattempted, le_rfl⟩
      · exact hc.failedThrough τ e (by simpa [hτ] using h)

end Cuts

/-! ## A closing footer waits -/

namespace Waiting

variable {s : State}

/-- Every other slot's closing footer waits. -/
def But (σ : Nat) (s : State) : Prop :=
  ∀ τ ≠ σ, ∀ cut, s.slots.closing τ = some cut → s.blocked τ cut = true

theorem promoteClosing {σ : Nat} (hw : But σ s) : Waiting (s.promoteClosing σ) := by
  have hblocked : ∀ τ cut, (s.promoteClosing σ).blocked τ cut = s.blocked τ cut := by
    intro τ cut
    have := congrArg (fun u : State => u.blocked τ cut) (State.shape_promoteClosing (s := s) (σ := σ))
    exact this
  intro τ cut h
  rw [hblocked]
  unfold State.promoteClosing at h
  by_cases hτ : τ = σ
  · subst hτ
    split at h
    · next hn => exact absurd (hn.symm.trans h) (by simp)
    · next cut' hc =>
      split at h
      · next hb =>
        obtain rfl := Option.some.inj (hc.symm.trans h)
        exact hb
      · simp [State.cover] at h
  · refine hw τ hτ cut ?_
    split at h
    · exact h
    · split at h
      · exact h
      · simpa [State.cover, hτ] using h

theorem pass {σ b : Nat} (hw : But σ s) : But σ (s.pass σ b) := by
  have hclosing : (s.pass σ b).slots.closing = s.slots.closing := by
    unfold State.pass
    dsimp only
    split
    · unfold State.passSubmitted State.countPassed
      dsimp only
      split <;> split <;> rfl
    · unfold State.passDropped
      dsimp only
      split <;> rfl
  intro τ hτ cut h
  rw [hclosing] at h
  have := hw τ hτ cut h
  have hblocked : (s.pass σ b).blocked τ cut = s.blocked τ cut := by
    have h := congrArg (fun u : State => u.blocked τ cut) (State.shape_pass (s := s) (σ := σ) (b := b))
    refine h.trans ?_
    simp only [State.blocked, State.frontierEnd, State.shape, update_apply, if_neg hτ]
    rfl
  rw [hblocked]
  exact this

theorem passFrom {σ : Nat} {l : List Nat} (hw : But σ s) : But σ (s.passFrom σ l) := by
  induction l generalizing s with
  | nil => exact hw
  | cons b rest ih =>
    rw [State.passFrom]
    split
    · exact ih (pass hw)
    · exact hw

theorem passReady {σ : Nat} (hw : Waiting s) : Waiting (s.passReady σ) :=
  promoteClosing (passFrom fun τ _ cut h => hw τ cut h)

theorem keepClosing {σ : Nat} {cut : Boundary} (hw : Waiting s) :
    Waiting (s.keepClosing σ cut) := by
  refine promoteClosing ?_
  intro τ hτ cut' h
  exact hw τ cut' (by simpa [hτ] using h)

/-- A group frozen later is behind the one that is waited for. -/
theorem queue {σ b : Nat} (cut : Boundary) {w : Writer} (hs : Shape s)
    (hq : s.branches.queued b = false) (hw : Waiting s) :
    Waiting { s.setWriter σ w with
      slots.order := update s.slots.order σ (s.slots.order σ ++ [b])
      branches.boundary := update s.branches.boundary b cut } := by
  intro τ cut' h
  have hold := hw τ cut' h
  simp only [State.blocked, State.frontierEnd, Option.any_map, Option.any_eq_true] at hold ⊢
  obtain ⟨a, ha, hle⟩ := hold
  have hne : a ≠ b := by
    rintro rfl
    rw [((hs.mem_order τ a).mp (List.mem_of_getElem? ha)).1] at hq
    cases hq
  refine ⟨a, ?_, ?_⟩
  · by_cases hτ : τ = σ
    · subst hτ
      simp only [update_self, State.setWriter]
      rw [List.getElem?_append_left (List.getElem?_eq_some_iff.mp ha).1]
      exact ha
    · simp only [update_apply, if_neg hτ]
      exact ha
  · simp only [State.endOf, update_apply, if_neg hne]
    exact hle

theorem nextCutFailed {σ : Nat} (hf : (s.writer σ).failed = true) (hw : Waiting s) :
    Waiting (s.nextCutFailed σ).2 := by
  rcases State.nextCutFailed_cases hf with ⟨cut, -, h⟩ | h | h <;>
    · rw [h]; exact hw

theorem nextCut (hw : Waiting s) (σ : Nat) (answer : CloseAnswer) :
    Waiting (s.nextCut σ answer).2 := by
  rcases State.nextCut_cases hw σ answer with h | ⟨target, ho, ht, h⟩
  · rw [h]; exact hw
  · rcases h with ⟨hf, h⟩ | ⟨hf, ⟨cut, -, h⟩ | ⟨-, h⟩⟩
    · rw [h]; exact nextCutFailed hf hw
    · rw [h]; exact hw
    · rw [h]
      cases answer with
      | closed footer => exact keepClosing (s := s.setWriter σ _) hw
      | refused =>
        simp only [State.closeForCut, Writer.closeRun, hf, Bool.false_eq_true, if_false]
        exact hw
      | failed =>
        simp only [State.closeForCut, Writer.closeRun, if_true]
        exact nextCutFailed (s := s.setWriter σ _) (by simp [State.setWriter, State.writer]) hw

end Waiting

/-! ## Every reachable state -/

section

variable {s : State}

theorem cuts_transferAll {g : Nat} {chosen : List (Nat × Placement)}
    {rows : List (Option Nat)} : (s.transferAll g chosen rows).cuts = s.cuts := by
  induction chosen generalizing s rows with
  | nil => rfl
  | cons c chosen ih =>
    cases rows with
    | nil => rfl
    | cons row rows => exact (ih (s := s.transfer g c.1 c.2 row)).trans rfl

theorem cuts_makeGroup {chosen : List (Nat × Placement)} :
    (s.makeGroup chosen).cuts = s.cuts := by
  have hrows : (s.reserveRows chosen).2.1.cuts = s.cuts :=
    cuts_of_rowless State.rowless_reserveRows
  unfold State.makeGroup
  split
  · next rows t heq =>
    rw [heq] at hrows
    exact (cuts_of_rowless State.rowless_unreserveRows).trans hrows
  · next rows t heq =>
    rw [heq] at hrows
    exact (cuts_transferAll (s := t)).trans hrows

theorem cuts_decideGroup {g : Nat} {answer : WalAnswer} :
    (s.decideGroup g answer).cuts = s.cuts := by
  have hthaw : ((s.groups.branches g).foldl State.thaw s).cuts = s.cuts :=
    State.view_foldl (v := State.cuts) (f := State.thaw) (fun _ _ => rfl) _
  have hanswer : ∀ t : State, (t.answerGroup g answer).cuts = t.cuts := by
    intro t
    cases answer with
    | accepted reserved =>
      exact (cuts_of_rowless (State.view_foldl (fun _ _ => State.rowless_obligeBranch) _)).trans rfl
    | refused failure =>
      exact (cuts_of_rowless (State.view_foldl (fun _ _ => State.rowless_unreserve) _)).trans rfl
    | unknown failure reserved =>
      exact (cuts_of_rowless (State.view_foldl (fun _ _ => State.rowless_pinBranch) _)).trans rfl
  exact (cuts_of_core State.core_decideGroup).trans ((hanswer _).trans hthaw)

theorem cuts_unwindGroup {g : Nat} {failure : Errc} :
    (s.unwindGroup g failure).cuts = s.cuts := by
  have hfold := State.view_foldl (v := State.cuts) (s := s)
    (f := fun s b => ((s.thaw b).unreserve b).failBranch b (some failure))
    (fun t b => (cuts_of_rowless (State.rowless_unreserve (s := t.thaw b))).trans rfl)
    (s.groups.branches g)
  have hpublish := cuts_of_core (State.view_foldl (v := State.core)
    (s := s.unwound g failure) (f := State.publishUnfrozen)
    (fun _ _ => State.core_publishUnfrozen) (s.groups.branches g))
  exact Eq.trans hpublish hfold

/-- The ready flag moves no cut. -/
theorem Cuts.submitted_flag (hc : Cuts s) {f : Nat → Bool}
    (hf : ∀ b, s.branches.passed b = true → f b = true → s.branches.submitted b = true) :
    Cuts { s with branches.submitted := f } := by
  refine { hc with submitted_max := ?_ }
  intro σ b hb hp hsub
  exact hc.submitted_max σ b hb hp (hf b hp hsub)

/-- The cut invariant between actions. -/
structure Placed (s : State) : Prop where
  shape : Shape s
  cuts : Cuts s
  waiting : Waiting s

theorem Placed.markReady (hp : Placed s) {b : Nat} {f : Nat → Bool}
    (hq : s.branches.queued b = true) (hr : s.branches.ready b = false)
    (hf : ∀ c, f c = true → c = b ∨ s.branches.submitted c = true)
    (hdec : s.branches.placement b = .wal → s.groups.walDecided (s.branches.group b) = true)
    (hacc : s.branches.placement b = .wal → f b = true →
      s.groups.walAccepted (s.branches.group b) = true) :
    Cuts ({ s with branches.submitted := f }.markReady b) ∧
      Waiting ({ s with branches.submitted := f }.markReady b) := by
  have hnp : s.branches.passed b = false := by
    by_contra h
    rw [hp.shape.ready_of_passed b (by simpa using h)] at hr
    cases hr
  have hflag : Cuts { s with branches.submitted := f } := by
    refine hp.cuts.submitted_flag ?_
    intro c hpc hfc
    refine (hf c hfc).resolve_left ?_
    rintro rfl
    rw [hnp] at hpc
    cases hpc
  have hs := hp.shape.ready_flags hq hf hdec hacc
  have hready : Cuts { s with
      branches.submitted := f, branches.ready := update s.branches.ready b true } :=
    hflag.congr rfl
  have hpass := hready.passFrom hs (σ := s.branches.slot b) rfl
  have hc := hpass.promoteClosing (hs.passFrom rfl) (σ := s.branches.slot b)
  have hw : Waiting { s with
      branches.submitted := f, branches.ready := update s.branches.ready b true } :=
    hp.waiting
  have hview := cuts_of_core (State.core_publishReady (σ := s.branches.slot b) (s := State.passReady
    { s with branches.submitted := f, branches.ready := update s.branches.ready b true }
    (s.branches.slot b)))
  exact ⟨hc.congr hview, hw.passReady.congr hview⟩

/-- What makes a frozen branch ready: it was submitted, or it failed or was dropped. -/
theorem Placed.submitBranch (hp : Placed s) {b : Nat} {failure : Option Errc}
    (hq : s.branches.queued b = true) (hr : s.branches.ready b = false)
    (hcan : s.canSubmit b = true) :
    Cuts (s.submitBranch b failure) ∧ Waiting (s.submitBranch b failure) := by
  obtain ⟨hdec, hacc⟩ := hp.shape.accepted_of_canSubmit hcan
  have hfail : Placed (s.failBranch b failure) :=
    ⟨hp.shape.congr rfl, hp.cuts.congr rfl, hp.waiting⟩
  exact hfail.markReady hq hr (fun _ => submitted_of_update) hdec fun h _ => hacc h

theorem Placed.dropBranch (hp : Placed s) {b : Nat} (hq : s.branches.queued b = true)
    (hr : s.branches.ready b = false) (hcan : s.canDrop b = true) :
    Cuts (s.markReady b) ∧ Waiting (s.markReady b) := by
  simp only [State.canDrop, Bool.and_eq_true, decide_eq_true_eq] at hcan
  refine hp.markReady (f := s.branches.submitted) hq hr (fun _ h => .inr h)
    (fun _ => hcan.1.2) ?_
  intro _ h
  rw [hp.shape.ready_of_submitted b h] at hr
  cases hr

theorem Placed.releaseHold (hp : Placed s) {σ : Nat} {answer : CloseAnswer}
    (hσ : σ < s.attachments) (hv : answer.valid = true) :
    Cuts (s.releaseHold σ answer) ∧ Waiting (s.releaseHold σ answer) := by
  cases answer with
  | closed footer =>
    exact ⟨hp.cuts.keepClosing hp.shape hσ (by simpa [CloseAnswer.valid] using hv),
      Waiting.keepClosing (s := s.setWriter σ _) hp.waiting⟩
  | refused =>
    exact ⟨hp.cuts.setWriter (w := s.writer σ) le_rfl, hp.waiting⟩
  | failed =>
    exact ⟨hp.cuts.setWriter (w := { s.writer σ with failed := true }) le_rfl, hp.waiting⟩

theorem Placed.barrierTurn (hp : Placed s) {σ : Nat} {unit : Bool} {answer : CloseAnswer}
    (hloop : s.slots.looping σ = true) (hnone : s.slots.barrier σ = none)
    (hv : answer.valid = true) :
    Cuts (s.barrierTurn σ unit answer) ∧ Waiting (s.barrierTurn σ unit answer) := by
  have hσ := hp.cuts.looping_lt σ hloop
  have hc := hp.cuts.nextCut hp.shape hp.waiting hσ hv hnone
  have hw := hp.waiting.nextCut σ answer
  have hs := hp.shape.nextCut σ answer
  unfold State.barrierTurn
  split
  · next cut t heq =>
    obtain ⟨hfor, hbarrier, hatt⟩ := State.cutFor_of_nextCut hp.waiting heq
    rw [heq] at hc hw hs
    split
    · exact ⟨Cuts.startBarrier (s := t) hc hs (hatt ▸ hσ) (hbarrier ▸ hnone) hfor, hw⟩
    · exact ⟨hc, hw⟩
  · next t heq =>
    rw [heq] at hc hw
    exact ⟨hc, hw⟩

theorem Cuts.attach (hc : Cuts s) {place segment depth : Nat} :
    Cuts { s with
      slots.attached := update s.slots.attached s.attachments true
      slots.place := update s.slots.place s.attachments place
      slots.segment := update s.slots.segment s.attachments segment
      slots.retry := update s.slots.retry s.attachments { depth }
      slots.looping := update s.slots.looping s.attachments true
      attachments := s.attachments + 1 } := by
  have hfresh := hc.slot_fresh s.attachments le_rfl
  have hreach : ∀ τ e, τ ≠ s.attachments → Reached s τ e → Reached { s with
      slots.attached := update s.slots.attached s.attachments true
      slots.place := update s.slots.place s.attachments place
      slots.segment := update s.slots.segment s.attachments segment
      slots.retry := update s.slots.retry s.attachments { depth }
      slots.looping := update s.slots.looping s.attachments true
      attachments := s.attachments + 1 } τ e := by
    intro τ e hτ hr
    simpa [Reached, State.writer, State.endOf, hτ] using hr
  -- The new slot has no cut yet, and every other slot has its old segment.
  have hne : ∀ {τ : Nat} {f : Nat → Option Boundary} {cut : Boundary},
      f s.attachments = none → f τ = some cut → τ ≠ s.attachments := by
    rintro τ f cut h₁ h₂ rfl
    exact absurd (h₁.symm.trans h₂) (by simp)
  refine { hc with
    attached_lt := ?_, looping_lt := ?_, slot_fresh := ?_, footed := ?_, closing := ?_,
    barrier := ?_, receipt := ?_, failedThrough := ?_ }
  · intro τ hτ
    by_cases h : τ = s.attachments
    · exact h ▸ Nat.lt_succ_self _
    · exact Nat.lt_succ_of_lt (hc.attached_lt τ (by simpa [h] using hτ))
  · intro τ hτ
    by_cases h : τ = s.attachments
    · exact h ▸ Nat.lt_succ_self _
    · exact Nat.lt_succ_of_lt (hc.looping_lt τ (by simpa [h] using hτ))
  · intro τ hτ
    exact hc.slot_fresh τ (Nat.le_of_succ_le hτ)
  · intro τ cut h
    exact hreach τ _ (hne hfresh.2.1 h) (hc.footed τ cut h)
  · intro τ cut h
    have := hc.closing τ cut h
    simpa [State.writer, State.endOf, hne hfresh.2.2.1 h] using this
  · intro τ cut h
    obtain ⟨h₁, h₂, h₃⟩ := hc.barrier τ cut h
    exact ⟨h₁, hreach τ _ (hne hfresh.2.2.2.1 h) h₂, h₃⟩
  · intro τ cut h
    obtain ⟨h₁, h₂⟩ := hc.receipt τ cut h
    exact ⟨hreach τ _ (hne hfresh.2.2.2.2.1 h) h₁, h₂⟩
  · intro τ e h
    obtain ⟨h₁, h₂⟩ := hc.failedThrough τ e h
    have hτ : τ ≠ s.attachments := by
      rintro rfl
      exact absurd (hfresh.2.2.2.2.2.symm.trans h) (by simp)
    exact ⟨hreach τ _ hτ h₁, h₂⟩

theorem Cuts.leave (hc : Cuts s) {attached looping : Nat → Bool}
    (ha : ∀ τ, attached τ = true → s.slots.attached τ = true)
    (hl : ∀ τ, looping τ = true → s.slots.looping τ = true) :
    Cuts { s with slots.attached := attached, slots.looping := looping } :=
  { hc with
    attached_lt := fun τ h => hc.attached_lt τ (ha τ h)
    looping_lt := fun τ h => hc.looping_lt τ (hl τ h) }

theorem Cuts.writerFails (hc : Cuts s) {segment : Nat} :
    Cuts { s with
      writers := update s.writers segment { s.writers segment with failed := true } } := by
  refine hc.congr ?_
  have hwriters : (fun i => ({ reserved := (update s.writers segment
      { s.writers segment with failed := true } i).reserved } : Writer))
      = fun i => { reserved := (s.writers i).reserved } := by
    funext i
    by_cases hi : i = segment
    · subst hi; simp
    · simp [hi]
  simp only [State.cuts, hwriters]

theorem of_update_false {f : Nat → Bool} {σ τ : Nat} (h : update f σ false τ = true) :
    f τ = true := by
  by_cases hτ : τ = σ
  · subst hτ; simp at h
  · simpa [hτ] using h

theorem Placed.freeze (hp : Placed s) {g b : Nat} {rest : List Nat} {answer : FreezeAnswer}
    (hf : s.formation = .freezing g (b :: rest))
    (hcan : (s.writer (s.branches.slot b)).canFreeze (s.branches.placement b) answer = true) :
    Cuts (s.freeze b (.ok answer)) ∧ Waiting (s.freeze b (.ok answer)) := by
  have hq : s.branches.queued b = false :=
    hp.shape.left_unqueued b (by rw [hf]; simp [Formation.left])
  obtain ⟨hlt, heq⟩ := Shape.freeze_cut hcan
  have hc := hp.cuts.queue hp.shape (σ := s.branches.slot b)
    (w := (s.writer (s.branches.slot b)).freeze answer) hq hlt (le_of_eq heq)
  have hw := hp.waiting.queue (σ := s.branches.slot b)
    ((s.writer (s.branches.slot b)).freezeCut answer)
    (w := (s.writer (s.branches.slot b)).freeze answer) hp.shape hq
  have hview := congrArg (fun t : State => { t.cuts with
    slots.order := update t.slots.order (s.branches.slot b)
      (t.slots.order (s.branches.slot b) ++ [b])
    branches.boundary := update t.branches.boundary b
      ((s.writer (s.branches.slot b)).freezeCut answer) })
    (State.core_frozeItems (σ := s.branches.slot b) (l := s.branches.items b)
      (s := s.setWriter (s.branches.slot b) ((s.writer (s.branches.slot b)).freeze answer)))
  exact ⟨hc.congr hview, hw.congr hview⟩

theorem Placed.barrierDone (hp : Placed s) {σ : Nat} {cut : Boundary} {failure : Option Errc}
    (hrun : s.slots.barrier σ = some cut) :
    Cuts (s.barrierDone σ cut failure) ∧ Waiting (s.barrierDone σ cut failure) := by
  have hc := hp.cuts.settle failure.isNone hrun
  have hw : Waiting { s with
      slots.barrier := update s.slots.barrier σ none
      slots.receipt :=
        if failure.isNone then update s.slots.receipt σ (some cut) else s.slots.receipt
      slots.failedThrough :=
        if failure.isNone then s.slots.failedThrough
        else update s.slots.failedThrough σ (some cut.endBytes) } := hp.waiting
  unfold State.barrierDone State.settleBarrier
  exact ⟨hc.congr ((cuts_of_core State.core_publishReady).trans rfl),
    hw.congr ((cuts_of_core State.core_publishReady).trans rfl)⟩

/-- **One action keeps every cut in its place.** -/
theorem Placed.took (hp : Placed s) {a : Act} {s' : State} (h : Took s a s') : Placed s' := by
  have same : ∀ {t : State}, t.cuts = s.cuts → Cuts t ∧ Waiting t :=
    fun hview => ⟨hp.cuts.congr hview, hp.waiting.congr hview⟩
  have hcw : Cuts s' ∧ Waiting s' := by
    cases h with
    | attach => exact ⟨hp.cuts.attach, hp.waiting⟩
    | quiesce | sync | restorePinned | dischargeDecision | dischargePublication | append
    | grantRejected | grant | abandon | abandonOpened | rotate | release | offer =>
      exact same rfl
    | detach =>
      exact ⟨(hp.cuts.leave (fun _ => of_update_false) fun _ h => h).congr rfl, hp.waiting⟩
    | prepared => exact same (cuts_of_core State.core_admitRequest)
    | wake => exact same (cuts_of_core State.core_tryJoin)
    | failForming | failSegment => exact same (cuts_of_core State.core_dropForming)
    | makeGroup => exact same cuts_makeGroup
    | unwindGroup => exact same cuts_unwindGroup
    | freezeFailed => exact same rfl
    | freeze hf hcan =>
      obtain ⟨hc, hw⟩ := hp.freeze hf hcan
      exact ⟨hc.congr rfl, hw⟩
    | refuse | unoffered | accepted | refused | unknown => exact same cuts_decideGroup
    | submitBranch _ hq hr hcan => exact hp.submitBranch hq hr hcan
    | dropBranch _ hq hr hcan => exact hp.dropBranch hq hr hcan
    | settleWal =>
      exact same ((cuts_of_core (State.view_foldl (fun _ _ => State.core_publishQueued) _)).trans rfl)
    | barrierTurn hloop hnone hvalid => exact hp.barrierTurn hloop hnone hvalid
    | barrierDone hrun => exact hp.barrierDone hrun
    | releaseHold hatt _ hvalid => exact hp.releaseHold (hp.cuts.attached_lt _ hatt) hvalid
    | loopReturn =>
      exact ⟨hp.cuts.leave (fun _ h => h) fun _ => of_update_false, hp.waiting⟩
    | writerFails => exact ⟨hp.cuts.writerFails, hp.waiting⟩
  exact ⟨hp.shape.took h, hcw.1, hcw.2⟩

theorem Placed.initial (maximumRequests rows : Nat) (writers : Nat → Writer) (reserved : Cursor) :
    Placed (initial maximumRequests rows writers reserved) := by
  refine ⟨Shape.initial maximumRequests rows writers reserved, ?_, ?_⟩
  · constructor <;> simp [Append.initial]
  · intro σ cut h
    simp [Append.initial] at h

end
end KwaqueStorage.Append
