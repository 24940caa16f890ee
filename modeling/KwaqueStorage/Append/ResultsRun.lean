import KwaqueStorage.Append.Results

/-!
# Every run tells the truth, once and in order

The rest of the owner against `Results`: a new member, a new group, a freeze, a decision, a
branch made ready, a receipt. Each either leaves every published branch's grounds alone or moves
them forward, since what a published outcome rests on is never taken back: a decided group stays
decided, a ready branch stays ready, and receipts of a slot only grow.
-/

namespace KwaqueStorage.Append

open Lib
open Function (update update_apply update_self)

namespace ResultsBut

variable {s : State} {due : List Nat}

/-! ## Grounds only move forward -/

/-- The grounds of a published branch, in a state that kept them. -/
theorem regrounded (hr : ResultsBut due s) {s' : State}
    (hitems : s'.items = s.items)
    (h : ∀ b st, (∃ i ∈ s.branches.items b, s.items.outcome i ≠ none) →
      Grounded s b st → Grounded s' b st) :
    ∀ i b o, s'.items.branch i = some b → s'.items.outcome i = some o →
      Grounded s' b o.status := by
  intro i b o hi ho
  rw [hitems] at hi ho
  refine h b o.status ⟨i, (hr.mem_items b i).mpr hi, ?_⟩ (hr.grounded i b o hi ho)
  rw [ho]
  simp

/-- A frozen branch is made ready. -/
theorem ready_flags (hr : ResultsBut due s) {b : Nat} {f : Nat → Bool}
    (hq : s.branches.queued b = true) (hnr : s.branches.ready b = false)
    (hf : ∀ c, c ≠ b → f c = s.branches.submitted c) :
    ResultsBut due { s with
      branches.submitted := f
      branches.ready := update s.branches.ready b true } := by
  refine { hr with grounded := hr.regrounded rfl ?_ }
  rintro a (_ | _ | _) - hg
  · exact hg
  · rcases hg with h | ⟨hready, hsub, h⟩
    · exact .inl h
    · have hab : a ≠ b := by
        rintro rfl
        exact absurd (hnr.symm.trans hready) (by simp)
      exact .inr ⟨by simpa [hab] using hready, (hf a hab).trans hsub, h⟩
  · exact hg

/-- A slot's receipt moves forward. -/
theorem receipt_mono (hr : ResultsBut due s) (receipt : Nat → Option Boundary)
    (h : ∀ σ cut, s.slots.receipt σ = some cut →
      ∃ cut', receipt σ = some cut' ∧ cut.endBytes ≤ cut'.endBytes) :
    ResultsBut due { s with slots.receipt := receipt } := by
  refine { hr with grounded := hr.regrounded rfl ?_ }
  rintro a (_ | _ | _) - hg
  · obtain ⟨hq, hwal | ⟨cut, hcut, hle⟩⟩ := hg
    · exact ⟨hq, .inl hwal⟩
    · obtain ⟨cut', hcut', hle'⟩ := h _ cut hcut
      exact ⟨hq, .inr ⟨cut', hcut', hle.trans hle'⟩⟩
  · exact hg
  · exact hg

variable {g : Nat}

/-- The WAL barrier of a group settles. -/
theorem settle_group (hr : ResultsBut due s) {failure : Option Errc} {receipt : Option Cursor}
    (hno : s.groups.walSettled g = false) :
    ResultsBut due { s with
      groups.walSettled := update s.groups.walSettled g true
      groups.walFailure := update s.groups.walFailure g failure
      groups.walReceipt := update s.groups.walReceipt g receipt } := by
  refine { hr with grounded := hr.regrounded rfl ?_ }
  rintro a (_ | _ | _) - hg
  · obtain ⟨hq, ⟨hp, hset, hrec, hfail⟩ | hcut⟩ := hg
    · have hne : s.branches.group a ≠ g := by
        intro h
        rw [h, hno] at hset
        cases hset
      refine ⟨hq, .inl ⟨hp, ?_, ?_, ?_⟩⟩
      · simpa [hne] using hset
      · simpa [hne] using hrec
      · simpa [hne] using hfail
    · exact ⟨hq, .inr hcut⟩
  · exact hg
  · exact hg

/-- A group is decided, and its branches that never froze are due. -/
theorem decide_flags (hr : ResultsBut [] s) (hs : Shape s) (accepted unknown : Nat → Bool)
    (failure : Nat → Option Errc) (hg : s.groups.walDecided g = false)
    (ha : ∀ g' ≠ g, accepted g' = s.groups.walAccepted g')
    (hu : ∀ g' ≠ g, unknown g' = s.groups.walUnknown g') (hf : ∀ g' ≠ g, failure g' = s.groups.walFailure g') :
    ResultsBut (s.groups.branches g) { s with
      groups.walDecided := update s.groups.walDecided g true
      groups.walAccepted := accepted
      groups.walUnknown := unknown
      groups.walFailure := failure } := by
  have hdec : ∀ g', s.groups.walDecided g' = true →
      update s.groups.walDecided g true g' = true := by
    intro g' h
    by_cases hne : g' = g <;> simp [hne, h]
  have hne : ∀ g', s.groups.walDecided g' = true → g' ≠ g := by
    rintro g' h rfl
    exact absurd (hg.symm.trans h) (by simp)
  refine { hr with unqueued_published := ?_, decided_published := ?_, released := ?_,
                   grounded := hr.regrounded rfl ?_ }
  · intro b hq hpub
    exact hdec _ (hr.unqueued_published b hq hpub)
  · intro b hlt hq hd
    by_cases hbg : s.branches.group b = g
    · exact .inr (hbg ▸ (hs.branch_group b hlt).2)
    · simp only [update_apply, if_neg hbg] at hd
      rcases hr.decided_published b hlt hq hd with h | h
      · exact .inl h
      · cases h
  · rintro b (_ | _ | _) - hgr
    · obtain ⟨hq, ⟨hp, hset, hrec, hfail⟩ | hcut⟩ := hgr
      · have hd : s.groups.walDecided (s.branches.group b) = true := by
          by_contra h
          rw [(hs.undecided _ (by simpa using h)).2.2] at hset
          cases hset
        exact ⟨hq, .inl ⟨hp, hset, hrec, (hf _ (hne _ hd)).trans hfail⟩⟩
      · exact ⟨hq, .inr hcut⟩
    · rcases hgr with ⟨hq, hd⟩ | ⟨hready, hsub, hp | ⟨hd, hacc, hunk⟩⟩
      · exact .inl ⟨hq, hdec _ hd⟩
      · exact .inr ⟨hready, hsub, .inl hp⟩
      · exact .inr ⟨hready, hsub, .inr ⟨hdec _ hd, (ha _ (hne _ hd)).trans hacc,
          (hu _ (hne _ hd)).trans hunk⟩⟩
    · exact hgr
  · intro g' hrel
    exact ⟨hdec g' (hr.released g' hrel).1, (hr.released g' hrel).2⟩

/-- Every branch of a group is published, so it may be released. -/
theorem release (hr : ResultsBut due s) (hdec : s.groups.walDecided g = true)
    (hpub : ∀ b ∈ s.groups.branches g, s.branches.published b = true) :
    ResultsBut due { s with groups.released := update s.groups.released g true } := by
  refine { hr with released := ?_ }
  intro g' hg'
  by_cases hne : g' = g
  · subst hne
    exact ⟨hdec, hpub⟩
  · exact hr.released g' (by simpa [hne] using hg')

/-- When a group has no branch left, all of them are published. -/
theorem published_of_remaining (hr : ResultsBut due s) (hs : Shape s) (h : s.groups.remaining g = 0)
    : ∀ b ∈ s.groups.branches g, s.branches.published b = true := by
  intro b hb
  have hfin : finished s b = true := by
    have := hr.remaining g
    rw [h, eq_comm, List.countP_eq_zero] at this
    simpa using this b hb
  unfold finished at hfin
  split at hfin
  · next hq =>
    obtain ⟨k, hk⟩ := List.mem_iff_getElem?.mp
      ((hs.mem_order (s.branches.slot b) b).mpr ⟨hq, rfl⟩)
    have hhead : k < s.slots.head (s.branches.slot b) := by
      rw [hs.idxOf_eq hk] at hfin
      exact of_decide_eq_true hfin
    exact (hr.published_iff _ k b hk).mpr (Nat.lt_of_lt_of_le hhead (hr.head_le _))
  · exact hfin

/-! ## A freeze -/

/-- A branch left to freeze takes the last place of its slot's file order. -/
theorem queue (hr : ResultsBut due s) (hs : Shape s) {b : Nat} (cut : Boundary)
    (hq : s.branches.queued b = false)
    (hdec : s.groups.walDecided (s.branches.group b) = false) :
    ResultsBut due { s with
      slots.order := update s.slots.order (s.branches.slot b)
        (s.slots.order (s.branches.slot b) ++ [b])
      branches.boundary := update s.branches.boundary b cut
      branches.queued := update s.branches.queued b true } := by
  have hunpub : s.branches.published b = false := by
    by_contra h
    rw [hr.unqueued_published b hq (by simpa using h)] at hdec
    cases hdec
  have hnone : ∀ i, s.items.branch i = some b → s.items.outcome i = none :=
    fun i hi => hr.no_outcome hunpub ((hr.mem_items b i).mpr hi)
  have hnotin : ∀ τ, b ∉ s.slots.order τ := by
    intro τ h
    rw [((hs.mem_order τ b).mp h).1] at hq
    cases hq
  -- A place of the new order is an old one, or the new last one.
  have hplace : ∀ τ k a, (update s.slots.order (s.branches.slot b)
      (s.slots.order (s.branches.slot b) ++ [b]) τ)[k]? = some a →
      (s.slots.order τ)[k]? = some a ∨
        τ = s.branches.slot b ∧ a = b ∧ (s.slots.order τ).length ≤ k := by
    intro τ k a ha
    by_cases hτ : τ = s.branches.slot b
    · subst hτ
      rw [update_self, List.getElem?_append] at ha
      split at ha
      · exact .inl ha
      · next hk =>
        have := List.mem_of_getElem? ha
        exact .inr ⟨rfl, by simpa using this, Nat.not_lt.mp hk⟩
    · rw [update_apply, if_neg hτ] at ha
      exact .inl ha
  have hfin : ∀ a, finished { s with
      slots.order := update s.slots.order (s.branches.slot b)
        (s.slots.order (s.branches.slot b) ++ [b])
      branches.boundary := update s.branches.boundary b cut
      branches.queued := update s.branches.queued b true } a = finished s a := by
    intro a
    by_cases hab : a = b
    · subst hab
      have hlen := (hr.head_le (s.branches.slot a)).trans (hr.cursor_le (s.branches.slot a))
      simp only [finished, update_self, if_true, hq, Bool.false_eq_true, if_false,
        hunpub, List.idxOf_append_of_notMem (hnotin _)]
      simpa using hlen
    · cases haq : s.branches.queued a with
      | false => simp only [finished, update_apply, if_neg hab, haq]; rfl
      | true =>
        simp only [finished, update_apply, if_neg hab, haq, if_true]
        by_cases haσ : s.branches.slot a = s.branches.slot b
        · have hmem := (hs.mem_order (s.branches.slot b) a).mpr ⟨haq, haσ⟩
          simp only [haσ, if_true, List.idxOf_append_of_mem hmem]
        · simp only [haσ, if_false]
  refine { hr with
    cursor_le := ?_, published_iff := ?_, unqueued_published := ?_, decided_published := ?_, installed_order := ?_, unbroken := ?_, after_failure := ?_,
    grounded := ?_, remaining := ?_ }
  · intro τ
    refine (hr.cursor_le τ).trans ?_
    by_cases hτ : τ = s.branches.slot b
    · subst hτ; simp
    · simp [hτ]
  · intro τ k a ha
    rcases hplace τ k a ha with h | ⟨rfl, rfl, hk⟩
    · exact hr.published_iff τ k a h
    · have := hr.cursor_le (s.branches.slot a)
      simp only [hunpub, Bool.false_eq_true, false_iff]
      omega
  · intro a haq hpub
    have hab : a ≠ b := by
      rintro rfl
      simp at haq
    exact hr.unqueued_published a (by simpa [hab] using haq) hpub
  · intro a hlt haq hd
    have hab : a ≠ b := by
      rintro rfl
      simp at haq
    exact hr.decided_published a hlt (by simpa [hab] using haq) hd
  · intro τ
    have hfilter : s.installed.filter (frozenIn { s with
        slots.order := update s.slots.order (s.branches.slot b)
          (s.slots.order (s.branches.slot b) ++ [b])
        branches.boundary := update s.branches.boundary b cut
        branches.queued := update s.branches.queued b true } τ)
        = s.installed.filter (frozenIn s τ) := by
      refine List.filter_congr fun i hi => ?_
      have ho := (hr.mem_installed i).mp hi
      simp only [frozenIn]
      cases hb : s.items.branch i with
      | none => rfl
      | some a =>
        have hab : a ≠ b := by
          rintro rfl
          exact ho (hnone i hb)
        simp [hab]
    rw [hfilter, hr.installed_order τ]
    by_cases hτ : τ = s.branches.slot b
    · subst hτ
      simp only [update_self, List.take_append_of_le_length (hr.cursor_le _)]
    · simp only [update_apply, if_neg hτ]
  · intro i a o ha haq hbrk ho
    have hab : a ≠ b := by
      rintro rfl
      exact absurd ((hnone i ha).symm.trans ho) (by simp)
    exact hr.unbroken i a o ha (by simpa [hab] using haq) hbrk ho
  · intro τ j k a c i i' o o' hj hk hjk hi hi' ho ho' hnd
    have hj' := (hplace τ j a hj).resolve_right fun h =>
      absurd ((hnone i (h.2.1 ▸ hi)).symm.trans ho) (by simp)
    have hk' := (hplace τ k c hk).resolve_right fun h =>
      absurd ((hnone i' (h.2.1 ▸ hi')).symm.trans ho') (by simp)
    exact hr.after_failure τ j k a c i i' o o' hj' hk' hjk hi hi' ho ho' hnd
  · refine hr.regrounded rfl ?_
    rintro a st ⟨i, hi, ho⟩ hg
    have hab : a ≠ b := by
      rintro rfl
      exact ho (hnone i ((hr.mem_items a i).mp hi))
    cases st with
    | durable =>
      obtain ⟨haq, hby⟩ := hg
      refine ⟨by simpa [hab] using haq, ?_⟩
      rcases hby with h | ⟨cut', hcut, hle⟩
      · exact .inl h
      · exact .inr ⟨cut', hcut, by simpa [State.endOf, hab] using hle⟩
    | notWritten =>
      rcases hg with ⟨haq, hd⟩ | h
      · exact .inl ⟨by simpa [hab] using haq, hd⟩
      · exact .inr h
    | uncertain =>
      have haq : s.branches.queued a = true := hg
      show update s.branches.queued b true a = true
      simpa [hab] using haq
  · intro g
    refine (hr.remaining g).trans (List.countP_congr fun a _ => ?_)
    rw [hfin]

/-! ## Members -/

/-- A new member forms. -/
theorem pushItem (hr : ResultsBut due s) {r : Request} {entry : Bool} :
    ResultsBut due (s.pushItem r entry) := by
  obtain ⟨hb, ho⟩ := hr.item_fresh s.itemCount le_rfl
  have hnotin : s.itemCount ∉ s.forming := fun h =>
    Nat.lt_irrefl _ ((hr.mem_forming _).mp h).1
  refine { hr with item_fresh := ?_, forming_nodup := ?_, mem_forming := ?_, branch_lt := ?_ }
  · intro i hi
    exact hr.item_fresh i (Nat.le_of_succ_le hi)
  · refine List.nodup_append.mpr ⟨hr.forming_nodup, List.nodup_singleton _, ?_⟩
    rintro i hi j hj rfl
    rw [List.mem_singleton] at hj
    exact hnotin (hj ▸ hi)
  · intro i
    simp only [State.pushItem, List.mem_append, List.mem_singleton, hr.mem_forming]
    by_cases hi : i = s.itemCount
    · subst hi
      simp [hb, ho]
    · have : i < s.itemCount ↔ i < s.itemCount + 1 := by omega
      simp [hi, this]
  · intro i b hi
    have hne : i ≠ s.itemCount := by
      rintro rfl
      exact absurd (hb.symm.trans hi) (by simp)
    simp only [State.pushItem, update_apply, if_neg hne]
    exact hr.branch_lt i b hi

/-- Forming members are told they were not written, and leave. -/
theorem dropForming (hr : ResultsBut due s) {failure : Errc} {failing : Nat → Bool} :
    ResultsBut due (s.dropForming failure failing) := by
  have hform : ∀ i ∈ s.forming.filter failing, i ∈ s.forming :=
    fun i hi => (List.mem_filter.mp hi).1
  have heq := State.installAll_eq (s := s)
    { status := .notWritten, failure := some failure } (hr.forming_nodup.filter failing)
    fun i hi => ((hr.mem_forming i).mp (hform i hi)).2.2
  have hbranch : ∀ i b, s.items.branch i = some b → i ∉ s.forming.filter failing := by
    intro i b hb hi
    rw [((hr.mem_forming i).mp (hform i hi)).2.1] at hb
    cases hb
  unfold State.dropForming
  rw [heq]
  refine { hr with
    item_fresh := ?_, forming_nodup := hr.forming_nodup.filter _, mem_forming := ?_,
    outcome_iff := ?_, installed_nodup := ?_, mem_installed := ?_, installed_order := ?_,
    unbroken := ?_, after_failure := ?_, unbranched := ?_, grounded := ?_ }
  · intro i hi
    obtain ⟨h₁, h₂⟩ := hr.item_fresh i hi
    refine ⟨h₁, ?_⟩
    have hnot : i ∉ s.forming.filter failing := by
      intro h
      have := ((hr.mem_forming i).mp (hform i h)).1
      have hi' : s.itemCount ≤ i := hi
      omega
    simp only [if_neg hnot]
    exact h₂
  · intro i
    simp only [List.mem_filter, hr.mem_forming]
    cases hf : failing i with
    | true =>
      simp only [Bool.not_true, Bool.false_eq_true, and_false, and_true, false_iff]
      rintro ⟨h₁, h₂, h₃⟩
      split at h₃
      · cases h₃
      · next h => exact h ⟨h₁, h₂, h₃⟩
    | false => simp
  · intro i b hb
    simp only [if_neg (hbranch i b hb)]
    exact hr.outcome_iff i b hb
  · refine List.nodup_append.mpr ⟨hr.installed_nodup, hr.forming_nodup.filter _, ?_⟩
    rintro i hi j hj rfl
    exact (hr.mem_installed i).mp hi ((hr.mem_forming i).mp (hform i hj)).2.2
  · intro i
    by_cases hi : i ∈ s.forming.filter failing
    · simp [hi]
    · simp only [List.mem_append, hi, or_false, if_false]
      exact hr.mem_installed i
  · intro σ
    have hnil : (s.forming.filter failing).filter (frozenIn s σ) = [] := by
      rw [List.filter_eq_nil_iff]
      intro i hi
      simp [frozenIn, ((hr.mem_forming i).mp (hform i hi)).2.1]
    have hsplit : (s.installed ++ s.forming.filter failing).filter (frozenIn s σ)
        = s.installed.filter (frozenIn s σ) := by
      rw [List.filter_append, hnil, List.append_nil]
    exact hsplit.trans (hr.installed_order σ)
  · intro i b o hb hq hbrk ho
    simp only [if_neg (hbranch i b hb)] at ho
    exact hr.unbroken i b o hb hq hbrk ho
  · intro σ j k a b i i' o o' hj hk hjk hi hi' ho ho' hnd
    simp only [if_neg (hbranch i a hi)] at ho
    simp only [if_neg (hbranch i' b hi')] at ho'
    exact hr.after_failure σ j k a b i i' o o' hj hk hjk hi hi' ho ho' hnd
  · intro i o hb ho
    by_cases hi : i ∈ s.forming.filter failing
    · simp only [if_pos hi] at ho
      exact (Option.some.inj ho) ▸ rfl
    · simp only [if_neg hi] at ho
      exact hr.unbranched i o hb ho
  · intro i b o hb ho
    simp only [if_neg (hbranch i b hb)] at ho
    exact hr.grounded i b o hb ho

/-- What a group that is being made leaves to its next branch. -/
structure Fresh (s : State) (g : Nat) : Prop where
  undecided : s.groups.walDecided g = false
  formed : ∀ g', ∀ a ∈ s.groups.branches g', a < s.branchCount
  order : ∀ σ, ∀ a ∈ s.slots.order σ, a < s.branchCount

/-- A forming set becomes a branch. -/
theorem transfer (hr : ResultsBut due s) {g σ : Nat} {placement : Placement} {row : Option Nat}
    (hf : Fresh s g) : ResultsBut due (s.transfer g σ placement row) := by
  have hmem : ∀ i ∈ s.formingOf σ, i ∈ s.forming ∧ s.items.slot i = σ := by
    intro i hi
    simpa [State.formingOf] using hi
  have hunpub : s.branches.published s.branchCount = false := by
    by_contra h
    exact Nat.lt_irrefl _ (hr.published_lt _ (by simpa using h))
  -- A member with a branch or an outcome does not form.
  have hbranch : ∀ i, s.items.branch i ≠ none ∨ s.items.outcome i ≠ none → i ∉ s.formingOf σ := by
    intro i h hi
    obtain ⟨-, h₁, h₂⟩ := (hr.mem_forming i).mp (hmem i hi).1
    rcases h with h | h
    · exact h h₁
    · exact h h₂
  have hold : ∀ i a, (if i ∈ s.formingOf σ then some s.branchCount else s.items.branch i) = some a →
      s.items.outcome i ≠ none → s.items.branch i = some a ∧ a ≠ s.branchCount := by
    intro i a ha ho
    rw [if_neg (hbranch i (.inr ho))] at ha
    exact ⟨ha, Nat.ne_of_lt (hr.branch_lt i a ha).1⟩
  refine { hr with
    item_fresh := ?_, forming_nodup := hr.forming_nodup.filter _, mem_forming := ?_,
    mem_items := ?_, items_nodup := ?_, branch_lt := ?_, published_lt := ?_, outcome_iff := ?_,
    unqueued_published := ?_, decided_published := ?_, installed_order := ?_, unbroken := ?_,
    after_failure := ?_, unbranched := ?_, grounded := ?_, remaining := ?_ }
  · intro i hi
    obtain ⟨h₁, h₂⟩ := hr.item_fresh i hi
    refine ⟨?_, h₂⟩
    have hnot : i ∉ s.formingOf σ := by
      intro h
      have := ((hr.mem_forming i).mp (hmem i h).1).1
      have hi' : s.itemCount ≤ i := hi
      omega
    simp only [State.transfer, if_neg hnot]
    exact h₁
  · intro i
    simp only [State.transfer, List.mem_filter, decide_not, Bool.not_eq_eq_eq_not, Bool.not_true,
      decide_eq_false_iff_not, hr.mem_forming]
    have hiff : i ∈ s.formingOf σ ↔ (i < s.itemCount ∧ s.items.branch i = none ∧
        s.items.outcome i = none) ∧ s.items.slot i = σ := by
      simp [State.formingOf, hr.mem_forming]
    by_cases hi : i ∈ s.formingOf σ
    · have := hiff.mp hi
      simp [hi, this.2]
    · simp only [hi, if_false]
      constructor
      · exact fun h => h.1
      · exact fun h => ⟨h, fun hσ => hi (hiff.mpr ⟨h, hσ⟩)⟩
  · intro b i
    simp only [State.transfer]
    by_cases hb : b = s.branchCount
    · subst hb
      rw [update_self]
      by_cases hi : i ∈ s.formingOf σ
      · simp [hi]
      · simp only [hi, if_false, false_iff]
        intro h
        exact Nat.lt_irrefl _ (hr.branch_lt i _ h).1
    · rw [update_apply, if_neg hb, hr.mem_items b i]
      by_cases hi : i ∈ s.formingOf σ
      · have := ((hr.mem_forming i).mp (hmem i hi).1).2.1
        simp [hi, this, Ne.symm hb]
      · simp [hi]
  · intro b
    simp only [State.transfer]
    by_cases hb : b = s.branchCount
    · subst hb
      rw [update_self]
      exact hr.forming_nodup.filter _
    · rw [update_apply, if_neg hb]
      exact hr.items_nodup b
  · intro i b hb
    simp only [State.transfer] at hb ⊢
    by_cases hi : i ∈ s.formingOf σ
    · rw [if_pos hi] at hb
      cases hb
      exact ⟨Nat.lt_succ_self _, by simpa using (hmem i hi).2⟩
    · rw [if_neg hi] at hb
      obtain ⟨h₁, h₂⟩ := hr.branch_lt i b hb
      exact ⟨Nat.lt_succ_of_lt h₁, by simpa [Nat.ne_of_lt h₁] using h₂⟩
  · intro b hb
    exact Nat.lt_succ_of_lt (hr.published_lt b hb)
  · intro i b hb
    simp only [State.transfer] at hb ⊢
    by_cases hi : i ∈ s.formingOf σ
    · rw [if_pos hi] at hb
      cases hb
      simp [hunpub, ((hr.mem_forming i).mp (hmem i hi).1).2.2]
    · rw [if_neg hi] at hb
      exact hr.outcome_iff i b hb
  · intro b hq hpub
    have hne : b ≠ s.branchCount := Nat.ne_of_lt (hr.published_lt b hpub)
    simp only [State.transfer, update_apply, if_neg hne]
    exact hr.unqueued_published b hq hpub
  · intro b hlt hq hd
    simp only [State.transfer] at hlt hd ⊢
    by_cases hb : b = s.branchCount
    · subst hb
      rw [update_self, hf.undecided] at hd
      cases hd
    · rw [update_apply, if_neg hb] at hd
      exact hr.decided_published b (by omega) hq hd
  · intro τ
    have hfilter : s.installed.filter (frozenIn (s.transfer g σ placement row) τ)
        = s.installed.filter (frozenIn s τ) := by
      refine List.filter_congr fun i hi => ?_
      have ho := (hr.mem_installed i).mp hi
      simp only [frozenIn, State.transfer, if_neg (hbranch i (.inr ho))]
      cases hb : s.items.branch i with
      | none => rfl
      | some a => simp [Nat.ne_of_lt (hr.branch_lt i a hb).1]
    refine hfilter.trans ((hr.installed_order τ).trans ?_)
    refine List.flatMap_congr fun a ha => ?_
    have hne : a ≠ s.branchCount := Nat.ne_of_lt (hf.order τ a (List.mem_of_mem_take ha))
    simp [State.transfer, hne]
  · intro i b o hb hq hbrk ho
    obtain ⟨hb', hne⟩ := hold i b hb (Option.ne_none_iff_exists'.mpr ⟨o, ho⟩)
    simp only [State.transfer, update_apply, if_neg hne] at hbrk
    exact hr.unbroken i b o hb' hq hbrk ho
  · intro τ j k a b i i' o o' hj hk hjk hi hi' ho ho' hnd
    exact hr.after_failure τ j k a b i i' o o' hj hk hjk
      (hold i a hi (Option.ne_none_iff_exists'.mpr ⟨o, ho⟩)).1
      (hold i' b hi' (Option.ne_none_iff_exists'.mpr ⟨o', ho'⟩)).1 ho ho' hnd
  · intro i o hb ho
    have ho' : s.items.outcome i ≠ none := Option.ne_none_iff_exists'.mpr ⟨o, ho⟩
    simp only [State.transfer, if_neg (hbranch i (.inr ho'))] at hb
    exact hr.unbranched i o hb ho
  · intro i b o hb ho
    obtain ⟨hb', hne⟩ := hold i b hb (Option.ne_none_iff_exists'.mpr ⟨o, ho⟩)
    have hg := hr.grounded i b o hb' ho
    cases hst : o.status with
    | durable =>
      rw [hst] at hg
      simpa [Grounded, DurableBy, State.transfer, State.endOf, hne] using hg
    | notWritten =>
      rw [hst] at hg
      simpa [Grounded, UnwrittenBy, State.transfer, hne] using hg
    | uncertain =>
      rw [hst] at hg
      exact hg
  · intro g'
    refine (hr.remaining g').trans (List.countP_congr fun a ha => ?_)
    have hne : a ≠ s.branchCount := Nat.ne_of_lt (hf.formed g' a ha)
    simp only [finished, State.transfer, update_apply, if_neg hne]

theorem Fresh.transfer {g σ : Nat} {placement : Placement} {row : Option Nat} (hf : Fresh s g) :
    Fresh (s.transfer g σ placement row) g :=
  { undecided := hf.undecided
    formed := fun g' a ha => Nat.lt_succ_of_lt (hf.formed g' a ha)
    order := fun σ a ha => Nat.lt_succ_of_lt (hf.order σ a ha) }

theorem transferAll (hr : ResultsBut due s) (hf : Fresh s g) (chosen : List (Nat × Placement))
    (rows : List (Option Nat)) :
    ResultsBut due (s.transferAll g chosen rows) ∧ Fresh (s.transferAll g chosen rows) g ∧
      (s.transferAll g chosen rows).branches.queued = s.branches.queued ∧
      (s.transferAll g chosen rows).branches.published = s.branches.published := by
  induction chosen generalizing s rows with
  | nil => exact ⟨hr, hf, rfl, rfl⟩
  | cons c chosen ih =>
    cases rows with
    | nil => exact ⟨hr, hf, rfl, rfl⟩
    | cons row rows => exact ih (hr.transfer hf) hf.transfer rows

/-- The group gets its branches. -/
theorem makeGroup_branches (hr : ResultsBut due s) (branches : List Nat)
    (hund : s.groups.walDecided g = false) (hq : ∀ a ∈ branches, s.branches.queued a = false)
    (hpub : ∀ a ∈ branches, s.branches.published a = false) :
    ResultsBut due { s with
      groups.branches := update s.groups.branches g branches
      groups.remaining := update s.groups.remaining g branches.length } := by
  refine { hr with remaining := ?_, released := ?_ }
  · intro g'
    by_cases hg : g' = g
    · subst hg
      simp only [update_self]
      rw [eq_comm, List.countP_eq_length]
      intro a ha
      simp [finished, hq a ha, hpub a ha]
    · simp only [update_apply, if_neg hg]
      exact hr.remaining g'
  · intro g' hrel
    have hne : g' ≠ g := by
      rintro rfl
      exact absurd (hund.symm.trans (hr.released g' hrel).1) (by simp)
    simp only [update_apply, if_neg hne]
    exact hr.released g' hrel

theorem makeGroup (hr : ResultsBut due s) (hs : Shape s) {chosen : List (Nat × Placement)} :
    ResultsBut due (s.makeGroup chosen) := by
  have hrows : (s.reserveRows chosen).2.1.rowless = s.rowless := State.rowless_reserveRows
  unfold State.makeGroup
  split
  · next rows t heq =>
    rw [heq] at hrows
    exact hr.congr (results_of_rowless (State.rowless_unreserveRows.trans hrows))
  · next rows t heq =>
    rw [heq] at hrows
    have ht : ResultsBut due t := hr.congr (results_of_rowless hrows)
    have hts : Shape t := hs.congr (State.shape_of_rowless hrows)
    have hf : Fresh t t.groupCount :=
      { undecided := (hts.group_fresh _ le_rfl).2
        formed := fun g' a ha => (hts.mem_group g' a ha).1
        order := fun σ a ha => hts.queued_lt ((hts.mem_order σ a).mp ha).1 }
    obtain ⟨hall, hfresh, hq, hp⟩ := ht.transferAll hf chosen rows
    have hge : ∀ a ∈ List.range' t.branchCount chosen.length, t.branchCount ≤ a := by
      intro a ha
      rw [List.mem_range'_1] at ha
      exact ha.1
    have hmade := hall.makeGroup_branches (g := t.groupCount)
      (List.range' t.branchCount chosen.length) hfresh.undecided
      (fun a ha => by rw [hq]; exact hts.branch_fresh a (hge a ha))
      (fun a ha => by
        rw [hp]
        by_contra h
        exact absurd (ht.published_lt a (by simpa using h)) (Nat.not_lt.mpr (hge a ha)))
    rw [List.length_range'] at hmade
    exact hmade.congr rfl

/-! ## Decisions -/

/-- The branches of a group that never froze are published, one after another. -/
theorem publishUnqueued (hs : Shape s) {l : List Nat} (hr : ResultsBut l s) (hn : l.Nodup)
    (hsub : ∀ b ∈ l, b ∈ s.groups.branches g) (hdec : s.groups.walDecided g = true)
    (hunpub : ∀ b ∈ l, s.branches.queued b = false → s.branches.published b = false) :
    ResultsBut [] (l.foldl State.publishUnqueued s) := by
  induction l generalizing s with
  | nil => exact hr
  | cons b rest ih =>
    obtain ⟨hb, hrest⟩ := List.nodup_cons.mp hn
    obtain ⟨hlt, hgroup⟩ := hs.mem_group g b (hsub b (by simp))
    rw [List.foldl_cons]
    cases hq : s.branches.queued b with
    | true =>
      have hstep : s.publishUnqueued b = s := by simp [State.publishUnqueued, hq]
      rw [hstep]
      refine ih hs ?_ hrest (fun c hc => hsub c (by simp [hc])) hdec
        fun c hc => hunpub c (by simp [hc])
      refine { hr with decided_published := ?_ }
      intro c hc hcq hd
      rcases hr.decided_published c hc hcq hd with h | h
      · exact .inl h
      · refine .inr ((List.mem_cons.mp h).resolve_left ?_)
        rintro rfl
        exact absurd (hq.symm.trans hcq) (by simp)
    | false =>
      have hstep : s.publishUnqueued b = s.publishUnfrozen b := by
        simp [State.publishUnqueued, hq]
      rw [hstep]
      have hcore := State.core_publishUnfrozen (s := s) (b := b)
      have hnext := hr.publishUnfrozen hs hlt hq (hunpub b (by simp) hq)
        (hgroup ▸ hdec) (fun a (ha : a ∈ b :: rest) => List.mem_cons.mp ha)
      have hs' := hs.congr (State.shape_of_core hcore)
      have hgroups : (s.publishUnfrozen b).groups.branches = s.groups.branches := by
        have := congrArg (fun t : State => t.groups.branches) hcore
        exact this
      have hdec' : (s.publishUnfrozen b).groups.walDecided = s.groups.walDecided := by
        have := congrArg (fun t : State => t.groups.walDecided) hcore
        exact this
      have hqueued : (s.publishUnfrozen b).branches.queued = s.branches.queued := by
        have := congrArg (fun t : State => t.branches.queued) hcore
        exact this
      refine ih hs' hnext hrest (fun c hc => by rw [hgroups]; exact hsub c (by simp [hc]))
        (by rw [hdec']; exact hdec) ?_
      intro c hc hcq
      rw [hqueued] at hcq
      have hcb : c ≠ b := fun h => hb (h ▸ hc)
      obtain ⟨row, -, hv⟩ := hs.verdictOf_ok b
      have hpub : (s.publishUnfrozen b).branches.published = update s.branches.published b true := by
        rw [State.publishUnfrozen, hv]
        exact publishBranch_fields.2
      rw [hpub, update_apply, if_neg hcb]
      exact hunpub c (by simp [hc]) hcq

theorem publishQueued (hs : Shape s) (hr : ResultsBut due s) {l : List Nat} :
    ResultsBut due (l.foldl State.publishQueued s) := by
  induction l generalizing s with
  | nil => exact hr
  | cons b rest ih =>
    rw [List.foldl_cons]
    refine ih (hs.congr (State.shape_of_core State.core_publishQueued)) ?_
    unfold State.publishQueued
    split
    · exact hr.publishReady hs
    · exact hr

/-- The branches of an undecided group that never froze are not published. -/
theorem unpublished_of_undecided (hr : ResultsBut due s) (hs : Shape s) (hg : s.groups.walDecided g = false)
    : ∀ b ∈ s.groups.branches g,
      s.branches.queued b = false → s.branches.published b = false := by
  intro b hb hq
  by_contra h
  have := hr.unqueued_published b hq (by simpa using h)
  rw [(hs.mem_group g b hb).2, hg] at this
  cases this

/-- The failure an answer leaves. -/
def answerFailure (s : State) (g : Nat) : WalAnswer → Nat → Option Errc
  | .accepted _ => s.groups.walFailure
  | .refused failure => update s.groups.walFailure g failure
  | .unknown failure _ => update s.groups.walFailure g (some failure)

theorem results_installAnswer (g : Nat) (answer : WalAnswer) :
    (s.installAnswer g answer).results = ({ s.decidedFlags g answer with
      groups.walFailure := answerFailure s g answer } : State).results := by
  have hthaw : ((s.groups.branches g).foldl State.thaw s).results = s.results :=
    State.view_foldl (v := State.results) (f := State.thaw) (fun _ _ => rfl) _
  have hflags := congrArg (fun t : State => { t.decidedFlags g answer with
    groups.walFailure := answerFailure t g answer }) hthaw
  cases answer with
  | accepted reserved =>
    exact ((results_of_rowless (State.view_foldl (fun _ _ => State.rowless_obligeBranch) _)).trans
      rfl).trans hflags
  | refused failure =>
    exact ((results_of_rowless (State.view_foldl (fun _ _ => State.rowless_unreserve) _)).trans
      rfl).trans hflags
  | unknown failure reserved =>
    exact ((results_of_rowless (State.view_foldl (fun _ _ => State.rowless_pinBranch) _)).trans
      rfl).trans hflags

theorem decideGroup (hr : Results s) (hs : Shape s) {answer : WalAnswer} (hg : s.formation.group? = some g)
    : Results (s.decideGroup g answer) := by
  have hund : s.groups.walDecided g = false :=
    (hs.undecided_iff g (hs.formation_lt g hg)).mpr hg
  have hview := results_installAnswer (s := s) g answer
  have hinst : ResultsBut (s.groups.branches g) (s.installAnswer g answer) := by
    refine (hr.decide_flags hs (s.decidedFlags g answer).groups.walAccepted
      (s.decidedFlags g answer).groups.walUnknown (answerFailure s g answer) hund ?_ ?_ ?_).congr (hview.trans rfl)
    · intro g' hne
      cases answer <;> simp [State.decidedFlags, hne]
    · intro g' hne
      cases answer <;> simp [State.decidedFlags, hne]
    · intro g' hne
      cases answer <;> simp [answerFailure, hne]
  have hshape := hs.installAnswer answer hg
  have hbranches : (s.installAnswer g answer).groups.branches = s.groups.branches := by
    have := congrArg (fun t : State => t.groups.branches) hview
    exact this
  have hdecided : (s.installAnswer g answer).groups.walDecided
      = update s.groups.walDecided g true := by
    have := congrArg (fun t : State => t.groups.walDecided) hview
    exact this
  have hsame : (s.installAnswer g answer).branches.queued = s.branches.queued ∧
      (s.installAnswer g answer).branches.published = s.branches.published := by
    have h₁ := congrArg (fun t : State => t.branches.queued) hview
    have h₂ := congrArg (fun t : State => t.branches.published) hview
    exact ⟨h₁, h₂⟩
  have hpublished := publishUnqueued hshape (g := g) hinst (hs.group_nodup g)
    (fun b hb => by rw [hbranches]; exact hb) (by rw [hdecided]; simp)
    (by
      rw [hsame.1, hsame.2]
      exact hr.unpublished_of_undecided hs hund)
  refine publishQueued ?_ hpublished
  exact hshape.congr (State.shape_of_core (State.view_foldl (fun _ _ => State.core_publishUnqueued) _))

/-- Where no branch froze, all of them are published as unfrozen. -/
theorem foldl_publishUnfrozen {l : List Nat} (h : ∀ b ∈ l, s.branches.queued b = false) :
    l.foldl State.publishUnfrozen s = l.foldl State.publishUnqueued s := by
  induction l generalizing s with
  | nil => rfl
  | cons b rest ih =>
    have hstep : s.publishUnqueued b = s.publishUnfrozen b := by
      simp [State.publishUnqueued, h b (by simp)]
    rw [List.foldl_cons, List.foldl_cons, hstep]
    refine ih fun c hc => ?_
    have hqueued := congrArg (fun t : State => t.branches.queued c)
      (State.core_publishUnfrozen (s := s) (b := b))
    exact Eq.trans hqueued (h c (by simp [hc]))

theorem unwindGroup (hr : Results s) (hs : Shape s) {failure : Errc}
    (hf : s.formation = .freezing g (s.groups.branches g)) : Results (s.unwindGroup g failure) := by
  have hg : s.formation.group? = some g := by rw [hf]; rfl
  have hund : s.groups.walDecided g = false :=
    (hs.undecided_iff g (hs.formation_lt g hg)).mpr hg
  have hq : ∀ b ∈ s.groups.branches g, s.branches.queued b = false := by
    intro b hb
    exact hs.left_unqueued b (by rw [hf]; exact hb)
  have hfold := State.view_foldl (v := State.results) (s := s)
    (f := fun s b => ((s.thaw b).unreserve b).failBranch b (some failure))
    (fun t b => (results_of_rowless (State.rowless_unreserve (s := t.thaw b))).trans rfl)
    (s.groups.branches g)
  have hview : (s.unwound g failure).results = ({ s with
      groups.walDecided := update s.groups.walDecided g true } : State).results :=
    congrArg (fun u : State => { u with
      groups.walDecided := update u.groups.walDecided g true }) hfold
  have hinst : ResultsBut (s.groups.branches g) (s.unwound g failure) :=
    (hr.decide_flags hs _ _ _ hund (fun _ _ => rfl) (fun _ _ => rfl) (fun _ _ => rfl)).congr
      (hview.trans rfl)
  have hshape := hs.unwound failure hg
  have hbranches : (s.unwound g failure).groups.branches = s.groups.branches := by
    have := congrArg (fun t : State => t.groups.branches) hview
    exact this
  have hdecided : (s.unwound g failure).groups.walDecided = update s.groups.walDecided g true := by
    have := congrArg (fun t : State => t.groups.walDecided) hview
    exact this
  have hsame : (s.unwound g failure).branches.queued = s.branches.queued ∧
      (s.unwound g failure).branches.published = s.branches.published := by
    have h₁ := congrArg (fun t : State => t.branches.queued) hview
    have h₂ := congrArg (fun t : State => t.branches.published) hview
    exact ⟨h₁, h₂⟩
  have hpublished := publishUnqueued hshape (g := g) hinst (hs.group_nodup g)
    (fun b hb => by rw [hbranches]; exact hb) (by rw [hdecided]; simp)
    (by
      rw [hsame.1, hsame.2]
      exact hr.unpublished_of_undecided hs hund)
  have hcore := State.view_foldl (v := State.core) (s := s.unwound g failure)
    (f := State.publishUnqueued) (fun _ _ => State.core_publishUnqueued) (s.groups.branches g)
  have hq' : ∀ b ∈ s.groups.branches g, (s.unwound g failure).branches.queued b = false := by
    rw [hsame.1]
    exact hq
  unfold State.unwindGroup
  rw [foldl_publishUnfrozen hq']
  have hshape' := hshape.congr (State.shape_of_core hcore)
  have hdec : (((s.groups.branches g).foldl State.publishUnqueued
      (s.unwound g failure)).groups.walDecided g) = true := by
    have := congrArg (fun t : State => t.groups.walDecided g) hcore
    exact this.trans (by simp [State.core, hdecided])
  refine ResultsBut.congr (hpublished.release (g := g) hdec ?_) rfl
  -- Decided and unfrozen, and nothing is due any more.
  intro b hb
  obtain ⟨hlt, hgroup⟩ := hshape'.mem_group g b hb
  have hbq : ((s.groups.branches g).foldl State.publishUnqueued
      (s.unwound g failure)).branches.queued b = false := by
    have hmem := congrArg (fun t : State => t.groups.branches g) hcore
    have hqueued := congrArg (fun t : State => t.branches.queued b) hcore
    have hb' : b ∈ (s.unwound g failure).groups.branches g :=
      Eq.mp (congrArg (fun l => b ∈ l) hmem) hb
    exact Eq.trans hqueued (hq' b (hbranches ▸ hb'))
  rcases hpublished.decided_published b hlt hbq (by rw [hgroup]; exact hdec) with h | h
  · exact h
  · cases h

/-! ## Passing and barriers -/

theorem results_pass {σ b : Nat} : (s.pass σ b).results = s.results := by
  have hcount : ∀ t : State, (t.countPassed σ b).results = t.results := by
    intro t
    unfold State.countPassed
    dsimp only
    split <;> rfl
  unfold State.pass
  dsimp only
  split
  · unfold State.passSubmitted
    dsimp only
    split <;> exact hcount _
  · exact (results_of_rowless State.rowless_passDropped).trans rfl

theorem results_promoteClosing {σ : Nat} : (s.promoteClosing σ).results = s.results := by
  unfold State.promoteClosing
  split
  · rfl
  · split <;> rfl

theorem passReady (hr : ResultsBut due s) {σ : Nat} : ResultsBut due (s.passReady σ) := by
  have hloop : ∀ (l : List Nat) (t : State), ResultsBut due t → ResultsBut due (t.passFrom σ l) := by
    intro l
    induction l with
    | nil => exact fun t ht => ht
    | cons b rest ih =>
      intro t ht
      rw [State.passFrom]
      split
      · exact ih _ (ht.congr results_pass)
      · exact ht
  exact (hloop _ s hr).congr results_promoteClosing

theorem markReady (hr : ResultsBut due s) (hs : Shape s) {b : Nat} {f : Nat → Bool}
    (hq : s.branches.queued b = true) (hnr : s.branches.ready b = false)
    (hf : ∀ c, c ≠ b → f c = s.branches.submitted c)
    (hdec : s.branches.placement b = .wal → s.groups.walDecided (s.branches.group b) = true)
    (hacc : s.branches.placement b = .wal → f b = true →
      s.groups.walAccepted (s.branches.group b) = true) :
    ResultsBut due ({ s with branches.submitted := f }.markReady b) := by
  have hflags := hr.ready_flags hq hnr hf
  have hs' := hs.ready_flags hq (fun c hc => by
    by_cases hcb : c = b
    · exact .inl hcb
    · exact .inr ((hf c hcb).symm.trans hc)) hdec hacc
  exact hflags.passReady.publishReady hs'.passReady

theorem results_nextCutFailed {σ : Nat} : (s.nextCutFailed σ).2.results = s.results := by
  unfold State.nextCutFailed
  split
  · rfl
  · split <;> rfl

theorem results_keepClosing {σ : Nat} {cut : Boundary} :
    (s.keepClosing σ cut).results = s.results := results_promoteClosing

theorem results_nextCut (σ : Nat) (answer : CloseAnswer) :
    (s.nextCut σ answer).2.results = s.results := by
  unfold State.nextCut
  split
  · split
    · exact results_nextCutFailed
    · dsimp only
      split
      · exact results_promoteClosing
      · split
        · refine Eq.trans ?_ (results_promoteClosing (σ := σ))
          unfold State.closeForCut
          dsimp only
          split
          · exact results_keepClosing
          · split
            · exact results_nextCutFailed
            · rfl
        · exact results_promoteClosing
  · rfl

theorem results_barrierTurn {σ : Nat} {unit : Bool} {answer : CloseAnswer} :
    (s.barrierTurn σ unit answer).results = s.results := by
  have hview := results_nextCut (s := s) σ answer
  unfold State.barrierTurn
  split
  · next cut t heq =>
    rw [heq] at hview
    split
    · exact hview
    · exact hview
  · next t heq =>
    rw [heq] at hview
    exact hview

theorem results_releaseHold {σ : Nat} {answer : CloseAnswer} :
    (s.releaseHold σ answer).results = s.results := by
  unfold State.releaseHold
  dsimp only
  split
  · exact results_keepClosing
  · rfl

/-- A barrier settles: receipts move forward. -/
theorem barrierDone (hr : ResultsBut due s) (hp : Placed s) {σ : Nat} {cut : Boundary}
    {failure : Option Errc} (hrun : s.slots.barrier σ = some cut) :
    ResultsBut due (s.barrierDone σ cut failure) := by
  have hreceipt := hr.receipt_mono
    (if failure.isNone then update s.slots.receipt σ (some cut) else s.slots.receipt) (by
      intro τ old hold
      split
      · by_cases hτ : τ = σ
        · subst hτ
          exact ⟨cut, by simp, Nat.le_of_lt ((hp.cuts.barrier τ cut hrun).2.2.1 old hold)⟩
        · exact ⟨old, by simpa [hτ] using hold, le_rfl⟩
      · exact ⟨old, hold, le_rfl⟩)
  unfold State.barrierDone State.settleBarrier
  refine ResultsBut.publishReady ?_ ?_
  · exact hreceipt.congr rfl
  · exact hp.shape.congr rfl

end ResultsBut

/-! ## Every run -/

namespace Results

variable {s : State}

theorem initial (maximumRequests rows : Nat) (writers : Nat → Writer) (reserved : Cursor) :
    Results (initial maximumRequests rows writers reserved) := by
  constructor <;> simp [Append.initial]

theorem join (hr : Results s) {r : Request} {answer : JoinAnswer} : Results (s.join r answer) := by
  unfold State.join
  split
  · exact hr.congr rfl
  · split
    · exact hr.congr rfl
    · cases answer with
      | fits => exact hr.pushItem
      | full =>
        dsimp only
        split <;> exact hr.congr rfl
      | rejected => exact hr.congr rfl

theorem tryJoin (hr : Results s) {r : Request} {answer : JoinAnswer} :
    Results (s.tryJoin r answer) := by
  unfold State.tryJoin
  split
  · exact hr.congr rfl
  · split
    · exact hr.congr rfl
    · split
      · exact hr.congr rfl
      · exact hr.join

/-- An acceptance check is none of publication's. -/
theorem check (hr : Results s) (id : Invariant) (held : Bool) (hid : id.ofResults = false) :
    Results (s.check id held) := by
  refine { hr with unfired := ?_ }
  simp only [State.check]
  split
  · exact hr.unfired
  · rw [List.filter_append, hr.unfired]
    simp [hid]

theorem admitRequest (hr : Results s) {r : Request} {budget : Bool} {answer : JoinAnswer} :
    Results (s.admitRequest r budget answer) := by
  unfold State.admitRequest
  dsimp only
  split
  · exact hr.check _ _ rfl
  · have hc := hr.check .retryOpening
      (((s.slots.retry (s.occupant r.slot)).rings r.id.stream).isSome
        || (s.slots.retry (s.occupant r.slot)).opening.isNone) rfl
    split
    · refine Results.tryJoin ?_
      exact hc.congr rfl
    · exact hc.congr rfl
    · exact hc.congr rfl

theorem results_frozeItems {σ : Nat} {l : List Nat} :
    (s.frozeItems σ l).results = s.results := by
  induction l generalizing s with
  | nil => rfl
  | cons i rest ih =>
    rw [State.frozeItems, ih]
    simp only [State.check, State.results]
    split
    · rfl
    · simp [Invariant.ofResults]

theorem freeze (hr : Results s) (hs : Shape s) {g b : Nat} {rest : List Nat}
    {answer : FreezeAnswer} (hf : s.formation = .freezing g (b :: rest)) :
    Results (s.freeze b (.ok answer)) := by
  have hl : b ∈ s.formation.left := by rw [hf]; simp [Formation.left]
  have hg : s.formation.group? = some g := by rw [hf]; rfl
  have hb := hs.mem_group g b ((hs.left_suffix g hg).subset hl)
  have hund : s.groups.walDecided (s.branches.group b) = false := by
    rw [hb.2]
    exact (hs.undecided_iff g (hs.formation_lt g hg)).mpr hg
  refine (hr.queue hs ((s.writer (s.branches.slot b)).freezeCut answer)
    (hs.left_unqueued b hl) hund).congr ?_
  exact congrArg (fun t : State => { t with
    slots.order := update t.slots.order (s.branches.slot b)
      (t.slots.order (s.branches.slot b) ++ [b])
    branches.boundary := update t.branches.boundary b
      ((s.writer (s.branches.slot b)).freezeCut answer)
    branches.queued := update t.branches.queued b true })
    (results_frozeItems (s := s.setWriter (s.branches.slot b)
      ((s.writer (s.branches.slot b)).freeze answer)))

theorem submitBranch (hr : Results s) (hs : Shape s) {b : Nat} {failure : Option Errc}
    (hq : s.branches.queued b = true) (hnr : s.branches.ready b = false)
    (hcan : s.canSubmit b = true) : Results (s.submitBranch b failure) := by
  obtain ⟨hdec, hacc⟩ := hs.accepted_of_canSubmit hcan
  have hfail : Results (s.failBranch b failure) := hr.congr rfl
  have hother : ∀ c, c ≠ b →
      update s.branches.submitted b failure.isNone c = s.branches.submitted c :=
    fun c hc => by simp [hc]
  exact hfail.markReady (hs.congr rfl) hq hnr hother hdec fun h _ => hacc h

theorem dropBranch (hr : Results s) (hs : Shape s) {b : Nat} (hq : s.branches.queued b = true)
    (hnr : s.branches.ready b = false) (hcan : s.canDrop b = true) : Results (s.markReady b) := by
  simp only [State.canDrop, Bool.and_eq_true, decide_eq_true_eq] at hcan
  refine hr.markReady (f := s.branches.submitted) hs hq hnr (fun _ _ => rfl)
    (fun _ => hcan.1.2) ?_
  intro _ h
  rw [hs.ready_of_submitted b h] at hnr
  cases hnr

/-- **One action keeps the results.** -/
theorem took (hr : Results s) (hp : Placed s) {a : Act} {s' : State} (h : Took s a s') :
    Results s' := by
  have hs := hp.shape
  cases h with
  | attach | quiesce | sync | detach | restorePinned | dischargeDecision | dischargePublication
  | append | grantRejected | grant | abandon | abandonOpened | rotate | freezeFailed | offer
  | loopReturn | writerFails => exact hr.congr rfl
  | prepared => exact hr.admitRequest
  | wake => exact hr.tryJoin
  | failForming | failSegment =>
    refine ResultsBut.dropForming ?_
    exact hr.congr rfl
  | makeGroup => exact hr.makeGroup hs
  | unwindGroup hf => exact hr.unwindGroup hs hf
  | freeze hf _ => exact (hr.freeze hs hf).congr rfl
  | refuse hf =>
    rcases hf with ⟨left, hf⟩ | hf
    · exact hr.decideGroup hs (by rw [hf]; rfl)
    · exact hr.decideGroup hs (by rw [hf]; rfl)
  | unoffered hf | accepted hf | refused hf | unknown hf =>
    exact hr.decideGroup hs (by rw [hf]; rfl)
  | submitBranch _ hq hnr hcan => exact hr.submitBranch hs hq hnr hcan
  | dropBranch _ hq hnr hcan => exact hr.dropBranch hs hq hnr hcan
  | settleWal _ hacc hno =>
    refine ResultsBut.publishQueued ?_ ?_
    · exact (hs.settle_flag hacc).congr rfl
    · exact (hr.settle_group hno).congr rfl
  | barrierTurn => exact hr.congr ResultsBut.results_barrierTurn
  | barrierDone hrun => exact hr.barrierDone hp hrun
  | releaseHold => exact hr.congr ResultsBut.results_releaseHold
  | release _ hdec hzero =>
    exact (hr.release hdec (hr.published_of_remaining hs hzero)).congr rfl

end Results

/-- The truth and the order of the results of a state. -/
structure Truthful (s : State) : Prop where
  /-- No outcome was installed twice, and a request has one exactly when one was installed. -/
  once : s.installed.Nodup ∧ ∀ i, i ∈ s.installed ↔ s.items.outcome i ≠ none
  /-- An accepted request without an outcome still forms, or is in an unpublished branch of a
      group that is not released. -/
  kept : ∀ i < s.itemCount, s.items.outcome i = none → i ∈ s.forming ∨
    ∃ b, s.items.branch i = some b ∧ s.branches.published b = false
      ∧ s.groups.released (s.branches.group b) = false
  /-- The outcomes of a slot's frozen groups were installed in file order. -/
  fileOrder : ∀ σ, s.installed.filter (frozenIn s σ)
    = ((s.slots.order σ).take (s.slots.cursor σ)).flatMap s.branches.items
  /-- After a frozen group published non-durable, none of the attachment is durable. -/
  afterFailure : ∀ (σ j k a b i i' : Nat) (o o' : Outcome), (s.slots.order σ)[j]? = some a →
    (s.slots.order σ)[k]? = some b → j < k → s.items.branch i = some a →
    s.items.branch i' = some b → s.items.outcome i = some o → s.items.outcome i' = some o' →
    o.status ≠ .durable → o'.status ≠ .durable
  durable : ∀ i o, s.items.outcome i = some o → o.status = .durable →
    ∃ b, s.items.branch i = some b ∧ s.branches.queued b = true ∧ DurableBy s b
  /-- A request told it was not written was never in a group, or its branch was never
      written. -/
  notWritten : ∀ i o, s.items.outcome i = some o → o.status = .notWritten →
    s.items.branch i = none ∨ ∃ b, s.items.branch i = some b ∧ UnwrittenBy s b
  /-- Every branch's state selects one possible row, and no invariant of publication or of the
      verdict table failed. -/
  classified : (∀ b, ∃ row ∈ verdictCases, s.verdictOf b = .ok row) ∧
    ∀ id ∈ s.fired, id.ofResults = false

end KwaqueStorage.Append
