import KwaqueStorage.Append.Shape

/-!
# Every reachable state is well shaped

One lemma for each write to the shape: a turn of `mark_ready`'s loop, a branch made ready, a
freeze, a formed group, the WAL's answer, a new attachment, a writer that moved. The rest of
each action leaves the shape alone, so each action is one of these and `Shape.congr`.
-/

namespace KwaqueStorage.Append

open Lib
open Function (update update_apply)

theorem drop_eq_cons {l : List Nat} {k b : Nat} {rest : List Nat} (h : l.drop k = b :: rest) :
    l[k]? = some b ∧ l.drop (k + 1) = rest ∧ k < l.length := by
  have hk : k < l.length := by
    by_contra hk
    rw [List.drop_eq_nil_of_le (by omega)] at h
    cases h
  rw [List.drop_eq_getElem_cons hk] at h
  injection h with h₁ h₂
  exact ⟨by rw [List.getElem?_eq_getElem hk, h₁], h₂, hk⟩

theorem submitted_of_update {f : Nat → Bool} {b c : Nat} {v : Bool}
    (h : update f b v c = true) : c = b ∨ f c = true := by
  by_cases hcb : c = b
  · exact .inl hcb
  · exact .inr (by simpa [hcb] using h)

namespace Shape

variable {s : State}

/-! ## File orders -/

theorem order_nodup (hs : Shape s) (σ : Nat) : (s.slots.order σ).Nodup :=
  (hs.sorted σ).imp fun hab hne => by subst hne; exact absurd hab (Nat.lt_irrefl _)

/-- A branch stands at one place of its slot's file order. -/
theorem place_unique (hs : Shape s) {σ j k b : Nat} (hj : (s.slots.order σ)[j]? = some b)
    (hk : (s.slots.order σ)[k]? = some b) : j = k := by
  obtain ⟨hj', hj⟩ := List.getElem?_eq_some_iff.mp hj
  obtain ⟨hk', hk⟩ := List.getElem?_eq_some_iff.mp hk
  exact (List.Nodup.getElem_inj_iff (hs.order_nodup σ)).mp (hj.trans hk.symm)

theorem idxOf_eq (hs : Shape s) {σ k b : Nat} (hk : (s.slots.order σ)[k]? = some b) :
    (s.slots.order σ).idxOf b = k := by
  obtain ⟨hlt, rfl⟩ := List.getElem?_eq_some_iff.mp hk
  exact List.Nodup.idxOf_getElem (hs.order_nodup σ) k hlt

/-- A file order is ordered by where its branches end. -/
theorem end_le_iff (hs : Shape s) {σ j k a b : Nat} (hj : (s.slots.order σ)[j]? = some a)
    (hk : (s.slots.order σ)[k]? = some b) : s.endOf a ≤ s.endOf b ↔ j ≤ k := by
  obtain ⟨hj', rfl⟩ := List.getElem?_eq_some_iff.mp hj
  obtain ⟨hk', rfl⟩ := List.getElem?_eq_some_iff.mp hk
  have hlt := List.pairwise_iff_getElem.mp (hs.sorted σ)
  constructor
  · intro hle
    by_contra hjk
    have := hlt k j hk' hj' (by omega)
    omega
  · intro hle
    rcases Nat.eq_or_lt_of_le hle with rfl | hjk
    · exact le_rfl
    · exact Nat.le_of_lt (hlt j k hj' hk' hjk)

/-- What ends at or before a passed branch is passed. -/
theorem passed_of_le (hs : Shape s) {σ a b : Nat} (ha : a ∈ s.slots.order σ)
    (hb : b ∈ s.slots.order σ) (hp : s.branches.passed b = true) (hle : s.endOf a ≤ s.endOf b) :
    s.branches.passed a = true := by
  obtain ⟨j, hj⟩ := List.mem_iff_getElem?.mp ha
  obtain ⟨k, hk⟩ := List.mem_iff_getElem?.mp hb
  have hjk := (hs.end_le_iff hj hk).mp hle
  have hkf := (hs.passed_iff σ k b hk).mp hp
  exact (hs.passed_iff σ j a hj).mpr (by omega)

/-- What ends before the oldest branch not passed is passed; without one, everything is. -/
theorem passed_of_frontier (hs : Shape s) {σ a : Nat} (ha : a ∈ s.slots.order σ)
    (h : (s.slots.order σ)[s.slots.frontier σ]?.all fun b => decide (s.endOf a < s.endOf b)) :
    s.branches.passed a = true := by
  obtain ⟨j, hj⟩ := List.mem_iff_getElem?.mp ha
  refine (hs.passed_iff σ j a hj).mpr ?_
  cases hf : (s.slots.order σ)[s.slots.frontier σ]? with
  | none =>
    have hlen := List.getElem?_eq_none_iff.mp hf
    obtain ⟨hj', -⟩ := List.getElem?_eq_some_iff.mp hj
    omega
  | some b =>
    rw [hf] at h
    have hlt : s.endOf a < s.endOf b := by simpa using h
    by_contra hjf
    have := (hs.end_le_iff hf hj).mpr (by omega)
    omega

/-- One turn of `mark_ready`'s loop, before what it does to the rows. -/
theorem pass_flags (hs : Shape s) {σ b : Nat} {rest : List Nat}
    (hd : (s.slots.order σ).drop (s.slots.frontier σ) = b :: rest)
    (hr : s.branches.ready b = true) :
    Shape { s with
      slots.frontier := update s.slots.frontier σ (s.slots.frontier σ + 1)
      branches.passed := update s.branches.passed b true } := by
  obtain ⟨hk, hrest, hlt⟩ := drop_eq_cons hd
  have hσ : s.branches.slot b = σ := ((hs.mem_order σ b).mp (List.mem_of_getElem? hk)).2
  refine { hs with slot_fresh := ?_, frontier_le := ?_, passed_iff := ?_, ready_of_passed := ?_ }
  · intro τ hτ
    obtain ⟨h₁, h₂⟩ := hs.slot_fresh τ hτ
    refine ⟨h₁, ?_⟩
    have hne : τ ≠ σ := by
      rintro rfl
      rw [h₁] at hlt
      simp at hlt
    simp [hne, h₂]
  · intro τ
    by_cases hτ : τ = σ
    · subst hτ
      simp only [Function.update_self]
      exact hlt
    · simpa [update_apply, hτ] using hs.frontier_le τ
  · intro τ k c hc
    have hτc : s.branches.slot c = τ := ((hs.mem_order τ c).mp (List.mem_of_getElem? hc)).2
    have hold := hs.passed_iff τ k c hc
    by_cases hcb : c = b
    · subst hcb
      have hτ : τ = σ := hτc.symm.trans hσ
      subst hτ
      simp [hs.place_unique hc hk]
    · by_cases hτ : τ = σ
      · subst hτ
        have hne : k ≠ s.slots.frontier τ := by
          rintro rfl
          exact hcb (Option.some.inj (hc.symm.trans hk))
        simp only [update_apply, if_neg hcb, if_pos, hold]
        omega
      · simpa [update_apply, hτ, hcb] using hold
  · intro c hc
    by_cases hcb : c = b
    · exact hcb ▸ hr
    · exact hs.ready_of_passed c (by simpa [update_apply, hcb] using hc)

theorem pass (hs : Shape s) {σ b : Nat} {rest : List Nat}
    (hd : (s.slots.order σ).drop (s.slots.frontier σ) = b :: rest)
    (hr : s.branches.ready b = true) : Shape (s.pass σ b) :=
  (hs.pass_flags hd hr).congr State.shape_pass

/-- What a turn leaves to pass is the rest of the file order. -/
theorem pass_drop {σ b : Nat} {rest : List Nat}
    (hd : (s.slots.order σ).drop (s.slots.frontier σ) = b :: rest) :
    ((s.pass σ b).slots.order σ).drop ((s.pass σ b).slots.frontier σ) = rest := by
  have hshape := State.shape_pass (s := s) (σ := σ) (b := b)
  have horder : (s.pass σ b).slots.order = s.slots.order := by
    have h := congrArg (fun t : State => t.slots.order) hshape
    exact h
  have hfrontier : (s.pass σ b).slots.frontier
      = update s.slots.frontier σ (s.slots.frontier σ + 1) := by
    have h := congrArg (fun t : State => t.slots.frontier) hshape
    exact h
  rw [horder, hfrontier]
  simpa using (drop_eq_cons hd).2.1

theorem passFrom (hs : Shape s) {σ : Nat} {l : List Nat}
    (hd : (s.slots.order σ).drop (s.slots.frontier σ) = l) : Shape (s.passFrom σ l) := by
  induction l generalizing s with
  | nil => exact hs
  | cons b rest ih =>
    rw [State.passFrom]
    split
    · next hr => exact ih (hs.pass hd hr) (pass_drop hd)
    · exact hs

theorem passReady (hs : Shape s) {σ : Nat} : Shape (s.passReady σ) :=
  (hs.passFrom rfl).congr State.shape_promoteClosing

/-- A frozen branch is made ready, submitted or dropped. -/
theorem ready_flags (hs : Shape s) {b : Nat} {f : Nat → Bool} (hq : s.branches.queued b = true)
    (hf : ∀ c, f c = true → c = b ∨ s.branches.submitted c = true)
    (hdec : s.branches.placement b = .wal → s.groups.walDecided (s.branches.group b) = true)
    (hacc : s.branches.placement b = .wal → f b = true →
      s.groups.walAccepted (s.branches.group b) = true) :
    Shape { s with
      branches.submitted := f
      branches.ready := update s.branches.ready b true } := by
  refine { hs with
    ready_of_passed := ?_, ready_of_submitted := ?_, queued_of_ready := ?_,
    decided_of_ready := ?_, accepted_of_submitted := ?_ }
  · intro c hc
    by_cases hcb : c = b
    · simp [hcb]
    · simpa [update_apply, hcb] using hs.ready_of_passed c hc
  · intro c hc
    by_cases hcb : c = b
    · simp [hcb]
    · have := (hf c hc).resolve_left hcb
      simpa [update_apply, hcb] using hs.ready_of_submitted c this
  · intro c hc
    by_cases hcb : c = b
    · exact hcb ▸ hq
    · exact hs.queued_of_ready c (by simpa [update_apply, hcb] using hc)
  · intro c hp hc
    by_cases hcb : c = b
    · subst hcb; exact hdec hp
    · exact hs.decided_of_ready c hp (by simpa [update_apply, hcb] using hc)
  · intro c hp hc
    rcases hf c hc with rfl | hold
    · exact hacc hp hc
    · exact hs.accepted_of_submitted c hp hold

/-! ## Freezing -/

/-- The segment writer's reserved end moves forward. -/
theorem setWriter (hs : Shape s) {σ : Nat} {w : Writer} (h : (s.writer σ).reserved ≤ w.reserved) :
    Shape (s.setWriter σ w) := by
  refine { hs with end_le := ?_ }
  intro τ b hb
  refine (hs.end_le τ b hb).trans ?_
  by_cases hτ : s.slots.segment τ = s.slots.segment σ
  · simpa [State.setWriter, State.writer, update_apply, hτ] using h
  · simp [State.setWriter, hτ]

/-- A branch left to freeze takes the last place of its slot's file order. -/
theorem queue (hs : Shape s) {b : Nat} (cut : Boundary) (hb : b < s.branchCount)
    (hq : s.branches.queued b = false)
    (hlast : ∀ a ∈ s.slots.order (s.branches.slot b), s.endOf a < cut.endBytes)
    (hle : cut.endBytes ≤ (s.writer (s.branches.slot b)).reserved)
    (hleft : b ∉ s.formation.left) :
    Shape { s with
      slots.order := update s.slots.order (s.branches.slot b)
        (s.slots.order (s.branches.slot b) ++ [b])
      branches.boundary := update s.branches.boundary b cut
      branches.queued := update s.branches.queued b true } := by
  have hnotin : ∀ τ, b ∉ s.slots.order τ := by
    intro τ hmem
    rw [((hs.mem_order τ b).mp hmem).1] at hq
    exact absurd hq (by simp)
  have hend : ∀ τ, ∀ a ∈ s.slots.order τ,
      (update s.branches.boundary b cut a).endBytes = s.endOf a := by
    intro τ a ha
    have hne : a ≠ b := fun h => hnotin τ (h ▸ ha)
    simp [State.endOf, hne]
  have hendb : (update s.branches.boundary b cut b).endBytes = cut.endBytes := by simp
  have hmem : ∀ τ a, a ∈ update s.slots.order (s.branches.slot b)
      (s.slots.order (s.branches.slot b) ++ [b]) τ ↔
        a ∈ s.slots.order τ ∨ τ = s.branches.slot b ∧ a = b := by
    intro τ a
    by_cases hτ : τ = s.branches.slot b
    · subst hτ; simp
    · simp [hτ]
  refine { hs with
    slot_fresh := ?_, branch_fresh := ?_, mem_order := ?_, sorted := ?_, end_le := ?_,
    frontier_le := ?_, passed_iff := ?_, queued_of_ready := ?_,
    left_unqueued := ?_ }
  · intro τ hτ
    have hne : τ ≠ s.branches.slot b := by
      have := hs.branch_slot b hb
      intro h
      have hτ' : s.attachments ≤ τ := hτ
      omega
    simpa [update_apply, hne] using hs.slot_fresh τ hτ
  · intro c hc
    have hne : c ≠ b := by
      have hc' : s.branchCount ≤ c := hc
      omega
    simpa [update_apply, hne] using hs.branch_fresh c hc
  · intro τ a
    rw [hmem, hs.mem_order]
    by_cases hab : a = b
    · subst hab
      simp [hq, eq_comm]
    · simp [hab]
  · intro τ
    by_cases hτ : τ = s.branches.slot b
    · subst hτ
      simp only [Function.update_self]
      rw [List.pairwise_append]
      refine ⟨(hs.sorted _).imp_of_mem fun ha hc h => ?_, List.pairwise_singleton _ _, ?_⟩
      · simp only [State.endOf, hend _ _ ha,
          hend _ _ hc]
        exact h
      · intro a ha c hc
        rw [List.mem_singleton] at hc
        subst hc
        simp only [State.endOf, hend _ _ ha, hendb]
        exact hlast a ha
    · simp only [update_apply, hτ, if_false]
      refine (hs.sorted τ).imp_of_mem fun ha hc h => ?_
      simp only [State.endOf, hend _ _ ha,
        hend _ _ hc]
      exact h
  · intro τ a ha
    rcases (hmem τ a).mp ha with h | ⟨rfl, rfl⟩
    · exact le_of_eq_of_le (hend τ a h) (hs.end_le τ a h)
    · exact le_of_eq_of_le hendb hle
  · intro τ
    refine (hs.frontier_le τ).trans ?_
    by_cases hτ : τ = s.branches.slot b
    · subst hτ; simp
    · simp [hτ]
  · intro τ k a ha
    by_cases hτ : τ = s.branches.slot b
    · subst hτ
      have ha' : (s.slots.order (s.branches.slot b) ++ [b])[k]? = some a := by simpa using ha
      rw [List.getElem?_append] at ha'
      split at ha'
      · exact hs.passed_iff _ k a ha'
      · next hk =>
        -- The new branch: not passed, and past every place the frontier can be at.
        have hab : a = b := by
          have := List.mem_of_getElem? ha'
          simpa using this
        subst hab
        have hnp : s.branches.passed a = false := by
          by_contra hp
          have := hs.queued_of_ready a (hs.ready_of_passed a (by simpa using hp))
          rw [this] at hq
          exact absurd hq (by simp)
        have := hs.frontier_le (s.branches.slot a)
        simp only [hnp]
        constructor
        · intro h; exact absurd h (by simp)
        · intro h
          have h' : k < s.slots.frontier (s.branches.slot a) := h
          omega
    · exact hs.passed_iff τ k a (by simpa [update_apply, hτ] using ha)
  · intro c hc
    by_cases hcb : c = b
    · simp [hcb]
    · simpa [update_apply, hcb] using hs.queued_of_ready c hc
  · intro c hc
    have hcb : c ≠ b := fun h => hleft (h ▸ hc)
    simpa [update_apply, hcb] using hs.left_unqueued c hc

/-- The formation goes on to what is left after its next branch. -/
theorem freeze_left (hs : Shape s) {g b : Nat} {rest : List Nat}
    (hf : s.formation = .freezing g (b :: rest)) :
    Shape { s with formation := if rest.isEmpty then .offering g else .freezing g rest } := by
  have hgroup : ∀ f : Formation, f = (if rest.isEmpty then .offering g else .freezing g rest) →
      f.group? = s.formation.group? ∧ f.left = rest := by
    rintro f rfl
    rw [hf]
    cases rest with
    | nil => exact ⟨rfl, rfl⟩
    | cons c rest => exact ⟨rfl, rfl⟩
  obtain ⟨hg, hl⟩ := hgroup _ rfl
  have hleft : s.formation.left = b :: rest := by rw [hf]; rfl
  refine { hs with undecided_iff := ?_, formation_lt := ?_, left_suffix := ?_,
                   left_unqueued := ?_ }
  · intro g' hg'
    rw [hg]
    exact hs.undecided_iff g' hg'
  · intro g' hg'
    exact hs.formation_lt g' (hg ▸ hg')
  · intro g' hg'
    have := hs.left_suffix g' (hg ▸ hg')
    rw [hleft] at this
    rw [hl]
    exact (List.suffix_cons b rest).trans this
  · intro c hc
    rw [hl] at hc
    exact hs.left_unqueued c (hleft ▸ List.mem_cons_of_mem b hc)

theorem freeze_cut {w : Writer} {placement : Placement} {answer : FreezeAnswer}
    (h : w.canFreeze placement answer = true) :
    w.reserved < (w.freezeCut answer).endBytes ∧
      (w.freezeCut answer).endBytes = (w.freeze answer).reserved := by
  simp only [Writer.canFreeze, Bool.and_eq_true, decide_eq_true_eq] at h
  refine ⟨?_, rfl⟩
  simp only [Writer.freezeCut]
  omega

theorem freeze (hs : Shape s) {g b : Nat} {rest : List Nat} {answer : FreezeAnswer}
    (hf : s.formation = .freezing g (b :: rest))
    (hcan : (s.writer (s.branches.slot b)).canFreeze (s.branches.placement b) answer = true) :
    Shape { s.freeze b (.ok answer) with
      formation := if rest.isEmpty then .offering g else .freezing g rest } := by
  have hl : s.formation.left = b :: rest := by rw [hf]; rfl
  have hgroup : s.formation.group? = some g := by rw [hf]; rfl
  have hsuffix := hs.left_suffix g hgroup
  rw [hl] at hsuffix
  have hb : b < s.branchCount := (hs.mem_group g b (hsuffix.subset (by simp))).1
  have hrest : b ∉ rest := by
    have := (hs.group_nodup g).sublist hsuffix.sublist
    exact (List.nodup_cons.mp this).1
  have hq : s.branches.queued b = false := hs.left_unqueued b (by rw [hl]; simp)
  obtain ⟨hlt, heq⟩ := freeze_cut hcan
  have hmoved := (hs.freeze_left hf).setWriter (σ := s.branches.slot b)
    (w := (s.writer (s.branches.slot b)).freeze answer) (Nat.le_of_lt (heq ▸ hlt))
  have hqueue := hmoved.queue (b := b)
    ((s.writer (s.branches.slot b)).freezeCut answer) hb hq
    (fun a ha => Nat.lt_of_le_of_lt (hs.end_le _ a ha) hlt)
    (by simpa [State.writer, State.setWriter] using le_of_eq heq)
    (by
      show b ∉ (if rest.isEmpty then Formation.offering g else .freezing g rest).left
      cases rest with
      | nil => simp [Formation.left]
      | cons c rest => simpa [Formation.left] using hrest)
  refine hqueue.congr ?_
  simp only [State.freeze]
  exact congrArg (fun t : State => { t with
    slots.order := update t.slots.order (s.branches.slot b)
      (t.slots.order (s.branches.slot b) ++ [b])
    branches.boundary := update t.branches.boundary b
      ((s.writer (s.branches.slot b)).freezeCut answer)
    branches.queued := update t.branches.queued b true
    formation := if rest.isEmpty then .offering g else .freezing g rest })
    (State.shape_of_core (State.core_frozeItems (s := s.setWriter (s.branches.slot b)
      ((s.writer (s.branches.slot b)).freeze answer))))

/-! ## Groups -/

/-- A new branch joins the group that forms. -/
theorem addBranch (hs : Shape s) {g σ : Nat} (placement : Placement) {formed : List Nat}
    (hf : s.formation = .freezing g formed) (hg : s.groups.branches g = formed)
    (hσ : σ < s.attachments) :
    Shape { s with
      branches.group := update s.branches.group s.branchCount g
      branches.slot := update s.branches.slot s.branchCount σ
      branches.placement := update s.branches.placement s.branchCount placement
      branchCount := s.branchCount + 1
      groups.branches := update s.groups.branches g (formed ++ [s.branchCount])
      formation := .freezing g (formed ++ [s.branchCount]) } := by
  have hgroup : s.formation.group? = some g := by rw [hf]; rfl
  have hglt : g < s.groupCount := hs.formation_lt g hgroup
  have hnq : s.branches.queued s.branchCount = false := hs.branch_fresh _ le_rfl
  have hnr : s.branches.ready s.branchCount = false := by
    by_contra h
    rw [hs.queued_of_ready _ (by simpa using h)] at hnq
    cases hnq
  have hold : ∀ b ∈ formed, b < s.branchCount ∧ s.branches.group b = g := by
    intro b hb
    exact hs.mem_group g b (hg ▸ hb)
  refine { hs with
    branch_fresh := ?_, group_fresh := ?_, branch_slot := ?_, mem_order := ?_,
    branch_group := ?_, mem_group := ?_, group_nodup := ?_, undecided_iff := ?_,
    formation_lt := ?_, left_suffix := ?_, left_unqueued := ?_, decided_of_ready := ?_,
    accepted_of_submitted := ?_ }
  · intro b hb
    exact hs.branch_fresh b (Nat.le_of_succ_le hb)
  · intro g' hg'
    have hne : g' ≠ g := Nat.ne_of_gt (Nat.lt_of_lt_of_le hglt hg')
    simpa [hne] using hs.group_fresh g' hg'
  · intro b hb
    by_cases hbn : b = s.branchCount
    · simpa [hbn] using hσ
    · have hb' : b < s.branchCount := by
        have : b < s.branchCount + 1 := hb
        omega
      simpa [hbn] using hs.branch_slot b hb'
  · intro τ b
    rw [hs.mem_order]
    by_cases hbn : b = s.branchCount
    · simp [hbn, hnq]
    · simp [hbn]
  · intro b hb
    by_cases hbn : b = s.branchCount
    · subst hbn
      simpa using hglt
    · have hb' : b < s.branchCount := by
        have : b < s.branchCount + 1 := hb
        omega
      obtain ⟨h₁, h₂⟩ := hs.branch_group b hb'
      simp only [update_apply, if_neg hbn]
      refine ⟨h₁, ?_⟩
      split
      · next h => rw [h, hg] at h₂; exact List.mem_append_left _ h₂
      · exact h₂
  · intro g' b hb
    by_cases hg' : g' = g
    · subst hg'
      simp only [Function.update_self, List.mem_append, List.mem_singleton] at hb
      rcases hb with hb | rfl
      · obtain ⟨h₁, h₂⟩ := hold b hb
        exact ⟨Nat.lt_succ_of_lt h₁, by simp [Nat.ne_of_lt h₁, h₂]⟩
      · exact ⟨Nat.lt_succ_self _, by simp⟩
    · simp only [update_apply, if_neg hg'] at hb
      obtain ⟨h₁, h₂⟩ := hs.mem_group g' b hb
      exact ⟨Nat.lt_succ_of_lt h₁, by simp [Nat.ne_of_lt h₁, h₂]⟩
  · intro g'
    by_cases hg' : g' = g
    · subst hg'
      simp only [Function.update_self]
      rw [List.nodup_append]
      refine ⟨hg ▸ hs.group_nodup g', List.nodup_singleton _, ?_⟩
      intro b hb c hc
      rw [List.mem_singleton] at hc
      exact hc ▸ Nat.ne_of_lt (hold b hb).1
    · simpa [hg'] using hs.group_nodup g'
  · intro g' hg'
    have := hs.undecided_iff g' hg'
    rw [hgroup] at this
    exact this
  · intro g' hg'
    exact hs.formation_lt g' (hgroup.trans hg')
  · intro g' hg'
    obtain rfl : g = g' := Option.some.inj hg'
    simp [Formation.left]
  · intro b hb
    simp only [Formation.left, List.mem_append, List.mem_singleton] at hb
    rcases hb with hb | rfl
    · exact hs.left_unqueued b (by rw [hf]; exact hb)
    · exact hnq
  · intro b hp hr
    have hbn : b ≠ s.branchCount := by
      rintro rfl
      rw [hnr] at hr
      cases hr
    simp only [update_apply, if_neg hbn] at hp ⊢
    exact hs.decided_of_ready b hp hr
  · intro b hp hr
    have hbn : b ≠ s.branchCount := by
      rintro rfl
      rw [hs.ready_of_submitted _ hr] at hnr
      cases hnr
    simp only [update_apply, if_neg hbn] at hp ⊢
    exact hs.accepted_of_submitted b hp hr

/-- An empty group takes the formation lock. -/
theorem openGroup (hs : Shape s) (hf : s.formation = .idle) :
    Shape { s with
      groupCount := s.groupCount + 1
      formation := .freezing s.groupCount [] } := by
  have hfresh := hs.group_fresh s.groupCount le_rfl
  have hnone : s.formation.group? = none := by rw [hf]; rfl
  refine { hs with
    group_fresh := ?_, branch_group := ?_, undecided_iff := ?_, formation_lt := ?_,
    left_suffix := ?_, left_unqueued := ?_ }
  · intro g hg
    exact hs.group_fresh g (Nat.le_of_succ_le hg)
  · intro b hb
    obtain ⟨h₁, h₂⟩ := hs.branch_group b hb
    exact ⟨Nat.lt_succ_of_lt h₁, h₂⟩
  · intro g hg
    have hg' : g < s.groupCount + 1 := hg
    by_cases hgn : g = s.groupCount
    · subst hgn
      simp [Formation.group?, hfresh.2]
    · have := hs.undecided_iff g (by omega)
      rw [hnone] at this
      simp only [Formation.group?, Option.some.injEq]
      rw [this]
      simp [eq_comm, hgn]
  · intro g hg
    obtain rfl : s.groupCount = g := Option.some.inj hg
    exact Nat.lt_succ_self _
  · intro g hg
    exact List.nil_suffix
  · intro b hb
    cases hb

/-- The chosen sets become the branches of the group, one after another. -/
theorem transferAll {g : Nat} {chosen : List (Nat × Placement)} (rows : List (Option Nat))
    (formed : List Nat) (hlen : rows.length = chosen.length)
    (hchosen : ∀ c ∈ chosen, c.1 < s.attachments)
    (hs : Shape { s with
      groups.branches := update s.groups.branches g formed
      groupCount := g + 1
      formation := .freezing g formed }) :
    Shape { s.transferAll g chosen rows with
      groups.branches := update (s.transferAll g chosen rows).groups.branches g
        (formed ++ List.range' s.branchCount chosen.length)
      groupCount := g + 1
      formation := .freezing g (formed ++ List.range' s.branchCount chosen.length) } := by
  induction chosen generalizing s rows formed with
  | nil => simpa [State.transferAll] using hs
  | cons c chosen ih =>
    obtain ⟨σ, placement⟩ := c
    cases rows with
    | nil => simp at hlen
    | cons row rows =>
      have hadd := hs.addBranch (σ := σ) placement rfl (by simp)
        (hchosen (σ, placement) (by simp))
      have hnext := ih (s := s.transfer g σ placement row) rows
        (formed ++ [s.branchCount]) (by simpa using hlen)
        (fun c hc => hchosen c (List.mem_cons_of_mem _ hc))
        (hadd.congr (by simp [State.shape, State.transfer]))
      have hrange : formed ++ [s.branchCount]
          ++ List.range' (s.branchCount + 1) chosen.length
          = formed ++ List.range' s.branchCount (chosen.length + 1) := by
        simp [List.range'_succ]
      have hcount : (s.transfer g σ placement row).branchCount = s.branchCount + 1 := rfl
      rw [hcount, hrange] at hnext
      exact hnext

/-- The WAL's answer, or that nothing froze, decides the group and lets the lock go. -/
theorem decide_flags (hs : Shape s) {g : Nat} {accepted unknown : Nat → Bool}
    (hg : s.formation.group? = some g)
    (ha : ∀ g' ≠ g, accepted g' = s.groups.walAccepted g')
    (hu : ∀ g' ≠ g, unknown g' = s.groups.walUnknown g') :
    Shape { s with
      groups.walDecided := update s.groups.walDecided g true
      groups.walAccepted := accepted
      groups.walUnknown := unknown
      formation := .idle } := by
  have hglt := hs.formation_lt g hg
  have hundecided : s.groups.walDecided g = false := (hs.undecided_iff g hglt).mpr hg
  refine { hs with
    group_fresh := ?_, undecided_iff := ?_, formation_lt := ?_, undecided := ?_, left_suffix := ?_, left_unqueued := ?_, decided_of_ready := ?_,
    accepted_of_submitted := ?_ }
  · intro g' hg'
    have hne : g' ≠ g := Nat.ne_of_gt (Nat.lt_of_lt_of_le hglt hg')
    simpa [hne] using hs.group_fresh g' hg'
  · intro g' hg'
    by_cases hne : g' = g
    · simp [hne, Formation.group?]
    · have := hs.undecided_iff g' hg'
      rw [hg] at this
      simp [hne, Formation.group?, this, Ne.symm hne]
  · intro g' hg'
    cases hg'
  · intro g' hg'
    have hne : g' ≠ g := by
      rintro rfl
      simp at hg'
    simp only [ha g' hne, hu g' hne]
    exact hs.undecided g' (by simpa [hne] using hg')
  · intro g' hg'
    cases hg'
  · intro b hb
    cases hb
  · intro b hp hr
    have := hs.decided_of_ready b hp hr
    by_cases hne : s.branches.group b = g
    · simp [hne]
    · simpa [hne] using this
  · intro b hp hr
    have hacc := hs.accepted_of_submitted b hp hr
    have hne : s.branches.group b ≠ g := by
      intro h
      rw [h, (hs.undecided g hundecided).1] at hacc
      cases hacc
    simpa [ha _ hne] using hacc

theorem settle_flag (hs : Shape s) {g : Nat} (h : s.groups.walAccepted g = true) :
    Shape { s with groups.walSettled := update s.groups.walSettled g true } := by
  refine { hs with undecided := ?_ }
  intro g' hg'
  have hne : g' ≠ g := by
    rintro rfl
    rw [(hs.undecided g' hg').1] at h
    cases h
  simpa [hne] using hs.undecided g' hg'

theorem attach_slot (hs : Shape s) {segment : Nat} :
    Shape { s with
      slots.segment := update s.slots.segment s.attachments segment
      attachments := s.attachments + 1 } := by
  refine { hs with slot_fresh := ?_, branch_slot := ?_, end_le := ?_ }
  · intro σ hσ
    exact hs.slot_fresh σ (Nat.le_of_succ_le hσ)
  · intro b hb
    exact Nat.lt_succ_of_lt (hs.branch_slot b hb)
  · intro σ b hb
    have hne : σ ≠ s.attachments := by
      rintro rfl
      have hb' : b ∈ s.slots.order s.attachments := hb
      rw [(hs.slot_fresh _ le_rfl).1] at hb'
      cases hb'
    simp only [update_apply, if_neg hne]
    exact hs.end_le σ b hb

end Shape

/-! ## The actions -/

namespace State

variable {s : State}

theorem length_reserveRows (chosen : List (Nat × Placement))
    (h : (s.reserveRows chosen).2.2 = true) : (s.reserveRows chosen).1.length = chosen.length := by
  induction chosen generalizing s with
  | nil => rfl
  | cons c rest ih =>
    obtain ⟨σ, placement⟩ := c
    cases placement with
    | segment => simpa [reserveRows] using ih h
    | wal =>
      simp only [reserveRows] at h ⊢
      split at h
      · cases h
      · simpa using ih h

/-- The flags an answer installs. -/
def decidedFlags (s : State) (g : Nat) (answer : WalAnswer) : State :=
  { s with
    groups.walDecided := update s.groups.walDecided g true
    groups.walAccepted :=
      match answer with
      | .accepted _ => update s.groups.walAccepted g true
      | _ => s.groups.walAccepted
    groups.walUnknown :=
      match answer with
      | .unknown _ _ => update s.groups.walUnknown g true
      | _ => s.groups.walUnknown }

theorem shape_answerGroup {g : Nat} {answer : WalAnswer} :
    (s.answerGroup g answer).shape = (s.decidedFlags g answer).shape := by
  cases answer with
  | accepted reserved =>
    exact (shape_of_rowless (view_foldl (fun _ _ => rowless_obligeBranch) _)).trans rfl
  | refused failure => exact (shape_of_rowless (view_foldl (fun _ _ => rowless_unreserve) _)).trans rfl
  | unknown failure reserved =>
    exact (shape_of_rowless (view_foldl (fun _ _ => rowless_pinBranch) _)).trans rfl

theorem shape_installAnswer {g : Nat} {answer : WalAnswer} :
    (s.installAnswer g answer).shape
      = ({ s.decidedFlags g answer with formation := .idle } : State).shape := by
  have hthaw : ((s.groups.branches g).foldl thaw s).shape = s.shape :=
    view_foldl (v := shape) (f := thaw) (fun _ _ => rfl) _
  have hflags : (decidedFlags ((s.groups.branches g).foldl thaw s) g answer).shape
      = (s.decidedFlags g answer).shape := by
    have h := congrArg (fun u : State => (u.decidedFlags g answer).shape) hthaw
    cases answer <;> exact h
  exact congrArg (fun u : State => { u with formation := .idle })
    (shape_answerGroup.trans hflags)

/-- Deciding a group publishes on top of the installed answer. -/
theorem core_decideGroup {g : Nat} {answer : WalAnswer} :
    (s.decideGroup g answer).core = (s.installAnswer g answer).core := by
  unfold decideGroup
  dsimp only
  rw [view_foldl (fun _ _ => core_publishQueued), view_foldl (fun _ _ => core_publishUnqueued)]

/-- Closing a run moves the writer forward. -/
theorem closeRun_reserved {w : Writer} {answer : CloseAnswer} :
    w.reserved ≤ (w.closeRun answer).2.reserved := by
  cases answer <;> simp [Writer.closeRun]

theorem shape_nextCutFailed {σ : Nat} : (s.nextCutFailed σ).2.shape = s.shape := by
  unfold nextCutFailed
  split
  · rfl
  · split <;> rfl

theorem shape_keepClosing {σ : Nat} {cut : Boundary} : (s.keepClosing σ cut).shape = s.shape :=
  shape_promoteClosing

end State

namespace Shape

variable {s : State}

theorem initial (maximumRequests rows : Nat) (writers : Nat → Writer) (reserved : Cursor) :
    Shape (initial maximumRequests rows writers reserved) := by
  constructor <;> simp [Append.initial, Formation.group?, Formation.left]

theorem makeGroup (hs : Shape s) {chosen : List (Nat × Placement)} (hf : s.formation = .idle)
    (hchosen : ∀ c ∈ chosen, c.1 < s.attachments) : Shape (s.makeGroup chosen) := by
  have hrows : (s.reserveRows chosen).2.1.shape = s.shape :=
    State.shape_of_rowless State.rowless_reserveRows
  unfold State.makeGroup
  split
  · next rows t heq =>
    rw [heq] at hrows
    exact (hs.congr hrows).congr (State.shape_of_rowless State.rowless_unreserveRows)
  · next rows t heq =>
    have hlen : rows.length = chosen.length := by
      have := State.length_reserveRows (s := s) chosen (by rw [heq])
      rwa [heq] at this
    rw [heq] at hrows
    have ht : Shape t := hs.congr hrows
    have htf : t.formation = .idle := (congrArg State.formation hrows).trans hf
    have hopen := ht.openGroup htf
    have hfresh := (ht.group_fresh t.groupCount le_rfl).1
    have hstart : Shape { t with
        groups.branches := update t.groups.branches t.groupCount []
        groupCount := t.groupCount + 1
        formation := .freezing t.groupCount [] } := by
      rw [← hfresh, Function.update_eq_self, hfresh]
      exact hopen
    have hatt : t.attachments = s.attachments := by
      have h := congrArg State.attachments hrows
      exact h
    have hall := transferAll (s := t) _ _ hlen (fun c hc => hatt ▸ hchosen c hc) hstart
    rw [List.nil_append] at hall
    refine hall.congr ?_
    rfl

theorem installAnswer (hs : Shape s) {g : Nat} (answer : WalAnswer)
    (hg : s.formation.group? = some g) : Shape (s.installAnswer g answer) := by
  refine (hs.decide_flags hg ?_ ?_).congr State.shape_installAnswer
  · intro g' hne
    cases answer <;> simp [hne]
  · intro g' hne
    cases answer <;> simp [hne]

theorem decideGroup (hs : Shape s) {g : Nat} {answer : WalAnswer}
    (hg : s.formation.group? = some g) : Shape (s.decideGroup g answer) :=
  (hs.installAnswer _ hg).congr (State.shape_of_core State.core_decideGroup)

theorem unwound (hs : Shape s) {g : Nat} (failure : Errc)
    (hg : s.formation.group? = some g) : Shape (s.unwound g failure) := by
  have hflags := hs.decide_flags hg (fun _ _ => rfl) (fun _ _ => rfl)
  have hfold := State.view_foldl (v := State.shape) (s := s)
    (f := fun s b => ((s.thaw b).unreserve b).failBranch b (some failure))
    (fun t b => (State.shape_of_rowless (State.rowless_unreserve (s := t.thaw b))).trans rfl)
    (s.groups.branches g)
  refine hflags.congr ?_
  exact congrArg (fun u : State => { u with
    groups.walDecided := update u.groups.walDecided g true
    formation := .idle }) hfold

theorem unwindGroup (hs : Shape s) {g : Nat} {failure : Errc}
    (hg : s.formation.group? = some g) : Shape (s.unwindGroup g failure) := by
  have hpublish := State.shape_of_core (State.view_foldl (v := State.core)
    (s := s.unwound g failure) (f := State.publishUnfrozen)
    (fun _ _ => State.core_publishUnfrozen) (s.groups.branches g))
  exact (hs.unwound _ hg).congr hpublish

theorem nextCut (hs : Shape s) (σ : Nat) (answer : CloseAnswer) :
    Shape (s.nextCut σ answer).2 := by
  unfold State.nextCut
  split
  · next target _ _ =>
    split
    · exact hs.congr State.shape_nextCutFailed
    · have hp := hs.congr (State.shape_promoteClosing (σ := σ))
      dsimp only
      split
      · exact hp
      · split
        · have hw := hp.setWriter (σ := σ) (w := (((s.promoteClosing σ).writer σ).closeRun answer).2)
            State.closeRun_reserved
          unfold State.closeForCut
          dsimp only
          split
          · exact hw.congr State.shape_keepClosing
          · split
            · exact hw.congr State.shape_nextCutFailed
            · exact hw
        · exact hp
  · exact hs

theorem barrierTurn (hs : Shape s) {σ : Nat} {unit : Bool} {answer : CloseAnswer} :
    Shape (s.barrierTurn σ unit answer) := by
  have hc := hs.nextCut σ answer
  unfold State.barrierTurn
  split
  · next cut t heq =>
    rw [heq] at hc
    split
    · exact Shape.congr (s := t) hc rfl
    · exact hc
  · next t heq =>
    rw [heq] at hc
    exact hc

theorem releaseHold (hs : Shape s) {σ : Nat} {answer : CloseAnswer} :
    Shape (s.releaseHold σ answer) := by
  have hw := hs.setWriter (σ := σ) (w := ((s.writer σ).closeRun answer).2) State.closeRun_reserved
  unfold State.releaseHold
  dsimp only
  split
  · exact hw.congr State.shape_keepClosing
  · exact hw

theorem markReady (hs : Shape s) {b : Nat} {f : Nat → Bool} (hq : s.branches.queued b = true)
    (hf : ∀ c, f c = true → c = b ∨ s.branches.submitted c = true)
    (hdec : s.branches.placement b = .wal → s.groups.walDecided (s.branches.group b) = true)
    (hacc : s.branches.placement b = .wal → f b = true →
      s.groups.walAccepted (s.branches.group b) = true) :
    Shape ({ s with branches.submitted := f }.markReady b) :=
  ((hs.ready_flags hq hf hdec hacc).passReady (σ := s.branches.slot b)).congr
    (State.shape_of_core State.core_publishReady)

/-- A WAL-placed branch that may be submitted is of an accepted group. -/
theorem accepted_of_canSubmit (hs : Shape s) {b : Nat} (hc : s.canSubmit b = true) :
    (s.branches.placement b = .wal → s.groups.walDecided (s.branches.group b) = true) ∧
      (s.branches.placement b = .wal → s.groups.walAccepted (s.branches.group b) = true) := by
  have hacc : s.branches.placement b = .wal →
      s.groups.walAccepted (s.branches.group b) = true := by
    intro hp
    simpa [State.canSubmit, hp] using hc
  refine ⟨?_, hacc⟩
  intro hp
  by_contra hd
  have := (hs.undecided _ (by simpa using hd)).1
  rw [hacc hp] at this
  cases this

theorem submitBranch (hs : Shape s) {b : Nat} {failure : Option Errc}
    (hq : s.branches.queued b = true) (hc : s.canSubmit b = true) :
    Shape (s.submitBranch b failure) := by
  obtain ⟨hdec, hacc⟩ := hs.accepted_of_canSubmit hc
  have hfail : Shape (s.failBranch b failure) := hs.congr rfl
  exact hfail.markReady hq (fun _ => submitted_of_update) hdec fun hp _ => hacc hp

theorem dropBranch (hs : Shape s) {b : Nat} (hq : s.branches.queued b = true)
    (hr : s.branches.ready b = false) (hc : s.canDrop b = true) : Shape (s.markReady b) := by
  simp only [State.canDrop, Bool.and_eq_true, decide_eq_true_eq] at hc
  refine hs.markReady (f := s.branches.submitted) hq (fun _ h => .inr h) (fun _ => hc.1.2) ?_
  intro _ h
  rw [hs.ready_of_submitted b h] at hr
  cases hr

theorem offer (hs : Shape s) {g : Nat} (hf : s.formation = .offering g) : Shape (s.offer g) := by
  have hg : s.formation.group? = some g := by rw [hf]; rfl
  refine { hs with undecided_iff := ?_, formation_lt := ?_, left_suffix := ?_,
                   left_unqueued := ?_ }
  · intro g' hg'
    have := hs.undecided_iff g' hg'
    rw [hg] at this
    exact this
  · intro g' hg'
    exact hs.formation_lt g' (hg.trans hg')
  · intro _ _
    exact List.nil_suffix
  · intro b hb
    cases hb

theorem writerFails (hs : Shape s) {segment : Nat} :
    Shape { s with
      writers := update s.writers segment { s.writers segment with failed := true } } := by
  refine { hs with end_le := ?_ }
  intro τ b hb
  refine (hs.end_le τ b hb).trans ?_
  by_cases hτ : s.slots.segment τ = segment
  · simp [hτ]
  · simp [hτ]

/-- **One action keeps the shape.** -/
theorem took (hs : Shape s) {a : Act} {s' : State} (h : Took s a s') : Shape s' := by
  cases h with
  | attach => exact hs.attach_slot.congr rfl
  | quiesce | sync | detach | restorePinned | dischargeDecision | dischargePublication | append
  | grantRejected | grant | abandon | abandonOpened | rotate | loopReturn | release =>
    exact hs.congr rfl
  | prepared => exact hs.congr (State.shape_of_core State.core_admitRequest)
  | wake => exact hs.congr (State.shape_of_core State.core_tryJoin)
  | failForming | failSegment => exact hs.congr (State.shape_of_core State.core_dropForming)
  | makeGroup hidle _ _ hchosen => exact hs.makeGroup hidle fun c hc => (hchosen c hc).1
  | unwindGroup hf => exact hs.unwindGroup (by rw [hf]; rfl)
  | freezeFailed hf => exact (hs.freeze_left hf).congr rfl
  | freeze hf hcan => exact (hs.freeze hf hcan).congr rfl
  | refuse hf =>
    rcases hf with ⟨left, hf⟩ | hf
    · exact hs.decideGroup (by rw [hf]; rfl)
    · exact hs.decideGroup (by rw [hf]; rfl)
  | offer hf => exact hs.offer hf
  | unoffered hf | accepted hf | refused hf | unknown hf =>
    exact hs.decideGroup (by rw [hf]; rfl)
  | submitBranch _ hq _ hcan => exact hs.submitBranch hq hcan
  | dropBranch _ hq hr hcan => exact hs.dropBranch hq hr hcan
  | settleWal _ hacc =>
    exact (hs.settle_flag hacc).congr
      ((State.shape_of_core (State.view_foldl (fun _ _ => State.core_publishQueued) _)).trans rfl)
  | barrierTurn => exact hs.barrierTurn
  | barrierDone =>
    exact hs.congr ((State.shape_of_core State.core_publishReady).trans rfl)
  | releaseHold => exact hs.releaseHold
  | writerFails => exact hs.writerFails

end Shape

end KwaqueStorage.Append
