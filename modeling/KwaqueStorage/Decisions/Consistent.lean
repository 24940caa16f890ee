import KwaqueStorage.Decisions.Log

/-!
# Held decisions agree

Three loops answer from what is held, and each returns at the first decision that matches. What they
answer is right because any two held decisions of a segment agree, whichever the first one is; with one
exception, which is a seal that stands before a decision of the PREPARE that is asked for.
-/

namespace KwaqueStorage.Decisions

open Lib
open Publication (Failure Outcome Fault Disposition pathError)
open KwaqueStorage.Control (RootReference CheckpointRoot)

/-- **Two decisions agree**: of one segment, seals are equal, decisions of one PREPARE are equal, and a
    candidate is reconstructed below a seal's end and discarded from it on. -/
structure Agree (x y : Decision) : Prop where
  seals : x.segment = y.segment → x.action = .sealAt → y.action = .sealAt → x = y
  prepares : x.segment = y.segment → x.action ≠ .sealAt → y.action ≠ .sealAt → x.prepare = y.prepare →
    x = y
  below : x.segment = y.segment → x.action ≠ .sealAt → y.action = .sealAt →
    x.action = sealedAction x.targetPosition y.targetPosition
  above : x.segment = y.segment → x.action = .sealAt → y.action ≠ .sealAt →
    y.action = sealedAction y.targetPosition x.targetPosition

theorem Agree.symm {x y : Decision} (h : Agree x y) : Agree y x :=
  ⟨fun hs hy hx => (h.seals hs.symm hx hy).symm, fun hs hy hx hp => (h.prepares hs.symm hx hy hp.symm).symm,
    fun hs hy hx => h.above hs.symm hx hy, fun hs hy hx => h.below hs.symm hx hy⟩

theorem Agree.refl (x : Decision) : Agree x x :=
  ⟨fun _ _ _ => rfl, fun _ _ _ _ => rfl, fun _ hx hy => absurd hy hx, fun _ hx hy => absurd hx hy⟩

/-- Any two that are held agree. -/
def Consistent (records : List DecisionRecord) : Prop :=
  ∀ x ∈ records, ∀ y ∈ records, Agree x.value y.value

/-- A new decision agrees with all that are held. -/
def Joins (records : List DecisionRecord) (value : Decision) : Prop := ∀ x ∈ records, Agree x.value value

section Answers

variable {records : List DecisionRecord} {r : CandidateResolution}

theorem Consistent.add (h : Consistent records) {value : Decision} (hnew : Joins records value) (pin : Pin) :
    Consistent (records ++ [⟨pin, value⟩]) := by
  intro x hx y hy
  rw [List.mem_append, List.mem_singleton] at hx hy
  rcases hx with hx | rfl
  · rcases hy with hy | rfl
    · exact h x hx y hy
    · exact hnew x hx
  · rcases hy with hy | rfl
    · exact (hnew y hy).symm
    · exact Agree.refl value

/-! ## What is adopted -/

/-- `held_by` finds nothing, or the decision itself, or one that it contradicts. -/
theorem heldBy_joins (h : Consistent records) {value : Decision}
    (hheld : (heldBy value records).any (fun held => held.status ≠ .exists_) = false) :
    Joins records value := by
  -- over the rest of the list that is not passed yet
  have hfirst : ∀ rest : List DecisionRecord, (∀ x ∈ rest, x ∈ records) →
      (heldBy value rest).any (fun held => held.status ≠ .exists_) = false →
      (∃ x ∈ records, x.value = value) ∨ ∀ x ∈ rest, Agree x.value value := by
    intro rest
    induction rest with
    | nil => exact fun _ _ => .inr fun x hx => (by cases hx)
    | cons stored rest ih =>
      intro hin hheld
      have hrest := ih fun x hx => hin x (List.mem_cons_of_mem _ hx)
      have hpassed : (heldBy value rest).any (fun held => held.status ≠ .exists_) = false →
          Agree stored.value value → (∃ x ∈ records, x.value = value)
            ∨ ∀ x ∈ stored :: rest, Agree x.value value := by
        intro hnext hagree
        rcases hrest hnext with hfound | hall
        · exact .inl hfound
        · right
          intro x hx
          rcases List.mem_cons.mp hx with rfl | hx
          · exact hagree
          · exact hall x hx
      unfold heldBy at hheld
      dsimp only at hheld
      split at hheld
      next hother =>
        exact hpassed hheld ⟨fun hs => absurd hs hother, fun hs => absurd hs hother,
          fun hs => absurd hs hother, fun hs => absurd hs hother⟩
      next =>
        split at hheld
        next =>
          split at hheld
          next hsame => exact .inl ⟨stored, hin stored List.mem_cons_self, hsame⟩
          next => cases hheld
        next hunlike =>
          split at hheld
          next => cases hheld
          next hunopposed =>
            rw [not_or] at hunlike hunopposed
            refine hpassed hheld ⟨?_, ?_, ?_, ?_⟩
            · intro _ hx hy
              exact absurd ⟨hy, hx⟩ hunlike.1
            · intro _ hx hy hp
              exact absurd ⟨hy, hx, hp⟩ hunlike.2
            · intro _ hx hy
              have hagree := fun hbad => hunopposed.1 ⟨hy, hx, hbad⟩
              exact of_decide_eq_true (Bool.eq_true_of_not_eq_false hagree)
            · intro _ hx hy
              have hagree := fun hbad => hunopposed.2 ⟨hy, hx, hbad⟩
              exact of_decide_eq_true (Bool.eq_true_of_not_eq_false hagree)
  rcases hfirst records (fun x hx => hx) hheld with ⟨y, hy, rfl⟩ | hall
  · exact fun x hx => h x hx y hy
  · exact hall

/-! ## A candidate's resolution -/

/-- The resolution says what the decision says. -/
def CandidateResolution.Same (r : CandidateResolution) (x : Decision) : Prop :=
  x.targetPosition = r.target ∧ x.action = r.action ∧ x.ownerDecisionId = r.ownerDecisionId

/-- **The resolution agrees with a decision** of its segment: with a seal by its end, with a decision of
    its PREPARE in everything. -/
structure CandidateResolution.Agrees (r : CandidateResolution) (x : Decision) : Prop where
  seal_ : x.segment = r.segment → x.action = .sealAt → r.action = sealedAction r.target x.targetPosition
  prepare : x.segment = r.segment → x.action ≠ .sealAt → x.prepare = r.prepare → r.Same x

/-- The first held decision that answers a candidate's resolution. -/
def first (r : CandidateResolution) (records : List DecisionRecord) : Option DecisionRecord :=
  records.find? fun x => x.value.segment = r.segment ∧ (x.value.action = .sealAt ∨ x.value.prepare = r.prepare)

instance (x : Decision) : Decidable (r.Same x) := by
  unfold CandidateResolution.Same
  infer_instance

/-- What it answers. -/
def CandidateResolution.status (r : CandidateResolution) (x : Decision) : Status :=
  if x.action = .sealAt then
    if r.action = sealedAction r.target x.targetPosition then .resolved else .conflict
  else if r.Same x then .exists_ else .conflict

theorem answer_eq : answer r records = (first r records).map fun x => ⟨r.status x.value, x⟩ := by
  induction records with
  | nil => rfl
  | cons stored rest ih =>
    unfold answer first
    dsimp only
    by_cases hsegment : stored.value.segment = r.segment
    · rw [if_neg (not_not.mpr hsegment)]
      by_cases hseal : stored.value.action = .sealAt
      · rw [if_pos hseal, List.find?_cons_of_pos (by simp [hsegment, hseal])]
        simp [CandidateResolution.status, hseal]
      · rw [if_neg hseal]
        by_cases hprepare : stored.value.prepare = r.prepare
        · rw [if_pos hprepare, List.find?_cons_of_pos (by simp [hsegment, hprepare])]
          simp [CandidateResolution.status, hseal, CandidateResolution.Same]
        · rw [if_neg hprepare, List.find?_cons_of_neg (by simp [hseal, hprepare]), ih]
          rfl
    · rw [if_pos hsegment, List.find?_cons_of_neg (by simp [hsegment]), ih]
      rfl

/-- **A decision is shadowed**: a seal of the segment stands before the decisions of the PREPARE, the
    resolution agrees with the seal, and one of those decisions says otherwise. -/
def Shadowed (records : List DecisionRecord) (r : CandidateResolution) : Prop :=
  ∃ stored, first r records = some stored ∧ stored.value.action = .sealAt
    ∧ r.action = sealedAction r.target stored.value.targetPosition
    ∧ ∃ x ∈ records, x.value.segment = r.segment ∧ x.value.action ≠ .sealAt
      ∧ x.value.prepare = r.prepare ∧ ¬ r.Same x.value

/-- The answer is right: it exists or is resolved where the resolution agrees with everything that is
    held, and is a conflict where it does not. -/
def Right (records : List DecisionRecord) (r : CandidateResolution) (status : Status) : Prop :=
  ((status = .exists_ ∨ status = .resolved) ↔ ∀ x ∈ records, r.Agrees x.value)
    ∧ (status = .conflict ↔ ¬ ∀ x ∈ records, r.Agrees x.value)

theorem right_iff {status : Status} (hstatus : status ≠ .created) :
    Right records r status ↔ (status ≠ .conflict ↔ ∀ x ∈ records, r.Agrees x.value) := by
  unfold Right
  cases status with
  | created => exact absurd rfl hstatus
  | exists_ => simp
  | resolved => simp
  | conflict => simp

theorem status_ne_created (x : Decision) : r.status x ≠ .created := by
  unfold CandidateResolution.status
  split
  next => split <;> exact nofun
  next => split <;> exact nofun

theorem first_spec {stored : DecisionRecord} (h : first r records = some stored) :
    stored ∈ records ∧ stored.value.segment = r.segment
      ∧ (stored.value.action = .sealAt ∨ stored.value.prepare = r.prepare) := by
  have hmatch := List.find?_some h
  rw [decide_eq_true_eq] at hmatch
  exact ⟨List.mem_of_find?_eq_some h, hmatch⟩

/-- **A candidate's answer is right exactly where no decision is shadowed.** -/
theorem answer_right (h : Consistent records) {outcome : DecisionOutcome}
    (hanswer : answer r records = some outcome) :
    Right records r outcome.status ↔ ¬ Shadowed records r := by
  rw [answer_eq] at hanswer
  obtain ⟨stored, hfirst, rfl⟩ := Option.map_eq_some_iff.mp hanswer
  obtain ⟨hin, hsegment, hmatch⟩ := first_spec hfirst
  rw [right_iff (status_ne_created _)]
  by_cases hseal : stored.value.action = .sealAt
  · -- every seal of the segment is this one
    have hseals : ∀ x ∈ records, x.value.segment = r.segment → x.value.action = .sealAt →
        x.value = stored.value :=
      fun x hx hs hx' => (h x hx stored hin).seals (hs.trans hsegment.symm) hx' hseal
    by_cases hagrees : r.action = sealedAction r.target stored.value.targetPosition
    · have hstatus : r.status stored.value = .resolved := by
        simp [CandidateResolution.status, hseal, hagrees]
      rw [hstatus]
      have hall : (∀ x ∈ records, r.Agrees x.value) ↔ ¬ Shadowed records r := by
        refine ⟨?_, ?_⟩
        · rintro hall ⟨_, _, _, _, x, hx, hs, hc, hp, hnot⟩
          exact hnot ((hall x hx).prepare hs hc hp)
        · intro hclear x hx
          refine ⟨?_, ?_⟩
          · intro hs hx'
            rw [hseals x hx hs hx']
            exact hagrees
          · intro hs hc hp
            by_contra hnot
            exact hclear ⟨stored, hfirst, hseal, hagrees, x, hx, hs, hc, hp, hnot⟩
      rw [← hall]
      simp
    · have hstatus : r.status stored.value = .conflict := by
        simp [CandidateResolution.status, hseal, hagrees]
      rw [hstatus]
      have hnot : ¬ ∀ x ∈ records, r.Agrees x.value :=
        fun hall => hagrees ((hall stored hin).seal_ hsegment hseal)
      have hclear : ¬ Shadowed records r := by
        rintro ⟨stored', hfirst', _, hagrees', _⟩
        obtain rfl := Option.some.inj (hfirst.symm.trans hfirst')
        exact hagrees hagrees'
      simp [hnot, hclear]
  · have hprepare : stored.value.prepare = r.prepare := hmatch.resolve_left hseal
    have hclear : ¬ Shadowed records r := by
      rintro ⟨stored', hfirst', hseal', _⟩
      obtain rfl := Option.some.inj (hfirst.symm.trans hfirst')
      exact hseal hseal'
    by_cases hsame : r.Same stored.value
    · have hstatus : r.status stored.value = .exists_ := by
        simp [CandidateResolution.status, hseal, hsame]
      have hall : ∀ x ∈ records, r.Agrees x.value := by
        intro x hx
        have hagree := h stored hin x hx
        refine ⟨?_, ?_⟩
        · intro hs hx'
          have hbelow := hagree.below (hsegment.trans hs.symm) hseal hx'
          rw [hsame.1, hsame.2.1] at hbelow
          exact hbelow
        · intro hs hc hp
          rw [← hagree.prepares (hsegment.trans hs.symm) hseal hc (hprepare.trans hp.symm)]
          exact hsame
      rw [hstatus]
      simp only [ne_eq, reduceCtorEq, not_false_eq_true, true_iff]
      exact ⟨fun _ => hclear, fun _ => hall⟩
    · have hstatus : r.status stored.value = .conflict := by
        simp [CandidateResolution.status, hseal, hsame]
      have hnot : ¬ ∀ x ∈ records, r.Agrees x.value :=
        fun hall => hsame ((hall stored hin).prepare hsegment hseal hprepare)
      rw [hstatus]
      simp [hnot, hclear]

/-- A resolution that nothing answers agrees with everything that is held. -/
theorem answer_none (h : answer r records = none) (hseal : r.action ≠ .sealAt) (digest : Nat) :
    Joins records ⟨r.prepare, digest, r.segment, r.target, r.action, r.ownerDecisionId⟩ := by
  rw [answer_eq, Option.map_eq_none_iff, first, List.find?_eq_none] at h
  intro x hx
  have hsilent := h x hx
  simp only [decide_eq_true_eq, not_and, not_or] at hsilent
  refine ⟨?_, ?_, ?_, ?_⟩
  · intro _ _ hy
    exact absurd hy hseal
  · intro hs _ _ hp
    exact absurd hp (hsilent hs).2
  · intro _ _ hy
    exact absurd hy hseal
  · intro hs hx' _
    exact absurd hx' (hsilent hs).1

/-! ## A seal's resolution -/

/-- **A seal's resolution agrees with a decision** of its segment. -/
structure SealResolution.Agrees (r : SealResolution) (x : Decision) : Prop where
  seal_ : x.segment = r.segment → x.action = .sealAt →
    x.targetPosition = r.end_ ∧ x.ownerDecisionId = r.ownerDecisionId
  candidate : x.segment = r.segment → x.action ≠ .sealAt → x.action = sealedAction x.targetPosition r.end_

/-- **A seal's answer is right.** -/
theorem settled_right (h : Consistent records) {r : SealResolution} {outcome : DecisionOutcome}
    (hsettled : settled records r = some outcome) :
    (outcome.status = .exists_ ↔ ∀ x ∈ records, r.Agrees x.value)
      ∧ (outcome.status = .conflict ↔ ¬ ∀ x ∈ records, r.Agrees x.value) := by
  unfold settled at hsettled
  split at hsettled
  next stored hfound =>
    cases hsettled
    have hin := List.mem_of_find?_eq_some hfound
    have hmatch := List.find?_some hfound
    rw [decide_eq_true_eq] at hmatch
    obtain ⟨hsegment, hseal⟩ := hmatch
    dsimp only
    by_cases hsame : stored.value.targetPosition = r.end_ ∧ stored.value.ownerDecisionId = r.ownerDecisionId
    · have hall : ∀ x ∈ records, r.Agrees x.value := by
        intro x hx
        have hagree := h x hx stored hin
        refine ⟨?_, ?_⟩
        · intro hs hx'
          rw [hagree.seals (hs.trans hsegment.symm) hx' hseal]
          exact hsame
        · intro hs hc
          rw [← hsame.1]
          exact hagree.below (hs.trans hsegment.symm) hc hseal
      rw [if_pos hsame]
      exact ⟨⟨fun _ => hall, fun _ => rfl⟩, nofun, fun hbad => absurd hall hbad⟩
    · have hnot : ¬ ∀ x ∈ records, r.Agrees x.value :=
        fun hall => hsame ((hall stored hin).seal_ hsegment hseal)
      rw [if_neg hsame]
      simp [hnot]
  next hnone =>
    obtain ⟨stored, hfound, rfl⟩ := Option.map_eq_some_iff.mp hsettled
    have hin := List.mem_of_find?_eq_some hfound
    have hmatch := List.find?_some hfound
    rw [decide_eq_true_eq] at hmatch
    obtain ⟨hsegment, hcontra⟩ := hmatch
    rw [List.find?_eq_none] at hnone
    have hcandidate : stored.value.action ≠ .sealAt := by
      intro hseal
      exact hnone stored hin (decide_eq_true ⟨hsegment, hseal⟩)
    have hnot : ¬ ∀ x ∈ records, r.Agrees x.value := by
      intro hall
      have hagree := (hall stored hin).candidate hsegment hcandidate
      rw [recoveryDecisionsAgree, decide_eq_false_iff_not] at hcontra
      exact hcontra hagree
    simp [hnot]

/-- A seal that nothing settles agrees with everything that is held. -/
theorem settled_none {r : SealResolution} (h : settled records r = none) (prepare : Cursor) (digest : Nat) :
    Joins records ⟨prepare, digest, r.segment, r.end_, .sealAt, r.ownerDecisionId⟩ := by
  unfold settled at h
  split at h
  next => cases h
  next hnone =>
    rw [Option.map_eq_none_iff, List.find?_eq_none] at h
    rw [List.find?_eq_none] at hnone
    intro x hx
    have hother : x.value.segment = r.segment → x.value.action ≠ .sealAt :=
      fun hs hx' => hnone x hx (decide_eq_true ⟨hs, hx'⟩)
    refine ⟨?_, ?_, ?_, ?_⟩
    · intro hs hx' _
      exact absurd hx' (hother hs)
    · intro _ _ hy
      exact absurd rfl hy
    · intro hs _ _
      by_contra hbad
      refine h x hx (decide_eq_true ⟨hs, ?_⟩)
      rw [recoveryDecisionsAgree, decide_eq_false_iff_not]
      exact hbad
    · intro _ _ hy
      exact absurd rfl hy

end Answers

end KwaqueStorage.Decisions
