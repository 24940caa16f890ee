import KwaqueStorage.Recovery.Observed

/-!
# What a plan says

A segment's plan is made from its report alone, in one of three ways: it is stopped, it is sealed, or its boundary
is published. `Planned` says what they have in common, and `recovery_plan_correct` puts them together with the
flags of the WAL.
-/

namespace KwaqueStorage.Recovery

open Extent Lib SegmentScan
open Pins (ObjectState)

/-! ## The plan of a segment -/

/-- A report that stops its segment: it is corrupt, conflicting or misplaced. -/
def SegmentReport.stopped (report : SegmentReport) : Bool :=
  report.verdict = .corrupt ∨ report.conflicts ≠ 0 ∨ report.misplaced ≠ 0

/-- A report whose boundary reaches its pin. -/
def SegmentReport.Reaches (report : SegmentReport) : Prop :=
  ∀ pin, report.pin = some pin → ∃ found, report.boundary = some found ∧ pin.position ≤ found.footer.position

/-- **What a segment's plan is, from its report**: it stops if the report does, no boundary that it plans is
    below the pin, an unsealed segment with a pin has one, and its end is the boundary's, or the logical origin
    without one. -/
structure Planned (origin : Nat) (report : SegmentReport) (plan : SegmentPlan) : Prop where
  segment : plan.segment = report.segment
  stops : plan.action = .stop ↔ report.stopped = true
  above : plan.action ≠ .stop → ∀ boundary pin, plan.boundary = some boundary → report.pin = some pin →
    pin.position ≤ boundary.position
  bounded : plan.action ≠ .stop → report.state ≠ .sealed_ →
    plan.boundary = report.boundary.map ScanBoundary.footer ∧ (report.pin.isSome → plan.boundary.isSome)
  ends : ∀ boundary, plan.boundary = some boundary → ∃ found, report.boundary = some found ∧
    found.footer = boundary ∧ plan.recoveredEnd = found.fields.coverage.logical.end_
  origin : plan.boundary = none → plan.recoveredEnd = origin

theorem bounded_boundary (report : SegmentReport) :
    report.bounded.boundary = report.boundary.map ScanBoundary.footer := by
  unfold SegmentReport.bounded
  cases report.boundary <;> rfl

variable {report : SegmentReport}

theorem bounded_end {found : ScanBoundary} (h : report.boundary = some found) :
    report.bounded.recoveredEnd = found.fields.coverage.logical.end_ := by
  unfold SegmentReport.bounded
  rw [h]

theorem bounded_segment (report : SegmentReport) : report.bounded.segment = report.segment := by
  unfold SegmentReport.bounded
  cases report.boundary <;> rfl

/-- The plan of a segment that is stopped. -/
theorem plan_stopped (hstop : report.stopped = true) :
    ∃ reason, planRecoverySegment report = .ok { report.basis with action := .stop, reason } := by
  have hany := of_decide_eq_true hstop
  unfold planRecoverySegment
  dsimp only
  split
  · exact ⟨_, rfl⟩
  · next hverdict =>
    split
    · exact ⟨_, rfl⟩
    · next hconflicts =>
      have hmisplaced := (hany.resolve_left hverdict).resolve_left hconflicts
      rw [if_pos hmisplaced]
      exact ⟨_, rfl⟩

/-- The plan of a sealed one that is not. -/
theorem plan_sealed (hgoes : report.stopped = false) (hsealed : report.state = .sealed_) :
    planRecoverySegment report = .ok { report.basis with action := .retain } := by
  have hnot := of_decide_eq_false hgoes
  rw [not_or, not_or] at hnot
  unfold planRecoverySegment
  simp only [if_neg hnot.1, if_neg hnot.2.1, if_neg hnot.2.2, if_pos hsealed]

/-- The plan of a segment that nothing stops and that is not sealed. -/
theorem plan_open (hgoes : report.stopped = false) (hopen : report.state ≠ .sealed_) :
    planRecoverySegment report =
      if report.pin.any fun pin => report.bounded.boundary.all fun b => decide (b.position < pin.position) then
        .error .invariantViolation
      else
        .ok { report.bounded with
          action := if report.state = .recovering ∧ report.bounded.boundary = report.pin then .retain
            else .publishRecovering } := by
  have hnot := of_decide_eq_false hgoes
  rw [not_or, not_or] at hnot
  unfold planRecoverySegment
  simp only [if_neg hnot.1, if_neg hnot.2.1, if_neg hnot.2.2, if_neg hopen]

theorem reaches_iff (report : SegmentReport) :
    (report.pin.any fun pin => report.bounded.boundary.all fun b => decide (b.position < pin.position)) = false ↔
      report.Reaches := by
  unfold SegmentReport.Reaches
  rw [bounded_boundary]
  cases report.pin with
  | none => exact iff_of_true rfl fun _ h => nomatch h
  | some pin =>
    cases report.boundary with
    | none =>
      refine iff_of_false nofun fun h => ?_
      obtain ⟨_, h, _⟩ := h pin rfl
      cases h
    | some found =>
      show decide (found.footer.position < pin.position) = false ↔ _
      rw [decide_eq_false_iff_not, Nat.not_lt]
      constructor
      · intro hle pin' hpin
        cases hpin
        exact ⟨found, rfl, hle⟩
      · intro h
        obtain ⟨found', hfound, hle⟩ := h pin rfl
        cases hfound
        exact hle

/-- A segment's plan fails only where its boundary does not reach its pin. -/
theorem planTarget_exists {slot : SegmentPlan}
    (hreaches : report.stopped = false → report.state ≠ .sealed_ → report.Reaches) :
    ∃ plan, Planner.planTarget slot report = .ok plan := by
  suffices h : ∃ plan, planRecoverySegment report = .ok plan by
    obtain ⟨plan, h⟩ := h
    unfold Planner.planTarget
    rw [h]
    exact ⟨_, rfl⟩
  by_cases hstop : report.stopped = true
  · obtain ⟨reason, h⟩ := plan_stopped hstop
    exact ⟨_, h⟩
  · have hgoes := Bool.eq_false_iff.mpr hstop
    by_cases hsealed : report.state = .sealed_
    · exact ⟨_, plan_sealed hgoes hsealed⟩
    · rw [plan_open hgoes hsealed, (reaches_iff report).mpr (hreaches hgoes hsealed)]
      exact ⟨_, rfl⟩

/-- The plan of an open segment whose boundary reaches its pin. -/
theorem planned_open {origin : Nat} (hgoes : ¬ report.stopped = true) (hreaches : report.Reaches)
    {action : PlanAction} (haction : action ≠ .stop) :
    Planned origin report
      (if report.bounded.boundary.isNone then { report.bounded with action, recoveredEnd := origin }
        else { report.bounded with action }) := by
  have hboundary := bounded_boundary report
  have hsegment := bounded_segment report
  cases hfound : report.boundary with
  | none =>
    rw [hfound] at hboundary
    have hpin : report.pin = none := by
      cases hp : report.pin with
      | none => rfl
      | some pin =>
        obtain ⟨found, hsome, _⟩ := hreaches pin hp
        exact nomatch hfound.symm.trans hsome
    rw [if_pos (by rw [hboundary]; rfl)]
    refine ⟨hsegment, iff_of_false haction hgoes, fun _ _ _ hsome => ?_, fun _ _ => ⟨bounded_boundary report, ?_⟩,
      fun _ hsome => ?_, fun _ => rfl⟩
    · exact nomatch hboundary.symm.trans hsome
    · rw [hpin]
      exact nofun
    · exact nomatch hboundary.symm.trans hsome
  | some found =>
    rw [hfound] at hboundary
    rw [if_neg (by rw [hboundary]; exact nofun)]
    refine ⟨hsegment, iff_of_false haction hgoes, fun _ boundary pin hsome hpin => ?_,
      fun _ _ => ⟨bounded_boundary report, fun _ => ?_⟩, fun boundary hsome => ?_, fun hnone => ?_⟩
    · obtain ⟨found', hsome', hle⟩ := hreaches pin hpin
      cases hfound.symm.trans hsome'
      cases hboundary.symm.trans hsome
      exact hle
    · show report.bounded.boundary.isSome = true
      rw [hboundary]
      rfl
    · cases hboundary.symm.trans hsome
      exact ⟨found, hfound, rfl, bounded_end hfound⟩
    · exact nomatch hboundary.symm.trans hnone

/-- What a segment's plan is, if there is one. -/
theorem planTarget_spec {slot plan : SegmentPlan} (h : Planner.planTarget slot report = .ok plan) :
    Planned slot.recoveredEnd report plan ∧
      (report.stopped = false → report.state ≠ .sealed_ → report.Reaches) := by
  unfold Planner.planTarget at h
  by_cases hstop : report.stopped = true
  · obtain ⟨reason, hplan⟩ := plan_stopped hstop
    rw [hplan] at h
    cases h
    refine ⟨⟨rfl, iff_of_true rfl hstop, fun hne => absurd rfl hne, fun hne => absurd rfl hne,
      fun _ hsome => (nomatch hsome), fun _ => rfl⟩, fun hgoes => ?_⟩
    exact absurd (hgoes.symm.trans hstop) Bool.false_ne_true
  · have hgoes := Bool.eq_false_iff.mpr hstop
    by_cases hsealed : report.state = .sealed_
    · rw [plan_sealed hgoes hsealed] at h
      cases h
      exact ⟨⟨rfl, iff_of_false nofun hstop, fun _ _ _ hsome => (nomatch hsome),
        fun _ hopen => absurd hsealed hopen, fun _ hsome => (nomatch hsome), fun _ => rfl⟩,
        fun _ hopen => absurd hsealed hopen⟩
    · rw [plan_open hgoes hsealed] at h
      split at h
      · cases h
      · next hany =>
        have hreaches := (reaches_iff report).mp (Bool.eq_false_iff.mpr hany)
        cases h
        refine ⟨planned_open hstop hreaches ?_, fun _ _ => hreaches⟩
        split
        · exact nofun
        · exact nofun

/-! ## The whole plan -/

/-- A table of slots that are all filled. -/
theorem mapM_id_eq_some {α : Type} : ∀ {l : List (Option α)} {l' : List α},
    l.mapM id = some l' ↔ l = l'.map some
  | [], l' => by
    rw [List.mapM_nil]
    constructor
    · intro h
      cases h
      rfl
    · intro h
      rw [List.map_eq_nil_iff.mp h.symm]
      rfl
  | none :: l, l' => by
    rw [List.mapM_cons]
    refine iff_of_false nofun fun h => ?_
    cases l' <;> cases h
  | some a :: l, l' => by
    rw [List.mapM_cons]
    show (l.mapM id).bind (fun rest => some (a :: rest)) = some l' ↔ _
    rw [Option.bind_eq_some_iff]
    constructor
    · rintro ⟨rest, hrest, h⟩
      cases h
      rw [mapM_id_eq_some.mp hrest]
      rfl
    · intro h
      cases l' with
      | nil => cases h
      | cons a' rest =>
        cases h
        exact ⟨rest, mapM_id_eq_some.mpr rfl, rfl⟩

/-- Slots that are all filled are those of some table. -/
theorem exists_filled {α : Type} : ∀ {l : List (Option α)}, (∀ slot ∈ l, slot ≠ none) → ∃ l' : List α, l = l'.map some
  | [], _ => ⟨[], rfl⟩
  | none :: l, h => absurd rfl (h none (List.mem_cons_self ..))
  | some a :: l, h => by
    obtain ⟨l', hl'⟩ := exists_filled fun slot hslot => h slot (List.mem_cons_of_mem _ hslot)
    exact ⟨a :: l', by rw [hl']; rfl⟩

theorem mapM_exists {ε α β : Type} {g : α → Except ε β} : ∀ {l : List α}, (∀ a ∈ l, ∃ b, g a = .ok b) →
    ∃ l', l.mapM g = .ok l'
  | [], _ => ⟨[], rfl⟩
  | a :: l, h => by
    obtain ⟨b, hb⟩ := h a (List.mem_cons_self ..)
    obtain ⟨l', hl'⟩ := mapM_exists fun a ha => h a (List.mem_cons_of_mem _ ha)
    exact ⟨b :: l', mapM_eq_ok.mpr (.cons hb (mapM_eq_ok.mp hl'))⟩

namespace Observed

variable {targets : List PlanTarget} {items : List Item} {p p' : Planner} {merged : MergeResult}

/-- What a planner has finished with: for each target, in order, the plan of the report of its segment. -/
theorem finish (h : Observed targets items p) (hok : p.finish merged = .ok p') :
    merged.resume = false ∧ merged.wal.complete = true ∧
    List.Forall₂ (fun t plan => ∃ report ∈ reportsOf items, report.segment = t.segment ∧
      Planner.planTarget t.start report = .ok plan) targets p'.segments ∧
    p'.ready = (decide ((planRecoveryWal merged.wal p.walCorrupt).action ≠ .stop)
      && p'.segments.all fun plan => decide (plan.action ≠ .stop)) := by
  obtain ⟨_, hrequire, hok⟩ := bind_eq_ok.mp hok
  have hgoes := require_eq_ok.mp hrequire
  rw [not_or, not_or] at hgoes
  obtain ⟨reports, hreports, hok⟩ := bind_eq_ok.mp hok
  obtain ⟨plans, hplans, hok⟩ := bind_eq_ok.mp hok
  have hslots := mapM_id_eq_some.mp (expect_eq_ok.mp hreports)
  have hforall := mapM_eq_ok.mp hplans
  cases hok
  refine ⟨Bool.eq_false_iff.mpr hgoes.2.1, Bool.not_eq_false _ ▸ hgoes.2.2, ?_, rfl⟩
  show List.Forall₂ _ targets plans
  have hlength : reports.length = targets.length := by
    rw [← h.length, hslots, List.length_map]
  rw [h.segments] at hforall
  refine List.forall₂_iff_get.mpr ⟨?_, fun i hi hi' => ?_⟩
  · rw [← hforall.length_eq, List.length_zip, List.length_map, hlength, Nat.min_self]
  · have hzip : i < ((targets.map PlanTarget.start).zip reports).length := by
      rw [List.length_zip, List.length_map, hlength, Nat.min_self]
      exact hi
    have hat := (List.forall₂_iff_get.mp hforall).2 i hzip hi'
    have hir : i < reports.length := hlength ▸ hi
    have hheld : p.reports[i]? = some (some reports[i]) := by
      rw [hslots, List.getElem?_map, List.getElem?_eq_getElem hir]
      rfl
    obtain ⟨hmem, hsegment⟩ := (h.held i _).mp hheld
    rw [List.getElem?_eq_getElem hi] at hsegment
    refine ⟨reports[i], hmem, (Option.some_inj.mp hsegment).symm, ?_⟩
    simpa using hat

/-- A merge that ran to its end and reported every target, each as its pin allows, is planned. -/
theorem finish_exists (h : Observed targets items p) (hresume : merged.resume = false)
    (hcomplete : merged.wal.complete = true)
    (hall : ∀ t ∈ targets, ∃ report ∈ reportsOf items, report.segment = t.segment)
    (hreaches : ∀ report ∈ reportsOf items, report.stopped = false → report.state ≠ .sealed_ → report.Reaches) :
    ∃ p', p.finish merged = .ok p' := by
  have hfilled : ∀ slot ∈ p.reports, slot ≠ none := by
    rintro slot hslot rfl
    obtain ⟨i, hi⟩ := List.mem_iff_getElem?.mp hslot
    have hlt : i < targets.length := h.length ▸ (List.getElem?_eq_some_iff.mp hi).1
    obtain ⟨report, hmem, hsegment⟩ := hall targets[i] (List.getElem_mem hlt)
    have hheld := (h.held i report).mpr ⟨hmem, by rw [List.getElem?_eq_getElem hlt, hsegment]; rfl⟩
    exact nomatch hi.symm.trans hheld
  obtain ⟨reports, hslots⟩ := exists_filled hfilled
  obtain ⟨plans, hplans⟩ : ∃ plans, ((p.segments.zip reports).mapM fun x => Planner.planTarget x.1 x.2) =
      .ok plans := by
    refine mapM_exists fun x hx => planTarget_exists (hreaches x.2 ?_)
    obtain ⟨i, hi⟩ := List.mem_iff_getElem?.mp (List.of_mem_zip hx).2
    refine ((h.held i x.2).mp ?_).1
    rw [hslots, List.getElem?_map, hi]
    rfl
  refine ⟨_, bind_eq_ok.mpr ⟨(), require_eq_ok.mpr ?_, bind_eq_ok.mpr ⟨reports, ?_,
    bind_eq_ok.mpr ⟨plans, hplans, rfl⟩⟩⟩⟩
  · rw [h.opened, hresume, hcomplete]
    decide
  · exact expect_eq_ok.mpr (mapM_id_eq_some.mpr hslots)

end Observed

/-- The WAL stops the plan when its scan found it corrupt, or a region of it is. -/
theorem planRecoveryWal_stops (scan : WalResult) (corruptRegion : Bool) :
    (planRecoveryWal scan corruptRegion).action = .stop ↔ scan.verdict = .corrupt ∨ corruptRegion = true := by
  unfold planRecoveryWal
  dsimp only
  split
  · next h => exact iff_of_true rfl h
  · next h =>
    refine iff_of_false ?_ h
    split <;> exact nofun

section Plan

variable {targets : List PlanTarget} {items : List Item} {merged : MergeResult} {p : Planner}

theorem make_iff : (∃ p, Planner.make targets = .ok p) ↔ validateRecoveryTargets [] targets = true := by
  unfold Planner.make
  split
  · next h => exact iff_of_false (fun ⟨_, hok⟩ => nomatch hok) fun h' => Bool.false_ne_true (h.symm.trans h')
  · next h => exact iff_of_true ⟨_, rfl⟩ (Bool.not_eq_false _ ▸ h)

/-- A plan is that of a planner which has observed every item. -/
theorem plan_eq_ok (h : plan targets items merged = .ok p) :
    validateRecoveryTargets [] targets = true ∧ ∃ p₀, Observed targets items p₀ ∧ p₀.finish merged = .ok p := by
  obtain ⟨made, hmade, h⟩ := bind_eq_ok.mp h
  obtain ⟨p₀, hp₀, h⟩ := bind_eq_ok.mp h
  exact ⟨make_iff.mp ⟨made, hmade⟩, p₀, (Observed.start hmade).observeAll.1 p₀ hp₀, h⟩

/-- Each report is the one a target was planned by. -/
theorem planned_by {p₀ : Planner} (hobserved : Observed targets items p₀)
    {plans : List SegmentPlan} (hforall : List.Forall₂ (fun t plan => ∃ report ∈ reportsOf items,
      report.segment = t.segment ∧ Planner.planTarget t.start report = .ok plan) targets plans)
    {report : SegmentReport} (hreport : report ∈ reportsOf items) :
    ∃ t ∈ targets, ∃ plan ∈ plans, Planner.planTarget t.start report = .ok plan := by
  obtain ⟨t, ht, hsegment⟩ := List.mem_map.mp (hobserved.known report hreport)
  obtain ⟨i, hi⟩ := List.mem_iff_get.mp ht
  have hget := (List.forall₂_iff_get.mp hforall).2 i.1 i.2 (hforall.length_eq ▸ i.2)
  obtain ⟨other, hother, hsame, hplan⟩ := hget
  have hsegments : other.segment = report.segment := by
    rw [hsame, ← hsegment, ← hi]
  obtain rfl := List.inj_on_of_nodup_map hobserved.apart hother hreport hsegments
  exact ⟨_, List.get_mem _ _, _, List.get_mem _ _, hplan⟩

/-- A plan was made of a merge that ran to its end, with one report for each target. -/
theorem plan_complete (h : plan targets items merged = .ok p) :
    validateRecoveryTargets [] targets = true ∧ merged.resume = false ∧ merged.wal.complete = true ∧
      ((reportsOf items).map SegmentReport.segment).Perm (targets.map PlanTarget.segment) ∧
      ∀ report ∈ reportsOf items, report.stopped = false → report.state ≠ .sealed_ → report.Reaches := by
  obtain ⟨hvalid, p₀, hobserved, hfinish⟩ := plan_eq_ok h
  obtain ⟨hresume, hcomplete, hforall, _⟩ := hobserved.finish hfinish
  refine ⟨hvalid, hresume, hcomplete, ?_, fun report hreport => ?_⟩
  · refine (List.perm_ext_iff_of_nodup hobserved.apart (validate_apart hvalid).1).mpr fun segment => ⟨?_, ?_⟩
    · intro hmem
      obtain ⟨report, hreport, rfl⟩ := List.mem_map.mp hmem
      exact hobserved.known report hreport
    · intro hmem
      obtain ⟨t, ht, rfl⟩ := List.mem_map.mp hmem
      obtain ⟨i, rfl⟩ := List.mem_iff_get.mp ht
      obtain ⟨report, hreport, hsegment, _⟩ :=
        (List.forall₂_iff_get.mp hforall).2 i.1 i.2 (hforall.length_eq ▸ i.2)
      exact List.mem_map.mpr ⟨report, hreport, hsegment⟩
  · obtain ⟨t, _, plan, _, hplan⟩ := planned_by hobserved hforall hreport
    exact (planTarget_spec hplan).2

theorem plan_exists (hvalid : validateRecoveryTargets [] targets = true) (hresume : merged.resume = false)
    (hcomplete : merged.wal.complete = true)
    (hperm : ((reportsOf items).map SegmentReport.segment).Perm (targets.map PlanTarget.segment))
    (hreaches : ∀ report ∈ reportsOf items, report.stopped = false → report.state ≠ .sealed_ → report.Reaches) :
    ∃ p, plan targets items merged = .ok p := by
  obtain ⟨made, hmade⟩ := make_iff.mpr hvalid
  have hobserves := @Observed.observeAll targets items [] made (Observed.start hmade)
  obtain ⟨p₀, hp₀⟩ := hobserves.2 (hperm.nodup_iff.mpr (validate_apart hvalid).1)
    fun report hreport => hperm.mem_iff.mp (List.mem_map_of_mem hreport)
  have hall : ∀ t ∈ targets, ∃ report ∈ reportsOf items, report.segment = t.segment :=
    fun t ht => List.mem_map.mp (hperm.mem_iff.mpr (List.mem_map_of_mem ht))
  obtain ⟨p, hp⟩ := (hobserves.1 p₀ hp₀).finish_exists hresume hcomplete hall hreaches
  exact ⟨p, bind_eq_ok.mpr ⟨made, hmade, bind_eq_ok.mpr ⟨p₀, hp₀, hp⟩⟩⟩

/-- A plan is ready when nothing stops it. -/
theorem plan_ready (h : plan targets items merged = .ok p) :
    p.ready = true ↔ (merged.wal.verdict ≠ .corrupt ∧ ∀ item ∈ items, item.corrupts = false) ∧
      ∀ report ∈ reportsOf items, report.stopped = false := by
  obtain ⟨hvalid, p₀, hobserved, hfinish⟩ := plan_eq_ok h
  obtain ⟨_, _, hforall, hready⟩ := hobserved.finish hfinish
  rw [hready, Bool.and_eq_true, decide_eq_true_eq, ne_eq, planRecoveryWal_stops, hobserved.corrupt, not_or]
  refine and_congr (and_congr Iff.rfl ?_) ?_
  · rw [Bool.not_eq_true, List.any_eq_false]
    exact forall₂_congr fun _ _ => Iff.of_eq (Bool.not_eq_true _)
  · rw [List.all_eq_true]
    constructor
    · intro hall report hreport
      obtain ⟨t, _, plan, hplan, hspec⟩ := planned_by hobserved hforall hreport
      have hgoes := of_decide_eq_true (hall plan hplan)
      exact Bool.eq_false_iff.mpr fun hstop => hgoes ((planTarget_spec hspec).1.stops.mpr hstop)
    · intro hall plan hplan
      obtain ⟨i, rfl⟩ := List.mem_iff_get.mp hplan
      obtain ⟨report, hreport, _, hspec⟩ :=
        (List.forall₂_iff_get.mp hforall).2 i.1 (hforall.length_eq.symm ▸ i.2) i.2
      refine decide_eq_true fun hstop => ?_
      exact Bool.false_ne_true ((hall report hreport).symm.trans ((planTarget_spec hspec).1.stops.mp hstop))

end Plan

/-- **Planning a restart.** The plan does not depend on the order the merge's items come in. A merge that ran to
    its end, reported each target once and nothing else, and found each open segment's boundary at its pin or
    above is planned; the plan is ready when neither the WAL, by its verdict or in any of its regions, nor any
    report stops it; and each target's plan is `Planned` from the report of its segment. -/
theorem recovery_plan_correct (targets : List PlanTarget) (items : List Item) (merged : MergeResult) :
    (∀ items', items.Perm items' → plan targets items' merged = plan targets items merged) ∧
    ((∃ p, plan targets items merged = .ok p) ↔
      validateRecoveryTargets [] targets = true ∧ merged.resume = false ∧ merged.wal.complete = true ∧
      ((reportsOf items).map SegmentReport.segment).Perm (targets.map PlanTarget.segment) ∧
      ∀ report ∈ reportsOf items, report.stopped = false → report.state ≠ .sealed_ → report.Reaches) ∧
    ∀ p, plan targets items merged = .ok p →
      (p.ready = true ↔ (merged.wal.verdict ≠ .corrupt ∧ ∀ item ∈ items, item.corrupts = false) ∧
        ∀ report ∈ reportsOf items, report.stopped = false) ∧
      List.Forall₂ (fun t plan => ∃ report ∈ reportsOf items, report.segment = t.segment ∧
        Planned t.logicalOrigin report plan) targets p.segments := by
  refine ⟨fun items' hperm => ?_, ⟨fun ⟨p, hp⟩ => plan_complete hp, ?_⟩, fun p hp => ⟨plan_ready hp, ?_⟩⟩
  · have hobserve : ∀ p : Planner, p.observeAll items' = p.observeAll items := fun p =>
      foldlM_perm Planner.observe_comm hperm.symm p
    unfold plan
    simp only [hobserve]
  · rintro ⟨hvalid, hresume, hcomplete, hreported, hreaches⟩
    exact plan_exists hvalid hresume hcomplete hreported hreaches
  · obtain ⟨_, p₀, hobserved, hfinish⟩ := plan_eq_ok hp
    obtain ⟨_, _, hforall, _⟩ := hobserved.finish hfinish
    refine hforall.imp fun t plan hplan => ?_
    obtain ⟨report, hreport, hsegment, hspec⟩ := hplan
    exact ⟨report, hreport, hsegment, (planTarget_spec hspec).1⟩

end KwaqueStorage.Recovery
