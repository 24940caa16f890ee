import KwaqueStorage.Recovery.Plan

/-!
# What a planner observes

The plan does not depend on the order in which the merge delivers: of two neighbouring items, either may come
first (`Planner.observe_comm`), and where one of them is refused the other order is refused alike. What a planner
holds after any items is `Observed`: in the slot of each target the one report of its segment, whatever order the
table of places puts the targets in.
-/

namespace KwaqueStorage.Recovery

open Extent Lib SegmentScan
open Pins (ObjectState)

/-! ## The order of delivery -/

namespace Planner

variable {p p' : Planner}

/-- What an item other than a segment's report changes: the flag and the counters of the WAL. -/
def tick (p : Planner) : Item → Planner
  | .region report =>
    p.tally (report.wal.isSome && decide (report.matched = .corruption))
      (report.wal.isSome && (decide (report.matched = .slack) && report.damage)) false
  | .unresolved => p.tally false false true
  | _ => p

theorem observe_closed (hclosed : p.finished = true) (item : Item) : p.observe item = .error .closed :=
  if_pos hclosed

theorem observe_segment (hopen : p.finished = false) (report : SegmentReport) :
    p.observe (.segment report) = p.observeSegment report := by
  unfold observe
  rw [hopen]
  rfl

theorem observe_other (hopen : p.finished = false) {item : Item} (hitem : ∀ report, item ≠ .segment report) :
    p.observe item = .ok (p.tick item) := by
  unfold observe
  simp only [hopen, Bool.false_eq_true, if_false]
  cases item with
  | segment report => exact absurd rfl (hitem report)
  | slot => rfl
  | unresolved => rfl
  | region report => rfl
  | obligation => rfl

@[simp] theorem tick_finished (item : Item) : (p.tick item).finished = p.finished := by
  cases item <;> rfl

theorem bump_comm (modulus n : Nat) (a b : Bool) : bump modulus b (bump modulus a n) = bump modulus a (bump modulus b n) := by
  cases a <;> cases b <;> rfl

theorem tally_comm (a b c a' b' c' : Bool) : (p.tally a b c).tally a' b' c' = (p.tally a' b' c').tally a b c := by
  unfold tally
  dsimp only
  rw [bump_comm _ _ c c', bump_comm _ _ b b', Bool.or_right_comm]

theorem tick_comm (a b : Item) : (p.tick a).tick b = (p.tick b).tick a := by
  cases a <;> cases b <;> first | rfl | exact tally_comm ..

/-- What a segment's report is put into is not touched by the items of the WAL, and touches nothing of them. -/
theorem observeSegment_tally (a b c : Bool) (report : SegmentReport) :
    (p.tally a b c).observeSegment report = (p.observeSegment report).map (·.tally a b c) := by
  unfold observeSegment tally
  dsimp only
  split
  · rfl
  · split <;> rfl

theorem observeSegment_tick (item : Item) (report : SegmentReport) :
    (p.tick item).observeSegment report = (p.observeSegment report).map (·.tick item) := by
  have hid : p.observeSegment report = (p.observeSegment report).map id := by
    cases p.observeSegment report <;> rfl
  cases item with
  | region r => exact observeSegment_tally ..
  | unresolved => exact observeSegment_tally ..
  | slot => exact hid
  | segment r => exact hid
  | obligation => exact hid

/-- The free slot of a segment's target. -/
def free (p : Planner) (segment : SegmentContext) : Option Nat :=
  (lookup (segmentAt p.segments) segment p.order).filter fun i => decide (p.reports[i]? = some none)

/-- A report in a slot. -/
def fill (p : Planner) (i : Nat) (report : SegmentReport) : Planner :=
  { p with reports := p.reports.set i (some report) }

theorem observeSegment_eq (report : SegmentReport) :
    p.observeSegment report = (expect (p.free report.segment) .invalidArgument).map (p.fill · report) := by
  unfold observeSegment free
  cases lookup (segmentAt p.segments) report.segment p.order with
  | none => rfl
  | some i =>
    dsimp only
    by_cases hfree : p.reports[i]? = some none
    · have hsome : (some i).filter (fun i => decide (p.reports[i]? = some none)) = some i :=
        Option.filter_eq_some_iff.mpr ⟨rfl, decide_eq_true hfree⟩
      rw [hsome, hfree]
      rfl
    · have hnone : (some i).filter (fun i => decide (p.reports[i]? = some none)) = none := by
        rw [Option.filter_some, decide_eq_false hfree]
        rfl
      rw [hnone]
      split
      · next h => exact absurd h hfree
      · rfl

theorem free_lt {segment : SegmentContext} {i : Nat} (h : p.free segment = some i) : i < p.reports.length := by
  obtain ⟨_, hnone⟩ := Option.filter_eq_some_iff.mp h
  exact (List.getElem?_eq_some_iff.mp (of_decide_eq_true hnone)).1

/-- A slot that has been filled is free no longer; the others stay. -/
theorem free_fill {i : Nat} (hi : i < p.reports.length) (report : SegmentReport) (segment : SegmentContext) :
    (p.fill i report).free segment = (p.free segment).filter fun j => decide (j ≠ i) := by
  unfold free fill
  dsimp only
  cases lookup (segmentAt p.segments) segment p.order with
  | none => rfl
  | some j =>
    simp only [Option.filter_some]
    by_cases hij : j = i
    · subst hij
      rw [List.getElem?_set_self hi]
      by_cases hfree : p.reports[j]? = some none <;> simp [hfree, Option.filter_some]
    · rw [List.getElem?_set_ne (Ne.symm hij)]
      by_cases hfree : p.reports[j]? = some none <;> simp [hfree, hij, Option.filter_some]

theorem observeSegment_comm (a b : SegmentReport) :
    (p.observeSegment a >>= (·.observeSegment b)) = (p.observeSegment b >>= (·.observeSegment a)) := by
  simp only [observeSegment_eq]
  cases ha : p.free a.segment with
  | none =>
    cases hb : p.free b.segment with
    | none => rfl
    | some j =>
      show Except.error _ = Except.map _ (expect ((p.fill j b).free a.segment) _)
      rw [free_fill (free_lt hb), ha]
      rfl
  | some i =>
    cases hb : p.free b.segment with
    | none =>
      show Except.map _ (expect ((p.fill i a).free b.segment) _) = Except.error _
      rw [free_fill (free_lt ha), hb]
      rfl
    | some j =>
      show Except.map _ (expect ((p.fill i a).free b.segment) _) =
        Except.map _ (expect ((p.fill j b).free a.segment) _)
      rw [free_fill (free_lt ha), free_fill (free_lt hb), ha, hb]
      by_cases hij : i = j
      · subst hij
        simp only [Option.filter_some, ne_eq, not_true_eq_false, decide_false, Bool.false_eq_true, if_false]
        rfl
      · simp only [Option.filter_some, decide_eq_true (Ne.symm hij), decide_eq_true hij, if_true]
        show Except.ok ((p.fill i a).fill j b) = Except.ok ((p.fill j b).fill i a)
        unfold fill
        dsimp only
        rw [List.set_comm _ _ hij]

theorem observeSegment_finished {report : SegmentReport} (h : p.observeSegment report = .ok p') :
    p'.finished = p.finished := by
  rw [observeSegment_eq] at h
  cases hfree : p.free report.segment with
  | none =>
    rw [hfree] at h
    cases h
  | some i =>
    rw [hfree] at h
    cases h
    rfl

theorem segment_or (item : Item) : (∃ report, item = .segment report) ∨ ∀ report, item ≠ .segment report := by
  cases item with
  | segment report => exact .inl ⟨report, rfl⟩
  | slot => exact .inr fun _ h => nomatch h
  | unresolved => exact .inr fun _ h => nomatch h
  | region report => exact .inr fun _ h => nomatch h
  | obligation => exact .inr fun _ h => nomatch h

theorem observeSegment_observe {report : SegmentReport} {item : Item} (hopen : p.finished = false)
    (hitem : ∀ report, item ≠ .segment report) :
    (p.observeSegment report >>= (·.observe item)) = (p.tick item).observeSegment report := by
  rw [observeSegment_tick]
  cases hp : p.observeSegment report with
  | error code => rfl
  | ok p' => exact observe_other ((observeSegment_finished hp).trans hopen) hitem

theorem observeSegment_segment {a b : SegmentReport} (hopen : p.finished = false) :
    (p.observeSegment a >>= (·.observe (.segment b))) = (p.observeSegment a >>= (·.observeSegment b)) := by
  cases hp : p.observeSegment a with
  | error code => rfl
  | ok p' => exact observe_segment ((observeSegment_finished hp).trans hopen) b

/-- **Two neighbouring items may come either way round.** -/
theorem observe_comm (p : Planner) (a b : Item) :
    (p.observe a >>= (·.observe b)) = (p.observe b >>= (·.observe a)) := by
  by_cases hopen : p.finished = false
  · rcases segment_or a with ⟨ra, rfl⟩ | ha
    · rcases segment_or b with ⟨rb, rfl⟩ | hb
      · rw [observe_segment hopen, observe_segment hopen, observeSegment_segment hopen,
          observeSegment_segment hopen, observeSegment_comm]
      · rw [observe_segment hopen, observeSegment_observe hopen hb, observe_other hopen hb]
        exact (observe_segment ((tick_finished b).trans hopen) ra).symm
    · rcases segment_or b with ⟨rb, rfl⟩ | hb
      · rw [observe_segment hopen, observeSegment_observe hopen ha, observe_other hopen ha]
        exact observe_segment ((tick_finished a).trans hopen) rb
      · rw [observe_other hopen ha, observe_other hopen hb]
        show (p.tick a).observe b = (p.tick b).observe a
        rw [observe_other ((tick_finished a).trans hopen) hb, observe_other ((tick_finished b).trans hopen) ha,
          tick_comm]
  · have hclosed := Bool.not_eq_false _ ▸ hopen
    rw [observe_closed hclosed, observe_closed hclosed]
    rfl

end Planner

/-! ## What was observed -/

/-- The segments' reports among the items. -/
def reportsOf (items : List Item) : List SegmentReport :=
  items.filterMap fun
    | .segment report => some report
    | _ => none

/-- An item that proves the WAL corrupt. -/
def Item.corrupts : Item → Bool
  | .region report => report.wal.isSome && decide (report.matched = .corruption)
  | _ => false

/-- What a target's plan is before the merge. -/
def PlanTarget.start (target : PlanTarget) : SegmentPlan :=
  { segment := target.segment, recoveredEnd := target.logicalOrigin }

/-- **What a planner holds of the items it has observed**: in the slot of each target the report of its
    segment, if there was one, and there was no other of that segment. -/
structure Observed (targets : List PlanTarget) (items : List Item) (p : Planner) : Prop where
  opened : p.finished = false
  segments : p.segments = targets.map PlanTarget.start
  located : ∀ segment (i : Nat), lookup (segmentAt p.segments) segment p.order = some i ↔
    (targets[i]?).map PlanTarget.segment = some segment
  length : p.reports.length = targets.length
  held : ∀ (i : Nat) report, p.reports[i]? = some (some report) ↔
    report ∈ reportsOf items ∧ (targets[i]?).map PlanTarget.segment = some report.segment
  corrupt : p.walCorrupt = items.any Item.corrupts
  apart : ((reportsOf items).map SegmentReport.segment).Nodup
  known : ∀ report ∈ reportsOf items, report.segment ∈ targets.map PlanTarget.segment

theorem reportsOf_append (items items' : List Item) :
    reportsOf (items ++ items') = reportsOf items ++ reportsOf items' :=
  List.filterMap_append

theorem reportsOf_other {item : Item} (hitem : ∀ report, item ≠ .segment report) : reportsOf [item] = [] := by
  cases item with
  | segment report => exact absurd rfl (hitem report)
  | slot => rfl
  | unresolved => rfl
  | region report => rfl
  | obligation => rfl

/-! ### Making the planner -/

/-- The targets that pass have segments of their own. -/
theorem validate_apart : ∀ {targets earlier : List PlanTarget}, validateRecoveryTargets earlier targets = true →
    (targets.map PlanTarget.segment).Nodup ∧ ∀ t ∈ targets, ∀ e ∈ earlier, e.segment ≠ t.segment
  | [], _, _ => ⟨List.nodup_nil, fun _ h => nomatch h⟩
  | target :: rest, earlier, h => by
    unfold validateRecoveryTargets at h
    rw [Bool.and_eq_true] at h
    obtain ⟨hvalid, hrest⟩ := h
    obtain ⟨hnodup, hapart⟩ := validate_apart hrest
    have hearlier : ∀ e ∈ earlier, e.segment ≠ target.segment := by
      unfold PlanTarget.valid at hvalid
      simp only [Bool.and_eq_true, List.all_eq_true, decide_eq_true_eq] at hvalid
      exact hvalid.1.1.2
    refine ⟨List.nodup_cons.mpr ⟨fun hmem => ?_, hnodup⟩, fun t ht e he => ?_⟩
    · obtain ⟨t, ht, hsegment⟩ := List.mem_map.mp hmem
      exact hapart t ht target (List.mem_append_right _ (List.mem_singleton.mpr rfl)) hsegment.symm
    · rcases List.mem_cons.mp ht with rfl | ht
      · exact hearlier e he
      · exact hapart t ht e (List.mem_append_left _ he)

theorem segmentAt_start (targets : List PlanTarget) {i : Nat} (hi : i < targets.length)
    (segment : SegmentContext) :
    segmentAt (targets.map PlanTarget.start) i = segment ↔
      (targets[i]?).map PlanTarget.segment = some segment := by
  unfold segmentAt
  rw [List.getElem?_map, List.getElem?_eq_getElem hi]
  exact Option.some_inj.symm

/-- The places in the order of their segments. -/
theorem ordered_places {targets : List PlanTarget} (hnodup : (targets.map PlanTarget.segment).Nodup) :
    Ordered (segmentAt (targets.map PlanTarget.start)) ((List.range targets.length).mergeSort fun a b =>
      decide (segmentAt (targets.map PlanTarget.start) a ≤ segmentAt (targets.map PlanTarget.start) b)) := by
  have hperm := List.mergeSort_perm (List.range targets.length) fun a b =>
    decide (segmentAt (targets.map PlanTarget.start) a ≤ segmentAt (targets.map PlanTarget.start) b)
  have hsorted : List.Pairwise (fun a b =>
      decide (segmentAt (targets.map PlanTarget.start) a ≤ segmentAt (targets.map PlanTarget.start) b) = true)
      ((List.range targets.length).mergeSort fun a b =>
        decide (segmentAt (targets.map PlanTarget.start) a ≤ segmentAt (targets.map PlanTarget.start) b)) := by
    refine List.pairwise_mergeSort ?_ ?_ _
    · intro a b c hab hbc
      exact decide_eq_true ((of_decide_eq_true hab).trans (of_decide_eq_true hbc))
    · intro a b
      rw [Bool.or_eq_true, decide_eq_true_eq, decide_eq_true_eq]
      exact le_total _ _
  have hdistinct : List.Pairwise (fun a b : Nat => a ≠ b) _ := hperm.nodup_iff.mpr List.nodup_range
  refine (hsorted.and hdistinct).imp_of_mem fun {a b} ha hb h => lt_of_le_of_ne (of_decide_eq_true h.1) ?_
  intro heq
  have hla := List.mem_range.mp (hperm.mem_iff.mp ha)
  have hlb := List.mem_range.mp (hperm.mem_iff.mp hb)
  have hsegments := ((segmentAt_start targets hla _).mp heq).trans
    ((segmentAt_start targets hlb _).mp rfl).symm
  rw [← List.getElem?_map, ← List.getElem?_map] at hsegments
  exact h.2 ((List.getElem?_inj (by rwa [List.length_map]) hnodup).mp hsegments)

theorem Observed.start {targets : List PlanTarget} {p : Planner} (h : Planner.make targets = .ok p) :
    Observed targets [] p := by
  unfold Planner.make at h
  split at h
  · cases h
  · next hvalid =>
    cases h
    obtain ⟨hnodup, _⟩ := validate_apart (Bool.not_eq_false _ ▸ hvalid)
    have hordered := ordered_places hnodup
    refine ⟨rfl, rfl, ?_, List.length_map .., ?_, rfl, List.nodup_nil, fun _ h => nomatch h⟩
    · intro segment i
      show lookup (segmentAt (targets.map PlanTarget.start)) segment
        ((List.range (targets.map PlanTarget.start).length).mergeSort _) = some i ↔ _
      rw [List.length_map]
      refine hordered.lookup_eq_some.trans ?_
      rw [(List.mergeSort_perm _ _).mem_iff, List.mem_range]
      constructor
      · rintro ⟨hi, hsegment⟩
        exact (segmentAt_start targets hi segment).mp hsegment
      · intro hsome
        obtain ⟨t, ht, _⟩ := Option.map_eq_some_iff.mp hsome
        have hi := (List.getElem?_eq_some_iff.mp ht).1
        exact ⟨hi, (segmentAt_start targets hi segment).mpr hsome⟩
    · intro i report
      rw [List.getElem?_map]
      constructor
      · intro hsome
        obtain ⟨_, _, hnone⟩ := Option.map_eq_some_iff.mp hsome
        cases hnone
      · rintro ⟨hmem, _⟩
        cases hmem

namespace Observed

variable {targets : List PlanTarget} {items : List Item} {p p' : Planner} {report : SegmentReport} {i : Nat}

/-- The slot of a target is free as long as its segment was not reported. -/
theorem free_iff (h : Observed targets items p) {segment : SegmentContext} :
    p.free segment = some i ↔ (targets[i]?).map PlanTarget.segment = some segment ∧
      ∀ report ∈ reportsOf items, report.segment ≠ segment := by
  unfold Planner.free
  rw [Option.filter_eq_some_iff, h.located, decide_eq_true_eq]
  refine and_congr_right fun hsegment => ?_
  obtain ⟨t, ht, _⟩ := Option.map_eq_some_iff.mp hsegment
  have hi : i < p.reports.length := h.length ▸ (List.getElem?_eq_some_iff.mp ht).1
  constructor
  · intro hnone report hreport heq
    have hheld := (h.held i report).mpr ⟨hreport, heq ▸ hsegment⟩
    rw [hnone] at hheld
    cases hheld
  · intro hnew
    cases hslot : p.reports[i] with
    | none => rw [List.getElem?_eq_getElem hi, hslot]
    | some report =>
      obtain ⟨hmem, hsame⟩ := (h.held i report).mp (by rw [List.getElem?_eq_getElem hi, hslot])
      exact absurd (Option.some_inj.mp (hsame.symm.trans hsegment)) (hnew report hmem)

/-- An item of the WAL. -/
theorem tick (h : Observed targets items p) {item : Item} (hitem : ∀ report, item ≠ .segment report) :
    Observed targets (items ++ [item]) (p.tick item) := by
  have hreports : reportsOf (items ++ [item]) = reportsOf items := by
    rw [reportsOf_append, reportsOf_other hitem, List.append_nil]
  have hcorrupt : (p.tick item).walCorrupt = (items ++ [item]).any Item.corrupts := by
    rw [List.any_append, ← h.corrupt]
    cases item with
    | segment report => exact absurd rfl (hitem report)
    | slot => exact (Bool.or_false _).symm
    | unresolved => rfl
    | region report =>
      show (p.walCorrupt || _) = (p.walCorrupt || (Item.corrupts _ || false))
      rw [Bool.or_false]
      rfl
    | obligation => exact (Bool.or_false _).symm
  have hframe : (p.tick item).finished = p.finished ∧ (p.tick item).segments = p.segments ∧
      (p.tick item).order = p.order ∧ (p.tick item).reports = p.reports := by
    cases item <;> exact ⟨rfl, rfl, rfl, rfl⟩
  obtain ⟨hfinished, hsegments, horder, hslots⟩ := hframe
  refine ⟨hfinished.trans h.opened, hsegments.trans h.segments, ?_, ?_, ?_, hcorrupt, ?_, ?_⟩
  · rw [hsegments, horder]
    exact h.located
  · rw [hslots]
    exact h.length
  · rw [hslots, hreports]
    exact h.held
  · rw [hreports]
    exact h.apart
  · rw [hreports]
    exact h.known

/-- The report of a target that had none. -/
theorem fill (h : Observed targets items p) (hfree : p.free report.segment = some i) :
    Observed targets (items ++ [.segment report]) (p.fill i report) := by
  obtain ⟨hsegment, hnew⟩ := h.free_iff.mp hfree
  have hi := Planner.free_lt hfree
  have hreports : reportsOf (items ++ [.segment report]) = reportsOf items ++ [report] :=
    reportsOf_append _ _
  have hmine : report.segment ∈ targets.map PlanTarget.segment := by
    rw [← List.getElem?_map] at hsegment
    exact List.mem_of_getElem? hsegment
  refine ⟨h.opened, h.segments, h.located, ?_, ?_, ?_, ?_, ?_⟩
  · exact (List.length_set ..).trans h.length
  · intro j other
    rw [hreports, List.mem_append, List.mem_singleton]
    show (p.reports.set i (some report))[j]? = some (some other) ↔ _
    by_cases hij : i = j
    · subst hij
      rw [List.getElem?_set_self hi]
      constructor
      · intro hsome
        cases hsome
        exact ⟨.inr rfl, hsegment⟩
      · rintro ⟨hmem | rfl, hsame⟩
        · exact absurd (Option.some_inj.mp (hsame.symm.trans hsegment)) (hnew other hmem)
        · rfl
    · rw [List.getElem?_set_ne hij, h.held]
      refine ⟨fun ⟨hmem, hsame⟩ => ⟨.inl hmem, hsame⟩, ?_⟩
      rintro ⟨hmem | rfl, hsame⟩
      · exact ⟨hmem, hsame⟩
      · exact absurd (Option.some_inj.mp (((h.located _ _).mpr hsegment).symm.trans
          ((h.located _ _).mpr hsame))) hij
  · rw [List.any_append, ← h.corrupt]
    exact (Bool.or_false _).symm
  · rw [hreports, List.map_append]
    refine List.nodup_append.mpr ⟨h.apart, List.nodup_singleton _, fun s hs s' hs' heq => ?_⟩
    obtain ⟨other, hother, rfl⟩ := List.mem_map.mp hs
    rw [List.map_singleton, List.mem_singleton] at hs'
    exact hnew other hother (heq.trans hs')
  · intro other hother
    rw [hreports, List.mem_append, List.mem_singleton] at hother
    rcases hother with hold | rfl
    · exact h.known other hold
    · exact hmine

/-- **One item.** -/
theorem observe (h : Observed targets items p) {item : Item} (hok : p.observe item = .ok p') :
    Observed targets (items ++ [item]) p' := by
  rcases Planner.segment_or item with ⟨report, rfl⟩ | hitem
  · rw [Planner.observe_segment h.opened, Planner.observeSegment_eq] at hok
    cases hfree : p.free report.segment with
    | none =>
      rw [hfree] at hok
      cases hok
    | some i =>
      rw [hfree] at hok
      cases hok
      exact h.fill hfree
  · rw [Planner.observe_other h.opened hitem] at hok
    cases hok
    exact h.tick hitem

/-- An item is refused only for a report that is no target's, or of one that was reported. -/
theorem observe_exists (h : Observed targets items p) {item : Item}
    (hknown : ∀ report ∈ reportsOf [item], report.segment ∈ targets.map PlanTarget.segment)
    (hnew : ∀ report ∈ reportsOf [item], ∀ other ∈ reportsOf items, other.segment ≠ report.segment) :
    ∃ p', p.observe item = .ok p' := by
  rcases Planner.segment_or item with ⟨report, rfl⟩ | hitem
  · obtain ⟨i, hi⟩ := List.mem_iff_getElem?.mp (hknown report (List.mem_singleton.mpr rfl))
    rw [List.getElem?_map] at hi
    have hfree := h.free_iff.mpr ⟨hi, hnew report (List.mem_singleton.mpr rfl)⟩
    rw [Planner.observe_segment h.opened, Planner.observeSegment_eq, hfree]
    exact ⟨_, rfl⟩
  · exact ⟨_, Planner.observe_other h.opened hitem⟩

/-- **All items.** They are observed exactly when no report is of a segment without a target, and no two of
    one segment. -/
theorem observeAll : ∀ {rest items : List Item} {p : Planner}, Observed targets items p →
    (∀ p', p.observeAll rest = .ok p' → Observed targets (items ++ rest) p') ∧
      (((reportsOf (items ++ rest)).map SegmentReport.segment).Nodup →
        (∀ report ∈ reportsOf (items ++ rest), report.segment ∈ targets.map PlanTarget.segment) →
        ∃ p', p.observeAll rest = .ok p')
  | [], items, p, h => by
    refine ⟨fun p' hok => ?_, fun _ _ => ⟨p, rfl⟩⟩
    cases hok
    rw [List.append_nil]
    exact h
  | item :: rest, items, p, h => by
    have hsplit : items ++ item :: rest = items ++ [item] ++ rest := by
      rw [List.append_assoc, List.singleton_append]
    rw [hsplit]
    refine ⟨fun p' hok => ?_, fun hapart hknown => ?_⟩
    · obtain ⟨p₁, hp₁, hok⟩ := bind_eq_ok.mp hok
      exact (observeAll (h.observe hp₁)).1 p' hok
    · have hapart' := hapart
      have hknown' := hknown
      simp only [reportsOf_append, List.map_append] at hapart' hknown'
      obtain ⟨p₁, hp₁⟩ : ∃ p₁, p.observe item = .ok p₁ := by
        refine h.observe_exists (fun report hreport => hknown' report ?_) fun report hreport other hother => ?_
        · exact List.mem_append_left _ (List.mem_append_right _ hreport)
        · have hpair := (List.nodup_append.mp (List.nodup_append.mp hapart').1).2.2
          exact hpair _ (List.mem_map_of_mem hother) _ (List.mem_map_of_mem hreport)
      obtain ⟨p', hp'⟩ := (observeAll (h.observe hp₁)).2 hapart hknown
      exact ⟨p', bind_eq_ok.mpr ⟨p₁, hp₁, hp'⟩⟩

end Observed

end KwaqueStorage.Recovery
