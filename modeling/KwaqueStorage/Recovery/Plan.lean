import KwaqueStorage.Lib.Checks
import KwaqueStorage.Lib.Table
import KwaqueStorage.Pins.State
import KwaqueStorage.SegmentScan.Scan

/-!
# The plan of a restart

The merge delivers what it found item by item, in the order of the WAL and of the segments' walks:
`recovery_planner` folds the items into two flags, two counters and one slot for each target, which it finds
through a table of places in the segments' canonical order. Nothing of that depends on the order of delivery,
which is shown by exchanging two neighbours (`Planner.observe_comm`).

The charge of the planner's tables is left out: where it is refused nothing is made.
-/

namespace KwaqueStorage.Recovery

open Extent Lib SegmentScan
open Pins (ObjectState)

/-! ## What is delivered -/

/-- `recovery_classification`. -/
inductive Classification
  | satisfied
  | footerOnly
  | materialize
  | candidate
  | suffix
  | conflict
  | content
  | materialized
  | repaired
  | uncertifiedTail
  | corruption
  | slack
  deriving DecidableEq

/-- `recovery_region_report`: the WAL file it is of, if it is of one, the case its evidence matches and, of
    that evidence, the damage. -/
structure RegionReport where
  wal : Option Nat
  matched : Classification
  damage : Bool
  deriving DecidableEq

/-- `recovery_segment_report`, less what no plan takes of it. -/
structure SegmentReport where
  segment : SegmentContext
  state : ObjectState
  pin : Option Reference
  boundary : Option ScanBoundary
  scanned : Bool := false
  stop : ScanStop := .end_
  verdict : ScanVerdict := .clean
  materialize : Nat := 0
  candidates : Nat := 0
  suffix : Nat := 0
  conflicts : Nat := 0
  misplaced : Nat := 0
  repaired : Nat := 0
  deriving DecidableEq

/-- `recovery_item`. -/
inductive Item
  | slot
  | unresolved
  | region (report : RegionReport)
  | segment (report : SegmentReport)
  | obligation
  deriving DecidableEq

/-- `wal_scan_verdict`. -/
inductive WalVerdict
  | intact
  | corrupt
  deriving DecidableEq

/-- `wal_scan_result`, less the counts that no plan takes. -/
structure WalResult where
  verdict : WalVerdict := .intact
  complete : Bool := false
  files : Nat := 0
  chain : List Nat := []
  chainFiles : Nat := 0
  contentEnd : Option Cursor := none
  deriving DecidableEq

/-- `recovery_merge_result`: the WAL's scan, and whether the visitor stopped the merge early. -/
structure MergeResult where
  wal : WalResult
  resume : Bool := false
  deriving DecidableEq

/-- `recovery_target`, as the planner looks at it. -/
structure PlanTarget where
  segment : SegmentContext
  alignment : Nat
  header : SegmentContext
  placement : Option SegmentContext
  logicalOrigin : Nat
  state : ObjectState
  pin : Option Reference
  deriving DecidableEq

/-! ## The plan -/

/-- `recovery_plan_action`. -/
inductive PlanAction
  | stop
  | retain
  | publishRecovering
  | activateSuccessor
  deriving DecidableEq

/-- `recovery_plan_reason`. -/
inductive PlanReason
  | none
  | corruption
  | conflict
  | misplaced
  deriving DecidableEq

/-- `recovery_segment_plan`. -/
structure SegmentPlan where
  segment : SegmentContext
  action : PlanAction := .stop
  reason : PlanReason := .none
  boundary : Option Reference := none
  recoveredEnd : Nat := 0
  materialized : Nat := 0
  repaired : Nat := 0
  candidates : Nat := 0
  suffix : Nat := 0
  uncertifiedTail : Bool := false
  deriving DecidableEq

/-- `recovery_wal_plan`. -/
structure WalPlan where
  action : PlanAction := .retain
  reason : PlanReason := .none
  predecessor : Option Cursor := none
  files : Nat := 0
  chain : List Nat := []
  chainFiles : Nat := 0
  unresolved : Nat := 0
  nonzeroSlack : Nat := 0
  deriving DecidableEq

/-- What a plan of a segment starts from. -/
def SegmentReport.basis (report : SegmentReport) : SegmentPlan :=
  { segment := report.segment
    materialized := report.materialize
    repaired := report.repaired
    candidates := report.candidates
    suffix := report.suffix
    uncertifiedTail := report.scanned && decide (report.stop ≠ .end_) && decide (report.verdict ≠ .corrupt) }

/-- The recovered boundary of an unsealed segment, put into its plan. -/
def SegmentReport.bounded (report : SegmentReport) : SegmentPlan :=
  match report.boundary with
  | none => report.basis
  | some boundary =>
    { report.basis with
      boundary := some boundary.footer
      recoveredEnd := boundary.fields.coverage.logical.end_ }

/-- `plan_recovery_segment`. -/
def planRecoverySegment (report : SegmentReport) : Except Errc SegmentPlan :=
  let stop (reason : PlanReason) : Except Errc SegmentPlan := .ok { report.basis with action := .stop, reason }
  if report.verdict = .corrupt then stop .corruption
  else if report.conflicts ≠ 0 then stop .conflict
  else if report.misplaced ≠ 0 then stop .misplaced
  else if report.state = .sealed_ then .ok { report.basis with action := .retain }
  else
    let plan := report.bounded
    -- the walk starts at the pin, so its boundary is never below it
    if report.pin.any fun pin => plan.boundary.all fun boundary => boundary.position < pin.position then
      .error .invariantViolation
    else
      .ok { plan with
        action := if report.state = .recovering ∧ plan.boundary = report.pin then .retain
          else .publishRecovering }

/-- `plan_recovery_wal`. -/
def planRecoveryWal (scan : WalResult) (corruptRegion : Bool) : WalPlan :=
  let plan : WalPlan := { files := scan.files, chain := scan.chain, chainFiles := scan.chainFiles }
  if scan.verdict = .corrupt ∨ corruptRegion = true then { plan with action := .stop, reason := .corruption }
  else
    match scan.contentEnd with
    | some end_ => { plan with action := .activateSuccessor, predecessor := some end_ }
    | none => { plan with action := .retain }

/-! ## The planner -/

/-- `recovery_planner`. -/
structure Planner where
  segments : List SegmentPlan
  reports : List (Option SegmentReport)
  /-- The places of the plans, in their segments' canonical order. -/
  order : List Nat
  wal : WalPlan := {}
  walCorrupt : Bool := false
  finished : Bool := false
  ready : Bool := false
  deriving DecidableEq

/-- The segment of the plan at a place. -/
def segmentAt (segments : List SegmentPlan) (i : Nat) : SegmentContext :=
  ((segments[i]?).map SegmentPlan.segment).getD ⟨0, 0, 0, 0, 0⟩

/-- One target of `validate_recovery_targets`, with those before it. -/
def PlanTarget.valid (earlier : List PlanTarget) (target : PlanTarget) : Bool :=
  decide (target.header = target.segment)
    && target.placement.all (fun segment => decide (segment = target.segment))
    && earlier.all (fun other => decide (other.segment ≠ target.segment))
    && target.pin.all (fun pin => decide ((pin.position + pin.bytes) % target.alignment = 0))
    && match target.state with
      | .active | .recovering => target.pin.all fun pin => decide (pin.family = 6)
      | .sealed_ => target.pin.any fun pin => decide (pin.family = 7)
      | .deleting => false

/-- `validate_recovery_targets`. -/
def validateRecoveryTargets : List PlanTarget → List PlanTarget → Bool
  | _, [] => true
  | earlier, target :: rest => target.valid earlier && validateRecoveryTargets (earlier ++ [target]) rest

/-- An unsigned counter of `modulus` values, one more if so. -/
def bump (modulus : Nat) (counts : Bool) (n : Nat) : Nat := if counts then (n + 1) % modulus else n

namespace Planner

/-- `recovery_planner::make`. -/
def make (targets : List PlanTarget) : Except Errc Planner :=
  if validateRecoveryTargets [] targets = false then .error .invalidArgument
  else
    let segments := targets.map fun target =>
      ({ segment := target.segment, recoveredEnd := target.logicalOrigin } : SegmentPlan)
    .ok {
      segments
      reports := targets.map fun _ => none
      order := (List.range segments.length).mergeSort fun a b =>
        decide (segmentAt segments a ≤ segmentAt segments b) }

/-- A segment's report, into the slot of its target. -/
def observeSegment (p : Planner) (report : SegmentReport) : Except Errc Planner :=
  match lookup (segmentAt p.segments) report.segment p.order with
  | none => .error .invalidArgument
  | some i =>
    match p.reports[i]? with
    | some none => .ok { p with reports := p.reports.set i (some report) }
    | _ => .error .invalidArgument

/-- The flag and the counters of the WAL, by whether an item is proven corruption, nonzero slack or
    unresolved. -/
def tally (p : Planner) (corruption slack unresolved : Bool) : Planner :=
  { p with
    walCorrupt := p.walCorrupt || corruption
    wal := { p.wal with
      unresolved := bump (u64Max + 1) unresolved p.wal.unresolved
      nonzeroSlack := bump 4294967296 slack p.wal.nonzeroSlack } }

/-- `recovery_planner::observe`. Of the regions only the WAL's count. -/
def observe (p : Planner) (item : Item) : Except Errc Planner :=
  if p.finished then .error .closed
  else
    match item with
    | .segment report => p.observeSegment report
    | .region report =>
      .ok (p.tally (report.wal.isSome && decide (report.matched = .corruption))
        (report.wal.isSome && (decide (report.matched = .slack) && report.damage)) false)
    | .unresolved => .ok (p.tally false false true)
    | .slot | .obligation => .ok p

/-- The items of a merge, as they come. -/
def observeAll (p : Planner) (items : List Item) : Except Errc Planner := items.foldlM observe p

/-- The plan of one target from its report. Without a boundary nothing past the logical origin is
    certified. -/
def planTarget (slot : SegmentPlan) (report : SegmentReport) : Except Errc SegmentPlan :=
  (planRecoverySegment report).map fun plan =>
    if plan.boundary.isNone then { plan with recoveredEnd := slot.recoveredEnd } else plan

/-- `recovery_planner::finish`. -/
def finish (p : Planner) (merged : MergeResult) : Except Errc Planner := do
  require (¬ (p.finished = true ∨ merged.resume = true ∨ merged.wal.complete = false)) Errc.invalidArgument
  let reports ← expect (p.reports.mapM id) .invalidArgument
  let plans ← (p.segments.zip reports).mapM fun (slot, report) => planTarget slot report
  let wal := { planRecoveryWal merged.wal p.walCorrupt with
    unresolved := p.wal.unresolved, nonzeroSlack := p.wal.nonzeroSlack }
  .ok { p with
    segments := plans
    wal
    ready := decide (wal.action ≠ .stop) && plans.all fun plan => decide (plan.action ≠ .stop)
    finished := true }

end Planner

/-- A planner made for its targets, given the items of a merge and then its result. -/
def plan (targets : List PlanTarget) (items : List Item) (merged : MergeResult) : Except Errc Planner := do
  let planner ← Planner.make targets
  let planner ← planner.observeAll items
  planner.finish merged

end KwaqueStorage.Recovery
