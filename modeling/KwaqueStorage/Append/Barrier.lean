import KwaqueStorage.Append.Publish

/-!
# Passing, closing and barriers

`mark_ready`, `cover`, `promote_closing`, `next_cut`, `barrier_loop` and `settle_barrier`: the
half of the owner that moves an obligation from open to discharged or pinned.

A barrier is two actions, its start and its outcome, since groups pass and runs are closed
while it runs. The loop's other turns (nothing owed, or no sync to be had) change at most
what `next_cut` itself changes.
-/

namespace KwaqueStorage.Append

/-- What the segment writer answers when it is asked to close its run. -/
inductive CloseAnswer
  /-- Closed with a footer of this many bytes. -/
  | closed (footer : Nat)
  /-- Refused, the writer unchanged. -/
  | refused
  /-- The closing group could not be made, and the writer failed with it. -/
  | failed
  deriving DecidableEq

/-- `close_run`, for a writer that holds a run open: the cut it closed, if it did. -/
def Writer.closeRun (w : Writer) : CloseAnswer → Option Boundary × Writer
  | .closed footer =>
    (some ⟨w.reserved + footer, some w.reserved⟩,
      { w with reserved := w.reserved + footer, run := none })
  | .refused => (none, w)
  | .failed => (none, { w with failed := true })

namespace State

open Function (update)

/-- `cover`: a passed footer covers every group passed before it. -/
def cover (s : State) (σ : Nat) (cut : Boundary) : State :=
  let reached := (s.slots.footed σ).any (cut.endBytes ≤ ·.endBytes)
  { s with
    slots.footed := if reached then s.slots.footed else update s.slots.footed σ (some cut)
    slots.held := if reached then s.slots.held else update s.slots.held σ 0
    table :=
      if reached || s.slots.held σ = 0 then s.table
      else s.table.mapAll (Row.cover (s.slots.segment σ)) }

/-- The end of the oldest group not passed. -/
def frontierEnd (s : State) (σ : Nat) : Option Nat :=
  (s.slots.order σ)[s.slots.frontier σ]?.map s.endOf

/-- The oldest group not passed lies before the footer. -/
def blocked (s : State) (σ : Nat) (closing : Boundary) : Bool :=
  (s.frontierEnd σ).any fun e => closing.footer.any (e ≤ ·)

/-- `promote_closing`: the footer asked of the writer, once every group before it passed. -/
def promoteClosing (s : State) (σ : Nat) : State :=
  match s.slots.closing σ with
  | none => s
  | some closing =>
    if s.blocked σ closing then s
    else { s with slots.closing := update s.slots.closing σ none }.cover σ closing

/-- The obligation of a group passed submitted counts as written or held. -/
def countPassed (s : State) (σ b : Nat) : State :=
  let footed := (s.branches.boundary b).footer.isSome
  match s.branches.obliged b, s.branches.row b with
  | true, some r =>
    { s.modifyRow r fun row => row.passSubmitted footed with
      slots.held :=
        update s.slots.held σ (if footed then s.slots.held σ else s.slots.held σ + 1) }
  | _, _ => s

/-- A group passed submitted: a barrier may cut past it, and a segment-placed one wants its
    barrier now. -/
def passSubmitted (s : State) (σ b : Nat) : State :=
  let cut := s.branches.boundary b
  let s := { s with slots.submitted := update s.slots.submitted σ (some cut) }
  let s := s.countPassed σ b
  let s := if cut.footer.isSome then s.cover σ cut else s
  { s with
    slots.wanted :=
      if s.branches.placement b = .segment then update s.slots.wanted σ (some cut.endBytes)
      else s.slots.wanted }

/-- A group passed dropped: an accepted one can never be covered, so it is pinned. -/
def passDropped (s : State) (b : Nat) : State :=
  let g := s.branches.group b
  match s.branches.obliged b, s.branches.row b with
  | true, some r =>
    { s.modifyRow r fun row => row.passDropped (s.groups.sequence g) (s.groups.walBegin g) with
      branches.obliged := update s.branches.obliged b false }
  | _, _ => s

/-- One turn of `mark_ready`'s loop. -/
def pass (s : State) (σ b : Nat) : State :=
  let s := { s with
    slots.frontier := update s.slots.frontier σ (s.slots.frontier σ + 1)
    branches.passed := update s.branches.passed b true }
  if s.branches.submitted b then s.passSubmitted σ b else s.passDropped b

/-- `mark_ready`'s loop, over the slot's file order from its frontier. -/
def passFrom (s : State) (σ : Nat) : List Nat → State
  | [] => s
  | b :: rest => if s.branches.ready b then (s.pass σ b).passFrom σ rest else s

/-- The groups `mark_ready` passes in a burst, then the closing footer. -/
def passReady (s : State) (σ : Nat) : State :=
  (s.passFrom σ ((s.slots.order σ).drop (s.slots.frontier σ))).promoteClosing σ

/-- `mark_ready`. -/
def markReady (s : State) (b : Nat) : State :=
  let σ := s.branches.slot b
  ({ s with branches.ready := update s.branches.ready b true }.passReady σ).publishReady σ

/-- `next_cut` of a failed writer: once every frozen group is passed, the newest passed one,
    which the barrier refuses. -/
def nextCutFailed (s : State) (σ : Nat) : Option Boundary × State :=
  if s.slots.frontier σ < (s.slots.order σ).length then (none, s)
  else
    match (s.slots.submitted σ).filter fun cut =>
        (s.slots.attempted σ).all (· < cut.endBytes) with
    | some cut => (some cut, s)
    | none => (none, { s with slots.attempted := update s.slots.attempted σ (s.wantedEnd σ) })

/-- The newest passed footer, if it reaches the target. -/
def footedCut (s : State) (σ target : Nat) : Option Boundary :=
  (s.slots.footed σ).filter (target ≤ ·.endBytes)

/-- The cut of a run just closed is kept until it can be promoted. -/
def keepClosing (s : State) (σ : Nat) (cut : Boundary) : State :=
  { s with slots.closing := update s.slots.closing σ (some cut) }.promoteClosing σ

/-- The run asked to be closed for a barrier through `target`. -/
def closeForCut (s : State) (σ target : Nat) (answer : CloseAnswer) : Option Boundary × State :=
  let closed := (s.writer σ).closeRun answer
  let s := s.setWriter σ closed.2
  match closed.1 with
  | some cut =>
    let s := s.keepClosing σ cut
    (s.footedCut σ target, s)
  | none => if closed.2.failed then s.nextCutFailed σ else (none, s)

/-- Whether the barrier through `target` must have the writer close its run. -/
def mustClose (s : State) (σ target : Nat) : Bool :=
  (s.slots.closing σ).isNone && !s.slots.freezing σ && (s.writer σ).held ≠ 0
    && decide ((s.writer σ).reserved - (s.writer σ).held < target)

/-- `next_cut`. -/
def nextCut (s : State) (σ : Nat) (answer : CloseAnswer) : Option Boundary × State :=
  match s.owed σ, s.wantedEnd σ with
  | true, some target =>
    if (s.writer σ).failed then s.nextCutFailed σ
    else
      let s := s.promoteClosing σ
      match s.footedCut σ target with
      | some cut => (some cut, s)
      | none => if s.mustClose σ target then s.closeForCut σ target answer else (none, s)
  | _, _ => (none, s)

/-- A barrier starts: it covers the groups passed before it that its cut reaches. -/
def startBarrier (s : State) (σ : Nat) (cut : Boundary) : State :=
  let whole := (s.writer σ).failed
  { s with
    slots.held := if whole then update s.slots.held σ 0 else s.slots.held
    table := s.table.mapAll (Row.startCover (s.slots.segment σ) whole)
    slots.attempted := update s.slots.attempted σ (some cut.endBytes)
    slots.barrier := update s.slots.barrier σ (some cut) }

/-- One turn of `barrier_loop` up to its wait or its barrier. `unit` says whether one of the
    owner's syncs is free; a barrier an acknowledgement waits for takes none. -/
def barrierTurn (s : State) (σ : Nat) (unit : Bool) (answer : CloseAnswer) : State :=
  match s.nextCut σ answer with
  | (some cut, s) => if s.acknowledging σ || unit then s.startBarrier σ cut else s
  | (none, s) => s

/-- `settle_barrier`. -/
def settleBarrier (s : State) (σ : Nat) (cut : Boundary) (failure : Option Errc) : State :=
  let durable := failure.isNone
  { s with
    slots.receipt := if durable then update s.slots.receipt σ (some cut) else s.slots.receipt
    slots.durable :=
      if durable && cut.footer.isSome then update s.slots.durable σ (some cut)
      else s.slots.durable
    slots.failedThrough :=
      if durable then s.slots.failedThrough
      else update s.slots.failedThrough σ (some cut.endBytes)
    slots.barrierFailure :=
      if durable then s.slots.barrierFailure
      else update s.slots.barrierFailure σ
        (mergeFailure (mergeFailure (s.slots.barrierFailure σ) failure) (some .ioFailure))
    table := s.table.mapAll (Row.settle (s.slots.segment σ) durable) }.publishReady σ

/-- The barrier returned. -/
def barrierDone (s : State) (σ : Nat) (cut : Boundary) (failure : Option Errc) : State :=
  { s with slots.barrier := update s.slots.barrier σ none }.settleBarrier σ cut failure

/-- `release_holds`, one run: its footer covers the groups held for it. -/
def releaseHold (s : State) (σ : Nat) (answer : CloseAnswer) : State :=
  let closed := (s.writer σ).closeRun answer
  let s := s.setWriter σ closed.2
  match closed.1 with
  | some cut => s.keepClosing σ cut
  | none => s

/-- The newest frozen group's end, or the newest passed one's once the file order is let go. -/
def newestEnd (s : State) (σ : Nat) : Option Nat :=
  if s.slots.head σ < (s.slots.order σ).length then (s.slots.order σ).getLast?.map s.endOf
  else (s.slots.submitted σ).map (·.endBytes)

/-- `request_sync`: a barrier of the attachment through its newest frozen group. -/
def requestSync (s : State) (σ : Nat) : State :=
  { s with
    slots.requested :=
      if (s.newestEnd σ).any fun e => (s.slots.requested σ).all (· < e) then
        update s.slots.requested σ (s.newestEnd σ)
      else s.slots.requested }

end State
end KwaqueStorage.Append
