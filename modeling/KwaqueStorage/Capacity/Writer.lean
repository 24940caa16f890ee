import KwaqueStorage.Capacity.Shape
import KwaqueStorage.Lib.Runs

/-!
# Preparing, freezing and closing

A segment writer takes a group in two steps. `prepare_group` plans it at the reserved end. `freeze_owned`
then lays its blocks out and moves the reserved end past them. A group may be frozen without a footer of
its own: it is held, and the run of groups held so is closed later by one footer, by the next group that
cannot join it or by `close_run`. A group prepared over a run held open may find it closed when it freezes.

Every freeze compares what it laid out with what its plan counted and refuses what takes more. The queue,
the memory of the children and the age of the segment, which can refuse a group at any point, are left out;
that a run finds no memory to open is a choice of the environment.
-/

namespace KwaqueStorage.Capacity

open Layout Lib RetryPages

/-- `segment_captured_boundary` of one writer: its end, and the footer it ends with. -/
structure Boundary where
  endPosition : Position
  footer : Option Span
  deriving DecidableEq

/-- `segment_prepared_group`. -/
structure Prepared where
  base : Boundary
  /-- Measured over a run held open: the base once that run is closed by its own footer. -/
  closed : Option Boundary
  plan : CapacityPlan
  inputs : List Batch
  retryEntries : Nat
  deriving DecidableEq

/-- `segment_writer`: the reserved end, the begin of the run held open there, and the groups that were
    prepared and not frozen. -/
structure Writer where
  reserved : Boundary
  run : Option Nat := none
  prepared : List Prepared := []
  deriving DecidableEq

/-- `maximum_segment_hold_bytes`. -/
def maximumSegmentHoldBytes : Nat := 8388608

/-- `held_chunk_bytes`. -/
def heldChunkBytes : Nat := 16384

/-- `bytes::max_buffer_fragments`. -/
def maxBufferFragments : Nat := 1024

section

variable (fixed : Constants)

/-- An empty segment whose records begin at a place of its range. -/
def Writer.start (logical : Nat) : Writer :=
  { reserved := ⟨{ logical, physical := fixed.descriptor.physicalOrigin, bytes := fixed.dataStart },
      none⟩ }

/-- The boundary after a footer that closes a run. -/
def Boundary.close (before : Boundary) (footerBytes : Nat) : Boundary :=
  let bound := before.endPosition.bytes + footerBytes
  ⟨{ before.endPosition with bytes := bound, footers := before.endPosition.footers + 1 },
    some ⟨before.endPosition.bytes, bound⟩⟩

/-- `prepare_group`, when its plan fits. -/
def Writer.prepareGroup (w : Writer) (batches : List Batch) (retryEntries : Option Nat) :
    Except Errc (Option Prepared) := do
  let entries := retryEntries.getD batches.length
  let plan ← planSegmentCapacity fixed w.reserved.endPosition batches w.run.isSome (some entries)
  if plan.decision = .fits then
    pure (some
      { base := w.reserved
        closed := if w.run.isSome then some (w.reserved.close plan.closing) else none
        plan
        inputs := batches
        retryEntries := entries })
  else pure none

/-- `make_closing`: a group of no blocks whose footer closes the run held open. -/
def makeClosing (before : Boundary) : Except Errc Boundary := do
  let layout ← expect (fixed.footerAt before.endPosition.bytes).toOption .outOfRange
  let _ ← expect fixed.closingStaging .outOfRange
  pure (before.close layout.encodedBytes)

/-- `close_run`. -/
def Writer.closeRun (w : Writer) : Except Errc Writer :=
  match w.run with
  | none => .ok w
  | some _ => do
    let cut ← makeClosing fixed w.reserved
    pure { w with reserved := cut, run := none }

/-- How a group freezes: whether the run held open is closed first, and whether it ends with a footer of
    its own. -/
structure Ending where
  closeFirst : Bool
  footed : Bool
  deriving DecidableEq

/-- The fragments a group's write carries: each block's, and a complete footer's. -/
def fragmentsOf (children : List Batch) : Nat :=
  3 + (children.map fun batch => batch.fragments + 3).sum

/-- Whether the run held open is closed before the group: it is not held, or the two would not go in one
    write. -/
def closesFirst (before : Boundary) (run : Option Nat) (children : List Batch) (hold : Nat) : Bool :=
  match run with
  | none => false
  | some begin_ =>
    let runBytes := before.endPosition.bytes - begin_
    let footerBound := fixed.footerBytes.getD 0 + fixed.unit
    decide (hold = 0)
      || decide (maximumFileIoBytes < runBytes + blocksBytes children + footerBound)
      || decide (maxBufferFragments < runBytes / heldChunkBytes + 1 + fragmentsOf children)

/-- Whether a group is footed, given whether memory for a run that opens here is granted. -/
def endingOf (before : Boundary) (run : Option Nat) (children : List Batch) (hold : Nat)
    (granted : Bool) : Ending :=
  let closeFirst := closesFirst fixed before run children hold
  let heldBefore := match run with
    | some begin_ => if closeFirst then 0 else before.endPosition.bytes - begin_
    | none => 0
  let filled := decide (hold = 0) || decide (hold ≤ heldBefore + blocksBytes children)
  let opens := !filled && (run.isNone || closeFirst)
  ⟨closeFirst, filled || (opens && !granted)⟩

/-- What a freeze lays out: where the group ends, and the run held open after it. -/
structure Frozen where
  reserved : Boundary
  run : Option Nat
  deriving DecidableEq

/-- The blocks of a group, back to back. -/
def placeBlocks (policy : Limits) (unit : Nat) : Nat → List Batch → Except Errc Nat
  | position, [] => .ok position
  | position, batch :: rest => do
    let layout ← blockLayout policy unit batch.size position
    placeBlocks policy unit (position + layout.encodedBytes) rest

/-- Where the blocks of a group begin: past the footer that closes the run held open first, if one does. -/
def startFor (before : Boundary) (ending : Ending) : Except Errc Boundary :=
  if ending.closeFirst then makeClosing fixed before else .ok before

/-- The footer a group ends with, if it ends with one. -/
def footerFor (position : Nat) (ending : Ending) : Except Errc (Option Span) :=
  if ending.footed then do
    let padded ← expect (fixed.footerAt position).toOption .wrongContext
    pure (some ⟨position, position + padded.encodedBytes⟩)
  else .ok none

/-- The layout of `freeze_owned`, as its plan has been found to fit. -/
def layOut (before : Boundary) (run : Option Nat) (plan : Position) (children : List Batch)
    (retryEntries hold : Nat) (granted : Bool) : Except Errc Frozen := do
  require (fragmentsOf children ≤ maxBufferFragments
    ∧ fragmentsOf children ≤ fixed.policy.config.maxBufferFragments) .resourceExhausted
  let ending := endingOf fixed before run children hold granted
  let start ← startFor fixed before ending
  let position ← placeBlocks fixed.policy fixed.unit start.endPosition.bytes children
  let footer ← footerFor fixed position ending
  let bound : Position :=
    { logical := plan.logical
      physical := start.endPosition.physical + recordsOf children
      bytes := footer.elim position Span.end_
      blocks := start.endPosition.blocks + children.length
      footers := start.endPosition.footers + if ending.footed then 1 else 0
      retryEntries := start.endPosition.retryEntries + retryEntries }
  let run' := if ending.footed then none
    else if run.isNone || ending.closeFirst then some start.endPosition.bytes else run
  pure ⟨⟨bound, footer⟩, run'⟩

/-- The last check of `freeze_owned`: whichever way it froze, it takes no more than its plan counted. -/
def Position.within (taken plan : Position) : Bool :=
  decide (taken.physical = plan.physical ∧ taken.bytes ≤ plan.bytes ∧ taken.footers ≤ plan.footers
    ∧ taken.blocks = plan.blocks ∧ taken.retryEntries = plan.retryEntries)

/-- The plan a freeze goes by: the prepared one when the children are those it was made for, else one made
    for them from the same base. -/
def freezePlan (prepared : Prepared) (children : List Batch) : Except Errc CapacityPlan :=
  if children = prepared.inputs then .ok prepared.plan
  else planSegmentCapacity fixed prepared.base.endPosition children prepared.closed.isSome
    (some prepared.retryEntries)

/-- `freeze_owned`. -/
def Writer.freezeOwned (w : Writer) (prepared : Prepared) (children : List Batch) (hold : Nat)
    (granted : Bool) : Except Errc Frozen := do
  require (hold ≤ maximumSegmentHoldBytes) .invalidArgument
  require (children ≠ [] ∧ children.length ≤ maximumSegmentGroupBlocks
    ∧ (prepared.base = w.reserved ∨ prepared.closed = some w.reserved)) .wrongContext
  let plan ← freezePlan fixed prepared children
  require (plan.decision = .fits ∧ plan.endPosition = prepared.plan.endPosition
    ∧ plan.stagingBytes ≤ prepared.plan.stagingBytes) .wrongContext
  let counted ← expect plan.endPosition .wrongContext
  let frozen ← layOut fixed w.reserved w.run counted children prepared.retryEntries hold granted
  require (frozen.reserved.endPosition.within counted = true) .wrongContext
  pure frozen

/-- What can happen to a writer. -/
inductive Action
  | prepare (batches : List Batch) (retryEntries : Option Nat)
  | closeRun
  | freeze (index : Nat) (children : List Batch) (hold : Nat) (granted : Bool)
  deriving DecidableEq

/-- One action, when it succeeds. -/
def Writer.step (w : Writer) : Action → Option Writer
  | .prepare batches retryEntries =>
    match w.prepareGroup fixed batches retryEntries with
    | .ok (some prepared) => some { w with prepared := w.prepared ++ [prepared] }
    | _ => none
  | .closeRun => (w.closeRun fixed).toOption
  | .freeze index children hold granted => do
    let prepared ← w.prepared[index]?
    let frozen ← (w.freezeOwned fixed prepared children hold granted).toOption
    some { reserved := frozen.reserved, run := frozen.run, prepared := w.prepared.eraseIdx index }

/-- The life of one segment's writer. -/
def system : System Writer Action where
  init w := ∃ logical, w = Writer.start fixed logical
  step := Writer.step fixed

end

end KwaqueStorage.Capacity
