import KwaqueStorage.Extent.Format
import KwaqueStorage.Lib.Table

/-!
# The pins a checkpoint carries

`checkpoint_pins` keeps what a shard's checkpoints carry in place of reclaimed WAL: for each unsealed
segment its newest durable footer, and each discard decision the cutoff has passed. It keeps three
tables in order and two counters by hand. A cut copies the table; adopting the cut, once the
checkpoint that carries it is durable, makes the copy the table, less what a publication has covered
in between.

Reservations, charges and allocations change nothing of that and are left out: a call they refuse
leaves everything as it was.
-/

namespace KwaqueStorage.Pins

open Extent Lib

/-- `segment_context::canonical_less`: by identity from the cluster down, then by generation. -/
instance : LinearOrder SegmentContext :=
  LinearOrder.lift' (fun c => toLex (c.cluster, toLex (c.topic, toLex (c.range,
    toLex (c.segment, c.generation))))) (by
      rintro ⟨a, b, c, d, e⟩ ⟨a', b', c', d', e'⟩ h
      simpa using h)

/-- `local_checkpoint_disposition`. -/
inductive Disposition
  | segmentBoundary
  | preservedCandidate
  | authorizedDiscard
  deriving DecidableEq

def Disposition.code : Disposition → Nat
  | .segmentBoundary => 1
  | .preservedCandidate => 2
  | .authorizedDiscard => 3

/-- `local_checkpoint_entry`. -/
structure Entry where
  segment : SegmentContext
  disposition : Disposition
  device : Nat
  locator : Nat
  bytes : Nat
  family : Nat
  digest : Nat
  deriving DecidableEq

namespace Entry

/-- The order of `local_checkpoint_entry::canonical_less`: by segment, disposition and locator. -/
def key (e : Entry) : SegmentContext ×ₗ ℕ ×ₗ ℕ :=
  toLex (e.segment, toLex (e.disposition.code, e.locator))

/-- A segment's boundary. -/
def isBoundary (e : Entry) : Bool := e.disposition = .segmentBoundary

/-- An authorized discard. -/
def isDiscard (e : Entry) : Bool := e.disposition = .authorizedDiscard

end Entry

/-- `local_durable_boundary`. A nil device is zero. -/
structure Boundary where
  device : Nat
  history : History
  covered : Coverage
  footer : Span
  deriving DecidableEq

def Boundary.segment (b : Boundary) : SegmentContext := b.history.segment

/-- `local_footer_reference`. -/
structure FooterReference where
  position : Nat
  bytes : Nat
  family : Nat
  digest : Nat
  deriving DecidableEq

/-- `local_object_state`. -/
inductive ObjectState
  | active
  | recovering
  | sealed_
  | deleting
  deriving DecidableEq

/-- `local_object_publication`, less its roots. -/
structure Publication where
  segment : SegmentContext
  state : ObjectState
  boundary : Option FooterReference
  deriving DecidableEq

/-- `local_recovery_action`. -/
inductive RecoveryAction
  | preserve
  | reconstruct
  | discard
  | sealAt
  deriving DecidableEq

/-- `recovery_decision_record`, less what no pin takes of it. -/
structure Decision where
  action : RecoveryAction
  segment : SegmentContext
  prepare : Cursor
  sequence : Nat
  bytes : Nat
  digest : Nat
  deriving DecidableEq

/-- `held_discard`. -/
structure HeldDiscard where
  pin : Entry
  prepare : Cursor
  released : Bool := false
  deriving DecidableEq

/-- `checkpoint_pin_limits`. -/
structure Limits where
  segments : Nat
  decisions : Nat
  deriving DecidableEq

/-- `maximum_checkpoint_segments`. -/
def maximumCheckpointSegments : Nat := 8192

/-- `maximum_checkpoint_decisions`. -/
def maximumCheckpointDecisions : Nat := 1024

/-- `checkpoint_pin_limits::validate`. -/
def Limits.valid (limits : Limits) : Bool :=
  limits.segments ≠ 0 ∧ limits.segments ≤ maximumCheckpointSegments ∧ limits.decisions ≠ 0
    ∧ limits.decisions ≤ maximumCheckpointDecisions

/-- A `std::uint32_t` taken from another. -/
def sub32 (a b : Nat) : Nat := (a + 4294967296 - b) % 4294967296

/-- `checkpoint_pins`. -/
structure Owner where
  limits : Limits
  /-- How many segments `covered` was allocated for. -/
  capacity : Nat
  entries : List Entry := []
  pending : List Boundary := []
  discards : List HeldDiscard := []
  segments : Nat := 0
  decisions : Nat := 0
  covered : List SegmentContext := []
  uncounted : Bool := false
  cut : Nat := 0
  cutOpen : Bool := false
  deriving DecidableEq

/-- `checkpoint_capture`. -/
structure Capture where
  end_ : Cursor
  cut : Nat
  entries : List Entry
  refresh : List Boundary
  installed : Nat := 0
  deriving DecidableEq

/-- `boundary_pin`. -/
def boundaryPin (boundary : Boundary) (reference : FooterReference) : Entry :=
  ⟨boundary.segment, .segmentBoundary, boundary.device, reference.position, reference.bytes,
    reference.family, reference.digest⟩

/-- A segment's boundary entry: it sorts first of what the segment has. -/
def boundaryIn (entries : List Entry) (segment : SegmentContext) : Option Entry :=
  (lookup Entry.segment segment entries).filter Entry.isBoundary

namespace Capture

/-- `checkpoint_capture::complete`. -/
def complete (c : Capture) : Bool := c.installed = c.refresh.length

/-- `checkpoint_capture::install`. -/
def install (c : Capture) (reference : FooterReference) : Except Errc Capture :=
  match c.refresh[c.installed]? with
  | none => .error .invalidArgument
  | some boundary =>
    if reference.position ≠ boundary.footer.begin_ ∨ reference.bytes ≠ boundary.footer.count
        ∨ reference.family ≠ footerFamily then
      .error .wrongContext
    else
      let pin := boundaryPin boundary reference
      .ok { c with
        entries := if (boundaryIn c.entries boundary.segment).isSome then
            replaceAt Entry.segment pin c.entries
          else insertAt Entry.segment pin c.entries
        installed := c.installed + 1 }

end Capture

namespace Owner

/-- `checkpoint_pins::make`; `covered` is reserved for at least as many as are counted. -/
def make (limits : Limits) (capacity : Nat) : Except Errc Owner :=
  if limits.valid then .ok { limits, capacity } else .error .invalidArgument

/-- `checkpoint_pins::names`. -/
def names (o : Owner) (segment : SegmentContext) : Bool :=
  (lookup Entry.segment segment o.entries).isSome || o.uncounted || o.covered.contains segment

/-- `checkpoint_pins::linger`. -/
def linger (o : Owner) (segment : SegmentContext) : Owner :=
  if o.covered.contains segment then o
  else if o.covered.length = o.capacity then { o with uncounted := true }
  else { o with covered := o.covered ++ [segment] }

/-- `checkpoint_pins::observe`. -/
def observe (o : Owner) (boundary : Boundary) : Except Errc Owner :=
  if boundary.device = 0 ∨ boundary.footer.isEmpty then .error .invalidArgument
  else
    let entry := boundaryIn o.entries boundary.segment
    let at_ := boundary.footer.begin_
    if entry.any fun e => decide (e.device ≠ boundary.device) || decide (at_ < e.locator) then
      .error .wrongContext
    else
      match lookup Boundary.segment boundary.segment o.pending with
      | some pending =>
        if pending.device ≠ boundary.device ∨ pending.history ≠ boundary.history
            ∨ at_ < pending.footer.begin_ then
          .error .wrongContext
        else .ok { o with pending := replaceAt Boundary.segment boundary o.pending }
      | none =>
        -- already the footer its entry pins
        if entry.any fun e => decide (at_ = e.locator) then .ok o
        else if entry.isNone ∧ o.segments = o.limits.segments then .error .resourceExhausted
        else
          .ok { o with
            pending := insertAt Boundary.segment boundary o.pending
            segments := if entry.isNone then o.segments + 1 else o.segments }

/-- The pin of a discard. -/
def discardPin (decision : Decision) : Entry :=
  ⟨decision.segment, .authorizedDiscard, 0, decision.sequence, decision.bytes, 0, decision.digest⟩

/-- `checkpoint_pins::hold`. -/
def hold (o : Owner) (decision : Decision) : Except Errc Owner :=
  if decision.action ≠ .discard then .error .invalidArgument
  else
    let pin := discardPin decision
    match lookup Entry.key pin.key o.entries with
    | some carried => if carried = pin then .ok o else .error .wrongContext
    | none =>
      match lookup (fun held => held.pin.key) pin.key o.discards with
      | some held =>
        if held.pin = pin ∧ held.prepare = decision.prepare then .ok o else .error .wrongContext
      | none =>
        if o.decisions = o.limits.decisions then .error .resourceExhausted
        else
          .ok { o with
            discards := insertAt (fun held => held.pin.key) ⟨pin, decision.prepare, false⟩ o.discards
            decisions := o.decisions + 1 }

/-- The held discard of a segment's PREPARE, with its flag set. -/
def release (segment : SegmentContext) (prepare : Cursor) (released : Bool) :
    List HeldDiscard → Option (List HeldDiscard)
  | [] => none
  | held :: rest =>
    if held.pin.segment = segment ∧ held.prepare = prepare then
      if held.released then none else some ({ held with released } :: rest)
    else (release segment prepare released rest).map (held :: ·)

/-- `checkpoint_pins::discharge`. -/
def discharge (o : Owner) (decision : Decision) (released : Bool) : Except Errc Owner :=
  match release decision.segment decision.prepare released o.discards with
  | none => .error .wrongContext
  | some discards => .ok { o with discards }

/-- `checkpoint_pins::cover` for a recovering publication. -/
def coverRecovering (o : Owner) (segment : SegmentContext) (boundary : Option FooterReference) :
    Owner :=
  let pinned := boundaryIn o.entries segment
  let stale := lookup Boundary.segment segment o.pending
  let newest := (stale.map fun b => b.footer.begin_).orElse fun _ => pinned.map Entry.locator
  match boundary, newest with
  | some reference, some newest =>
    -- only a boundary it pins at least as far
    if reference.position < newest then o
    else
      let o' := if pinned.isSome ∨ o.cutOpen then o.linger segment else o
      { o' with
        pending := if stale.isSome then eraseAt Boundary.segment segment o.pending else o.pending
        entries := if pinned.isSome then eraseAt Entry.segment segment o.entries else o.entries
        segments := sub32 o.segments 1 }
  | _, _ => o

/-- `checkpoint_pins::cover` for a sealed or a deleting one. -/
def coverSealed (o : Owner) (segment : SegmentContext) : Owner :=
  let pinned := (boundaryIn o.entries segment).isSome
  let stale := (lookup Boundary.segment segment o.pending).isSome
  let count := ((lowerBound Entry.segment segment o.entries).takeWhile
    fun e => decide (e.segment = segment)).length
  let carried := sub32 count (if pinned then 1 else 0)
  let held := (o.discards.filter fun h => decide (h.pin.segment = segment)).length
  let o' : Owner := { o with
    pending := if stale then eraseAt Boundary.segment segment o.pending else o.pending
    entries := eraseAll Entry.segment segment o.entries
    discards := o.discards.filter fun h => decide (h.pin.segment ≠ segment)
    decisions := sub32 o.decisions (carried + held)
    segments := if pinned ∨ stale then sub32 o.segments 1 else o.segments }
  if pinned ∨ carried ≠ 0 ∨ (o.cutOpen ∧ (stale ∨ held ≠ 0)) then o'.linger segment else o'

/-- `checkpoint_pins::cover`. -/
def cover (o : Owner) (publication : Publication) : Except Errc Owner :=
  match publication.state with
  | .recovering => .ok (o.coverRecovering publication.segment publication.boundary)
  | .sealed_ | .deleting => .ok (o.coverSealed publication.segment)
  | .active => .error .invalidArgument

/-- The entries and the held discards whose PREPARE lies before an end, in order. -/
def mergeDiscards (end_ : Cursor) : List HeldDiscard → List Entry → List Entry
  | discards, [] => (discards.filter fun h => decide (h.prepare < end_)).map HeldDiscard.pin
  | discards, entry :: rest =>
    ((before (fun h => h.pin.key) entry.key discards).filter
        fun h => decide (h.prepare < end_)).map HeldDiscard.pin
      ++ entry :: mergeDiscards end_ (lowerBound (fun h => h.pin.key) entry.key discards) rest

/-- `checkpoint_pins::capture`. -/
def capture (o : Owner) (end_ : Cursor) : Owner × Capture :=
  ({ o with cut := o.cut + 1, cutOpen := true },
    { end_, cut := o.cut + 1, entries := mergeDiscards end_ o.discards o.entries
      refresh := o.pending })

/-- What a publication covered since the cut was taken is tracked no longer. -/
def coveredSince (o : Owner) (pin : Entry) : Bool :=
  if pin.isBoundary then
    (boundaryIn o.entries pin.segment).isNone
      && (lookup Boundary.segment pin.segment o.pending).isNone
  else
    decide (lookup Entry.key pin.key o.entries ≠ some pin)
      && decide ((lookup (fun held => held.pin.key) pin.key o.discards).map HeldDiscard.pin ≠ some pin)

/-- `checkpoint_pins::adopt`. -/
def adopt (o : Owner) (cut : Capture) : Except Errc Owner :=
  if o.cutOpen = false ∨ cut.cut ≠ o.cut ∨ cut.complete = false then .error .wrongContext
  else
    let gone := cut.entries.filter o.coveredSince
    let table := cut.entries.filter fun pin => !o.coveredSince pin
    let o' : Owner := (gone.map Entry.segment).foldl linger
      { o with cutOpen := false, covered := [], uncounted := false }
    .ok { o' with
      -- a footer the cut pinned waits no longer; one observed since still does
      pending := o.pending.filter fun waiting =>
        decide (lookup Boundary.segment waiting.segment cut.refresh ≠ some waiting)
      discards := o.discards.filter fun held =>
        decide (lookup Entry.key held.pin.key table ≠ some held.pin)
      entries := table }

/-- `loaded_checkpoint`: a table as its pages were decoded, which have one boundary at most for a
    segment, before its other entries. -/
structure Loaded where
  entries : List Entry
  single : ∀ a ∈ entries, ∀ b ∈ entries, a.isBoundary → b.isBoundary → a.segment = b.segment → a = b

/-- `checkpoint_pins::restore`, of an owner that holds nothing yet. -/
def restore (o : Owner) (durable : Loaded) : Except Errc Owner :=
  if o.entries ≠ [] ∨ o.pending ≠ [] ∨ o.discards ≠ [] ∨ o.cut ≠ 0 then .error .wrongContext
  else if ¬ durable.entries.IsChain (fun a b => a.key < b.key) then .error .malformedData
  else if durable.entries.any fun e => decide (e.disposition = .preservedCandidate) then
    .error .unsupportedFormat
  else
    let segments := durable.entries.countP Entry.isBoundary
    let decisions := durable.entries.countP Entry.isDiscard
    if o.limits.segments < segments ∨ o.limits.decisions < decisions then .error .resourceExhausted
    else .ok { o with entries := durable.entries, segments, decisions }

end Owner

end KwaqueStorage.Pins
