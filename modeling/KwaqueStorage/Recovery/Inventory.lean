import KwaqueStorage.Lib.Checks
import KwaqueStorage.Pins.State

/-!
# The inventory of a restart

A restart opens an entry for every segment of the catalog, and a target for each of them that the merge
reconciles. `resume_from_checkpoint` goes through the table of the durable checkpoint and raises the targets'
pins to what it carries.

The two tables are not linked. A segment is looked for in the catalog, and on the way there the entries that
are targets are counted: as many as there are before it, so many targets stand before its own. The place is
kept from one entry of the table to the next, as those of one segment are adjacent.
-/

namespace KwaqueStorage.Recovery

open Extent Lib Pins

variable {ρ τ : Type}

/-! ## The inventory -/

/-- `recovery_entry_state`. -/
inductive EntryState
  | target
  | sealing
  | deleting
  | gone
  | prepared
  deriving DecidableEq

/-- `recovery_entry`: what resuming looks at of it, and the rest. -/
structure CatalogEntry (ρ : Type) where
  state : EntryState
  device : Nat
  history : History
  publication : Publication
  conflict : Bool := false
  rest : ρ
  deriving DecidableEq

/-- `recovery_target`: the same of it. -/
structure Target (τ : Type) where
  segment : SegmentContext
  pin : Option FooterReference
  rest : τ
  deriving DecidableEq

namespace CatalogEntry

def segment (c : CatalogEntry ρ) : SegmentContext := c.history.segment

def isTarget (c : CatalogEntry ρ) : Bool := c.state = .target

/-- Neither its own publication nor a pending seal decides the segment. -/
def live (c : CatalogEntry ρ) : Bool :=
  c.state = .target ∧ c.publication.state ≠ .sealed_ ∧ c.publication.state ≠ .deleting

end CatalogEntry

/-- The tables of a `recovery_inventory`. -/
structure Tables (ρ τ : Type) where
  entries : List (CatalogEntry ρ)
  targets : List (Target τ)
  deriving DecidableEq

/-- `recovery_inventory`, as `open_recovery_inventory` fills it: it refuses a catalog that lists a segment
    twice, and adds each target with its entry. -/
structure Inventory (ρ τ : Type) extends Tables ρ τ where
  distinct : (entries.map CatalogEntry.segment).Nodup
  listed : targets.map Target.segment = (entries.filter CatalogEntry.isTarget).map CatalogEntry.segment

/-- The table `load_checkpoint` returns: in canonical order. -/
structure CheckpointTable extends Owner.Loaded where
  ordered : entries.Pairwise fun a b => a.key < b.key

/-! ## Resuming -/

/-- `local_footer_reference::make`. -/
def makeReference (position bytes family digest : Nat) : Except Errc FooterReference :=
  if family = 0 then .error .invalidArgument
  else if family ≠ 6 ∧ family ≠ 7 then .error .unsupportedFormat
  else if bytes < 32 ∨ position = 0 then .error .invalidArgument
  else if 65536 < bytes ∨ u64Max < position + bytes then .error .outOfRange
  else .ok ⟨position, bytes, family, digest⟩

/-- `checkpoint_resume`. -/
structure CheckpointResume where
  raised : Nat := 0
  superseded : Nat := 0
  discards : Nat := 0
  conflicts : Nat := 0
  deriving DecidableEq

/-- Where a segment was found: its entry, and how many targets come before it. -/
structure Place where
  index : Nat
  target : Nat
  deriving DecidableEq

/-- The walk over the catalog for a segment. -/
def locate (segment : SegmentContext) : List (CatalogEntry ρ) → Option Place
  | [] => none
  | candidate :: rest =>
    if candidate.segment = segment then some ⟨0, 0⟩
    else (locate segment rest).map fun place =>
      ⟨place.index + 1, if candidate.state = .target then place.target + 1 else place.target⟩

/-- What `resume_from_checkpoint` holds between two entries of the table. -/
structure Resuming (ρ τ : Type) where
  tables : Tables ρ τ
  found : Option Place := none
  output : CheckpointResume := {}
  deriving DecidableEq

namespace Resuming

/-- The place kept from the entry before, if it is this segment's. -/
def held (s : Resuming ρ τ) (segment : SegmentContext) : Option Place :=
  s.found.filter fun place => (s.tables.entries[place.index]?).any fun c => c.segment = segment

/-- The segment's entry and its place. -/
def find (s : Resuming ρ τ) (segment : SegmentContext) : Option (Place × CatalogEntry ρ) :=
  ((s.held segment).or (locate segment s.tables.entries)).bind fun place =>
    (s.tables.entries[place.index]?).map fun found => (place, found)

/-- `found->conflict = true`. -/
def mark (s : Resuming ρ τ) (index : Nat) : Resuming ρ τ :=
  { s with
    tables := { s.tables with entries := s.tables.entries.modify index fun c => { c with conflict := true } }
    output := { s.output with conflicts := s.output.conflicts + 1 } }

/-- `pin = *reference`. -/
def raise (s : Resuming ρ τ) (target : Nat) (reference : FooterReference) : Resuming ρ τ :=
  { s with
    tables := { s.tables with targets := s.tables.targets.modify target fun t => { t with pin := some reference } }
    output := { s.output with raised := s.output.raised + 1 } }

/-- A boundary of a segment that its publication leaves open. -/
def takeBoundary (s : Resuming ρ τ) (place : Place) (found : CatalogEntry ρ) (entry : Entry) :
    Except Errc (Resuming ρ τ) := do
  let reference ← expect (makeReference entry.locator entry.bytes entry.family entry.digest).toOption
    .malformedData
  require (found.history.aligned (reference.position + reference.bytes)) .malformedData
  require (entry.device = found.device) .wrongContext
  -- the target is found by counting; it must be this segment's
  let target ← expect ((s.tables.targets[place.target]?).filter fun t => t.segment = entry.segment) .wrongContext
  if target.pin.all fun pin => pin.position < reference.position then .ok (s.raise place.target reference)
  else do
    require (target.pin.all fun pin => pin.position = reference.position → pin = reference) .corruptData
    .ok s

/-- A discard of such a segment. -/
def takeDiscard (decisions : List Decision) (s : Resuming ρ τ) (entry : Entry) :
    Except Errc (Resuming ρ τ) := do
  let decided ← expect (decisions.find? fun record => record.sequence = entry.locator) .notFound
  require (decided.digest = entry.digest ∧ decided.bytes = entry.bytes ∧ decided.segment = entry.segment
    ∧ decided.action = .discard) .wrongContext
  .ok { s with output := { s.output with discards := s.output.discards + 1 } }

/-- One entry of the table. -/
def take (decisions : List Decision) (s : Resuming ρ τ) (entry : Entry) : Except Errc (Resuming ρ τ) :=
  if entry.disposition = .preservedCandidate then .error .unsupportedFormat
  else
    match s.find entry.segment with
    | none => .error .notFound
    | some (place, found) =>
      let s := { s with found := some place }
      -- a prepared segment was never written: nothing durable names it
      if found.state = .prepared then .ok (s.mark place.index)
      else if ¬ found.live then
        .ok { s with output := { s.output with superseded := s.output.superseded + 1 } }
      else if entry.disposition = .segmentBoundary then s.takeBoundary place found entry
      else s.takeDiscard decisions entry

/-- The rest of the table. An entry that is refused has changed nothing; what those before it changed stays. -/
def run (decisions : List Decision) (s : Resuming ρ τ) : List Entry → Tables ρ τ × Except Errc CheckpointResume
  | [] => (s.tables, .ok s.output)
  | entry :: rest =>
    match s.take decisions entry with
    | .error code => (s.tables, .error code)
    | .ok s => s.run decisions rest

end Resuming

/-- `resume_from_checkpoint`, with what it leaves of the inventory. -/
def resumeFromCheckpoint (table : List Entry) (inventory : Tables ρ τ) (decisions : List Decision) :
    Tables ρ τ × Except Errc CheckpointResume :=
  Resuming.run decisions { tables := inventory } table

end KwaqueStorage.Recovery
