import KwaqueStorage.Control.Client

/-!
# The allocator of local IDs

`local_id_allocator` serves the IDs of four kinds from blocks that are reserved in the control before
they are used: a block is an edit that moves the kind's high mark, and it is served once that edit is
durable. One block is asked for at a time. What a stop or a failed update leaves of a block is burned.

The allocator stands on the control as it is modelled in `Control`, with every other caller of it and
with stops and openings.
-/

namespace KwaqueStorage.Ids

open Lib
open Publication (Failure Outcome pathError)
open KwaqueStorage.Control (Fields Update Owner Running RootReference CheckpointRoot)

/-- What is allocated. -/
inductive Kind
  | wal
  | object
  | decision
  | deletion
  deriving DecidableEq

def Kind.high : Kind → Fields → Nat
  | .wal => Fields.walHigh
  | .object => Fields.objectHigh
  | .decision => Fields.decisionHigh
  | .deletion => Fields.deletionHigh

def Kind.setHigh (fields : Fields) (high : Nat) : Kind → Fields
  | .wal => { fields with walHigh := high }
  | .object => { fields with objectHigh := high }
  | .decision => { fields with decisionHigh := high }
  | .deletion => { fields with deletionHigh := high }

/-- The greatest mark: of sixteen octets, or of eight. -/
def Kind.maximum : Kind → Nat
  | .wal => 2 ^ 128 - 1
  | _ => 2 ^ 64 - 1

/-- `checked_advance`. -/
def checkedAdvance (kind : Kind) (high count : Nat) : Except Errc Nat :=
  if count = 0 then .error .invalidArgument
  else if kind.maximum < high + count then .error .outOfRange
  else .ok (high + count)

/-- `local_id_range`. -/
structure Range where
  current : Nat := 0
  remaining : Nat := 0
  deriving DecidableEq

/-- `serve`: the next ID of the range. -/
def Range.serve (kind : Kind) (range : Range) : Except Errc (Nat × Range) :=
  match checkedAdvance kind range.current 1 with
  | .error _ => .error .outOfRange
  | .ok next =>
    -- zero is no ID
    if next = 0 then .error .invalidArgument
    else .ok (next, ⟨next, range.remaining - 1⟩)

/-- The block a refill asks for: how many IDs, and the mark past them. The last IDs of a kind are
    asked for one by one. -/
def block (kind : Kind) (blockSize start : Nat) : Except Errc (Nat × Nat) :=
  match checkedAdvance kind start blockSize with
  | .ok high => .ok (blockSize, high)
  | .error _ =>
    match checkedAdvance kind start 1 with
    | .ok high => .ok (1, high)
    | .error _ => .error .outOfRange

/-- The update of a refill. -/
def reserve (kind : Kind) (blockSize : Nat) : Update where
  edit fields :=
    match block kind blockSize (kind.high fields) with
    | .error code => .error (pathError code)
    | .ok (_, high) => .ok (kind.setHigh fields high)
  validates := false

/-- `refill`, which awaits its update. Its edit leaves behind where the block begins and how many it
    has. -/
structure Refill where
  kind : Kind
  call : Nat
  start : Nat := 0
  count : Nat
  deriving DecidableEq

/-- `local_id_allocator`; it is busy while a refill runs. -/
structure Allocator where
  blockSize : Nat
  ranges : Kind → Range := fun _ => {}
  refill : Option Refill := none
  closing : Bool := false

/-- `maximum` of `block_size`. -/
def maximumBlockSize : Nat := 65536

structure State where
  control : Control.State
  /-- There is at most one, as `id_allocator_active_` says. -/
  allocator : Option Allocator := none
  /-- The IDs that were returned, the newest first. -/
  issued : List (Kind × Nat) := []

inductive Event
  | control (event : Control.Event)
  | make (blockSize : Nat)
  | allocate (kind : Kind) (polled : Bool) (reserved : Except Failure Unit)
  | refilled
  | close
  | closed

/-- The edit of the refill is run, on the record that is current. -/
def Refill.edits (f : Refill) (blockSize : Nat) (fields : Fields) : Refill :=
  { f with
    start := f.kind.high fields
    count := match block f.kind blockSize (f.kind.high fields) with
      | .ok (count, _) => count
      | .error _ => 1 }

/-- What a refill in flight sees of an event of the control. -/
def Allocator.sees (a : Allocator) (before : Control.State) (event : Control.Event) : Allocator :=
  match event, before.owner with
  | .validated (.ok _), some o =>
    match o.turn with
    | .running r => { a with refill := a.refill.map fun f =>
        if f.call = r.call then f.edits a.blockSize o.current.fields else f }
    | _ => a
  | _, _ => a

namespace State

/-- An ID is returned, and its range goes on. -/
def serves (s : State) (a : Allocator) (kind : Kind) (range : Range) : State :=
  match range.serve kind with
  | .error _ => { s with allocator := some { a with ranges := Function.update a.ranges kind range } }
  | .ok (id, rest) => { s with
      allocator := some { a with ranges := Function.update a.ranges kind rest }
      issued := (kind, id) :: s.issued }

/-- `allocate`, up to its first await. -/
def allocate (s : State) (a : Allocator) (o : Owner) (kind : Kind) (polled : Bool)
    (reserved : Except Failure Unit) : State :=
  if a.closing ∨ o.shut ∨ polled = false then s
  else if (a.ranges kind).remaining ≠ 0 then s.serves a kind (a.ranges kind)
  else if a.refill.isSome then s
  else { s with
    control := s.control.update o (reserve kind a.blockSize) reserved
    allocator := some { a with
      refill := some { kind, call := s.control.calls, count := a.blockSize } } }

/-- The update of a refill is answered: the range is installed only where it is durable. -/
def refilled (s : State) (a : Allocator) (f : Refill) (outcome : Outcome) : State :=
  let a := { a with refill := none }
  if outcome.failure.isSome ∨ outcome.disposition ≠ .durable then { s with allocator := some a }
  else s.serves a f.kind ⟨f.start, f.count⟩

section Step

variable (rootOf : RootReference → CheckpointRoot)

/-- One event; none where it cannot happen. -/
def step (s : State) : Event → Option State
  | .control event =>
    (s.control.step rootOf event).map fun control => { s with
      control
      -- a stop takes the allocator along
      allocator := if control.owner.isSome then s.allocator.map fun a => a.sees s.control event else none }
  | .make blockSize =>
    match s.control.owner, s.allocator with
    | some o, none =>
      if blockSize = 0 ∨ maximumBlockSize < blockSize ∨ o.shut then none
      else some { s with allocator := some { blockSize } }
    | _, _ => none
  | .allocate kind polled reserved =>
    match s.control.owner, s.allocator with
    | some o, some a => some (s.allocate a o kind polled reserved)
    | _, _ => none
  | .refilled =>
    match s.allocator with
    | none => none
    | some a =>
      match a.refill with
      | none => none
      | some f => (s.control.replies.lookup f.call).map fun outcome => s.refilled a f outcome
  | .close =>
    match s.control.owner, s.allocator with
    | some o, some a =>
      if o.walWriterActive ∨ a.closing then some s
      else some { s with allocator := some { a with closing := true } }
    | _, _ => none
  | .closed =>
    match s.allocator with
    | none => none
    | some a => if a.closing ∧ a.refill = none then some { s with allocator := none } else none

end Step

end State

/-- The allocators of a shard, one after another, over its control. -/
def system (rootOf : RootReference → CheckpointRoot) : System State Event where
  init s := ∃ control, (Control.system rootOf).init control ∧ s = { control }
  step := State.step rootOf

end KwaqueStorage.Ids
