import KwaqueStorage.Base.Types
import KwaqueStorage.Lib.Runs
import KwaqueStorage.Lib.Checks

/-!
# The queue of WAL writes

`wal_descriptor_queue` holds the writes of a WAL file from the moment their place in the file is taken to the
moment they are done. A write is encoded, dispatched and completed, or fails on the way, in any order among
the others; it enters the queue at the back while it is still being encoded and leaves it at the front once
it is done. The dispatcher asks for the encoded writes at the front that one gathered write can carry.

The queue holds pointers: a node is a number here, and what it points to is looked up. An invariant of the
source that does not hold ends the program, so a step that would break one is no step; the one of
`ready_prefix` is an answer of its own.
-/

namespace KwaqueStorage.WalQueue

open Lib

/-- `UINT64_MAX`. -/
def u64Max : Nat := 2 ^ 64 - 1

/-- `runtime::maximum_file_io_bytes`. -/
def maximumFileIoBytes : Nat := 64 * 1024 * 1024

/-- `bytes::max_buffer_fragments`. -/
def maxBufferFragments : Nat := 1024

/-- `wal_write_state`. -/
inductive WriteState
  | encoding
  | queued
  | dispatched
  | done
  deriving DecidableEq

/-- A buffer, as far as the queue reads it: its bytes, those of the allocations it keeps alive, its fragments
    and what its allocations cost, or why that cannot be said. -/
structure Payload where
  size : Nat := 0
  retainedBytes : Nat := 0
  fragmentCount : Nat := 0
  cost : Except Errc Nat := .ok 0
  deriving DecidableEq

/-- `wal_group`, as far as the queue reads it. -/
structure Group where
  inputBytes : Nat
  /-- What its encoding reservation retains. -/
  encoding : Option Nat
  retainedBound : Nat
  fragmentBound : Nat
  deriving DecidableEq

/-- `first_failure`. -/
inductive Failure
  | exception
  | error (code : Errc)
  deriving DecidableEq

/-- `wal_write_descriptor`, with the future of its encoding and its reservations left out. -/
structure Node where
  extent : Span
  group : Option Group := none
  payload : Payload := {}
  state : WriteState := .encoding
  failure : Option Failure := none
  written : Nat := 0
  observed : Bool := false
  notified : Bool := false
  linked : Bool := false
  ordered : extent.begin_ ≤ extent.end_
  deriving DecidableEq

namespace Node

/-- What the queue keeps for a node: its group's bound, or its extent. -/
def retained (node : Node) : Nat := (node.group.map Group.retainedBound).getD node.extent.count

/-- `first_failure::observe`: the first failure stays. -/
def observeFailure (node : Node) (failure : Failure) : Node := { node with failure := node.failure.or (some failure) }

/-- `wal_write_descriptor::encoded`. -/
def encoded (node : Node) (payload : Payload) (held : Nat) : Except Errc Node := do
  let cost ← payload.cost
  require (cost ≤ u64Max ∧ cost ≤ held ∧ payload.size = node.extent.count) .invalidArgument
  pure { node with payload, state := .queued }

/-- `wal_write_descriptor::encoded_group`. -/
def encodedGroup (node : Node) (group : Group) (encoding : Nat) (payload : Payload) : Except Errc Node := do
  let cost ← payload.cost
  require (cost ≤ u64Max ∧ group.inputBytes + encoding ≤ u64Max ∧ cost ≤ group.inputBytes + encoding
    ∧ payload.size = node.extent.count ∧ payload.retainedBytes ≤ group.retainedBound
    ∧ payload.fragmentCount ≤ group.fragmentBound) .resourceExhausted
  pure { node with payload, state := .queued }

/-- `wal_write_descriptor::complete`. -/
def complete (node : Node) (written : Except Errc Nat) : Node :=
  match written with
  | .error code => { node.observeFailure (.error code) with state := .done }
  | .ok bytes =>
    if bytes = node.extent.count then { node with written := bytes, state := .done }
    else { node.observeFailure (.error .ioFailure) with state := .done }

/-- `wal_write_descriptor::fail`. -/
def fail (node : Node) (failure : Failure) : Node := { node.observeFailure failure with state := .done }

end Node

/-- `wal_descriptor_queue`, with the nodes that were made. -/
structure Queue where
  maximum : Nat
  maximumBytes : Nat
  nodes : Nat → Node
  made : Nat
  inflight : List Nat
  bytes : Nat
  retainedBytes : Nat

namespace Queue

/-- An empty queue. -/
def empty (maximum maximumBytes : Nat) : Queue where
  maximum
  maximumBytes
  nodes := fun _ => { extent := ⟨0, 0⟩, ordered := Nat.le_refl _ }
  made := 0
  inflight := []
  bytes := 0
  retainedBytes := 0

/-- A node is changed. -/
def set (q : Queue) (id : Nat) (node : Node) : Queue := { q with nodes := Function.update q.nodes id node }

/-- Whether a node's extent begins where the last one ends. -/
def follows (q : Queue) (id : Nat) : Prop :=
  ∀ last ∈ q.inflight.getLast?, (q.nodes last).extent.end_ = (q.nodes id).extent.begin_

instance (q : Queue) (id : Nat) : Decidable (q.follows id) := by
  unfold follows
  exact inferInstance

/-- `wal_descriptor_queue::push`. -/
def push (q : Queue) (id : Nat) : Except Errc Queue := do
  let node := q.nodes id
  require (node.linked = false ∧ node.state = .encoding) .invalidArgument
  require (q.inflight.length < q.maximum ∧ q.bytes + node.extent.count ≤ u64Max
    ∧ q.bytes + node.extent.count ≤ q.maximumBytes ∧ q.retainedBytes + node.retained ≤ u64Max
    ∧ q.retainedBytes + node.retained ≤ q.maximumBytes) .queueFull
  require (q.follows id) .wrongContext
  pure { q.set id { node with linked := true } with
    inflight := q.inflight ++ [id]
    bytes := q.bytes + node.extent.count
    retainedBytes := q.retainedBytes + node.retained }

/-- `wal_descriptor_queue::pop_completed_front`. -/
def popCompletedFront (q : Queue) : Option Nat × Queue :=
  match q.inflight with
  | [] => (none, q)
  | id :: rest =>
    if (q.nodes id).state ≠ .done then (none, q)
    else (some id, { q with
      bytes := q.bytes - (q.nodes id).extent.count
      retainedBytes := q.retainedBytes - (q.nodes id).retained
      inflight := rest })

/-- `ready_gather`. -/
structure ReadyGather where
  groups : Nat := 0
  fragments : Nat := 0
  logical : Nat := 0
  retained : Nat := 0
  deriving DecidableEq

/-- The loop of `ready_prefix`; nothing when `KQ-WAL-ADJACENT` does not hold. -/
def gather (q : Queue) (maximumBytes maximumFragments : Nat) :
    List Nat → ReadyGather → (end_ : Nat) → Option ReadyGather
  | [], result, _ => some result
  | id :: rest, result, end_ =>
    let node := q.nodes id
    if node.state ≠ .queued then some result
    else
      let next := result.logical + node.payload.size
      let backing := result.retained + node.payload.retainedBytes
      let fragments := result.fragments + node.payload.fragmentCount
      if u64Max < next ∨ u64Max < backing ∨ maximumBytes < next ∨ maximumBytes < backing
          ∨ maximumFragments < fragments then some result
      else if result.groups = 0 ∨ node.extent.begin_ = end_ then
        gather q maximumBytes maximumFragments rest ⟨result.groups + 1, fragments, next, backing⟩
          node.extent.end_
      else none

/-- `wal_descriptor_queue::ready_prefix`. -/
def readyPrefix (q : Queue) (maximumBytes : Nat := maximumFileIoBytes)
    (maximumFragments : Nat := maxBufferFragments) : Option ReadyGather :=
  q.gather (min maximumBytes maximumFileIoBytes) (min maximumFragments maxBufferFragments) q.inflight {} 0

end Queue

/-- What happens to the queue and its nodes. -/
inductive Action
  /-- `wal_write_descriptor::make`, and the group the writer puts in the node before it is queued. -/
  | make (extent : Span) (group : Option Group)
  | push (id : Nat)
  | observe (id : Nat)
  | encoded (id : Nat) (payload : Payload) (held : Nat)
  | encodedGroup (id : Nat) (payload : Payload)
  | dispatch (id : Nat)
  | complete (id : Nat) (written : Except Errc Nat)
  | fail (id : Nat) (failure : Failure)
  | popCompletedFront
  | notify (id : Nat)
  | retireFront

namespace Queue

/-- `wal_write_descriptor::notify`. -/
def notify (q : Queue) (id : Nat) : Option Queue :=
  if (q.nodes id).state = .done ∧ (q.nodes id).notified = false then
    some (q.set id { q.nodes id with notified := true })
  else none

/-- One step. A call that is refused changes nothing. -/
def step (q : Queue) : Action → Option Queue
  | .make extent group =>
    if h : extent.begin_ ≤ extent.end_ then
      some { q.set q.made { extent, group, ordered := h } with made := q.made + 1 }
    else none
  | .push id =>
    if id < q.made then
      match q.push id with
      | .ok q' => some q'
      | .error _ => some q
    else none
  | .observe id =>
    if id < q.made ∧ (q.nodes id).linked = true ∧ (q.nodes id).observed = false then
      some (q.set id { q.nodes id with observed := true })
    else none
  | .encoded id payload held =>
    if id < q.made ∧ (q.nodes id).state = .encoding then
      match (q.nodes id).encoded payload held with
      | .ok node => some (q.set id node)
      | .error _ => some q
    else none
  | .encodedGroup id payload =>
    match (q.nodes id).group with
    | some group =>
      match group.encoding with
      | some encoding =>
        if id < q.made ∧ (q.nodes id).state = .encoding then
          match (q.nodes id).encodedGroup group encoding payload with
          | .ok node => some (q.set id node)
          | .error _ => some q
        else none
      | none => none
    | none => none
  | .dispatch id =>
    if id < q.made ∧ (q.nodes id).state = .queued then
      some (q.set id { q.nodes id with state := .dispatched })
    else none
  | .complete id written =>
    if id < q.made ∧ (q.nodes id).state = .dispatched then some (q.set id ((q.nodes id).complete written))
    else none
  | .fail id failure =>
    if id < q.made ∧ (q.nodes id).notified = false then some (q.set id ((q.nodes id).fail failure))
    else none
  | .popCompletedFront => some q.popCompletedFront.2
  | .notify id => if id < q.made then q.notify id else none
  | .retireFront =>
    match q.popCompletedFront with
    | (some id, q) => q.notify id
    | (none, q) => some q

/-- A queue of so many nodes and bytes at most, as a transition system. -/
def system (maximum maximumBytes : Nat) : System Queue Action where
  init q := q = empty maximum maximumBytes
  step := step

end Queue

end KwaqueStorage.WalQueue
