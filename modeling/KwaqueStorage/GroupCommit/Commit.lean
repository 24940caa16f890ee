import KwaqueStorage.Base.Types

/-!
# Group commit of the WAL

`wal_group_commit` keeps the groups a writer accepted until a barrier covers them. Groups join a cohort
that is forming at the back of the queue; a cohort is sealed when it is large enough, when it is due or
when it is forced, and the cohort at the front is captured and flushed as one. What the queue, the marks
on its nodes and the forming tail are to each other is stored nowhere.

This file has the owner and what it does between two awaits. Who awaits is in `Tasks`.
-/

namespace KwaqueStorage.GroupCommit

/-- `maximum_wal_cohort_groups`, `maximum_wal_cohort_members` and `runtime::maximum_file_io_bytes`. -/
def maximumWalCohortGroups : Nat := 8
def maximumWalCohortMembers : Nat := 128
def maximumFileIoBytes : Nat := 64 * 2 ^ 20

/-- The greatest `monotonic_time`. -/
def maximumTime : Nat := 2 ^ 64 - 1

/-- `wal_captured_boundary`: the file's lifetime, the cursor and the members before it. -/
structure Boundary where
  token : Nat
  cursor : Cursor
  members : Nat
  deriving DecidableEq

/-- What `first_failure` keeps: an error, or an exception. -/
inductive Fault
  | error (code : Errc)
  | thrown
  deriving DecidableEq

/-- `wal_group_commit_config`, as far as it decides what is captured. -/
structure Config where
  targetMembers : Nat := 32
  maximumMembers : Nat := 128
  targetBytes : Nat := 4 * 2 ^ 20
  maximumBytes : Nat := 64 * 2 ^ 20
  outstandingGroups : Nat := 2
  maximumWait : Nat := 1000000
  deriving DecidableEq

/-- `wal_group_commit_config::validate`. -/
def Config.validate (c : Config) : Except Errc Unit :=
  if c.targetMembers = 0 ∨ c.maximumMembers < c.targetMembers
      ∨ maximumWalCohortMembers < c.maximumMembers ∨ c.targetBytes = 0
      ∨ c.maximumBytes < c.targetBytes ∨ maximumFileIoBytes < c.maximumBytes
      ∨ c.outstandingGroups = 0 ∨ maximumWalCohortGroups < c.outstandingGroups then
    .error .invalidArgument
  else .ok ()

/-- `wal_commit_node` in the queue. Tickets are numbered as they are installed. -/
structure Node where
  id : Nat
  members : Nat
  bytes : Nat
  deadline : Nat
  boundary : Boundary
  sealed_ : Bool := false
  joined : Bool := false
  deriving DecidableEq

/-- `wal_flush_capture`. -/
structure Capture where
  nodes : List Nat
  members : Nat
  bytes : Nat
  deadline : Nat
  boundary : Boundary
  deriving DecidableEq

/-- `wal_barrier_outcome`; a receipt is the boundary it is for. -/
structure BarrierOutcome where
  failure : Option Fault := none
  receipt : Option Boundary := none
  deriving DecidableEq

/-- What a ticket was settled with, and the boundary of the capture it was settled in. -/
structure Settled where
  node : Nat
  cut : Boundary
  outcome : BarrierOutcome
  deriving DecidableEq

/-- The invariants the code asserts. -/
inductive Assertion
  | drainCapture
  | flushCapture
  | resultOnce
  deriving DecidableEq

/-- A node that is reserved and not yet installed. -/
structure Pending where
  members : Nat
  deadline : Nat
  deriving DecidableEq

/-- `wal_submission`, as the writer returns it. -/
structure Submission where
  members : Nat
  begin_ : Nat
  end_ : Nat
  boundary : Boundary
  deriving DecidableEq

/-- `wal_group_commit`. -/
structure Commit where
  config : Config
  scope : Boundary
  queue : List Node := []
  formingTail : Option Nat := none
  formingMembers : Nat := 0
  formingBytes : Nat := 0
  formingDeadline : Nat := 0
  active : Option Capture := none
  /-- The units of `lifetime_->slots` that are free. -/
  slots : Nat
  first : Option Fault := none
  storageFailure : Option Fault := none
  coordinatorFailure : Option Fault := none
  stopped : Bool := false
  rotating : Bool := false
  submitting : Bool := false
  waiting : Bool := false
  joining : Bool := false
  flushing : Bool := false
  serviceEnabled : Bool := false
  closing : Bool := false
  closed : Bool := false
  /-- What was captured, what the barriers returned for which boundary, what was settled, in order, and
      which assertions failed. -/
  captures : List Capture := []
  barriers : List (Boundary × Option Boundary) := []
  settled : List Settled := []
  fired : List Assertion := []
  deriving DecidableEq

namespace Commit

def sealNode (id : Nat) (n : Node) : Node := if n.id = id then { n with sealed_ := true } else n

def joinNode (id : Nat) (n : Node) : Node := if n.id = id then { n with joined := true } else n

/-- `force`: the cohort that is forming grows no more. -/
def force (q : Commit) : Commit :=
  match q.formingTail with
  | none => q
  | some id => { q with queue := q.queue.map (sealNode id), formingTail := none }

def requestStop (q : Commit) : Commit := force { q with stopped := true }

/-- `remember`. -/
def remember (q : Commit) : Option Fault → Commit
  | none => q
  | some why => requestStop { q with
      storageFailure := q.storageFailure.or (some why), first := q.first.or (some why) }

/-- A failure that is not the storage's. -/
def coordinatorFails (q : Commit) (why : Fault) : Commit :=
  requestStop { q with
    coordinatorFailure := q.coordinatorFailure.or (some why), first := q.first.or (some why) }

/-- `reserve`, where the budget grants what it charges. -/
def reserve (q : Commit) (members origin now : Nat) : Except Errc (Pending × Commit) :=
  if members = 0 ∨ now < origin then .error .invalidArgument
  else if q.config.maximumMembers < members then .error .resourceExhausted
  else if maximumTime < origin + q.config.maximumWait then .error .outOfRange
  else if q.slots = 0 then .error .queueFull
  else .ok (⟨members, origin + q.config.maximumWait⟩, { q with slots := q.slots - 1 })

/-- What `install` asserts of the writer's ticket. -/
def consistent (q : Commit) (p : Pending) (s : Submission) : Bool :=
  s.members = p.members ∧ s.begin_ = q.scope.cursor.position ∧ s.end_ = s.boundary.cursor.position
    ∧ s.boundary.cursor.incarnation = q.scope.cursor.incarnation
    ∧ s.end_ - s.begin_ ≤ q.config.maximumBytes

/-- The cohort that is forming is full for the group, or due. -/
def splits (q : Commit) (members bytes now : Nat) : Bool :=
  q.formingTail.isSome ∧ (q.config.targetMembers < q.formingMembers + members
    ∨ q.config.targetBytes < q.formingBytes + bytes
    ∨ (q.config.maximumWait ≠ 0 ∧ q.formingDeadline ≤ now))

/-- A cohort begins where none is forming. -/
def begins (q : Commit) (deadline : Nat) : Commit :=
  if q.formingTail.isNone then
    { q with formingMembers := 0, formingBytes := 0, formingDeadline := deadline }
  else q

/-- The node goes to the back of the queue, which is the tail that forms. -/
def push (q : Commit) (n : Node) : Commit :=
  { q with
    formingMembers := q.formingMembers + n.members
    formingBytes := q.formingBytes + n.bytes
    formingDeadline := min q.formingDeadline n.deadline
    scope := n.boundary
    queue := q.queue ++ [n]
    formingTail := some n.id }

/-- The cohort grows no more: it is large enough, no slot is left, or the owner stops or rotates. -/
def full (q : Commit) : Bool :=
  q.config.targetMembers ≤ q.formingMembers ∨ q.config.targetBytes ≤ q.formingBytes ∨ q.slots = 0
    ∨ q.stopped ∨ q.rotating

/-- `install`. -/
def install (q : Commit) (p : Pending) (s : Submission) (now : Nat) : Commit :=
  let bytes := s.end_ - s.begin_
  let q₁ := if q.splits p.members bytes now then q.force else q
  let q₂ := (q₁.begins p.deadline).push
    { id := q.settled.length + q.queue.length, members := p.members, bytes, deadline := p.deadline,
      boundary := s.boundary }
  if q₂.full then q₂.force else q₂

/-- The nodes up to the first that is sealed. -/
def cohort : List Node → List Node
  | [] => []
  | n :: rest => if n.sealed_ then [n] else n :: cohort rest

def deadlineOf (default : Nat) (nodes : List Node) : Nat :=
  nodes.foldl (fun deadline n => min deadline n.deadline) default

/-- What is captured of a cohort with its last node. -/
def captureOf (nodes : List Node) (last : Node) : Capture where
  nodes := nodes.map Node.id
  members := (nodes.map Node.members).sum
  bytes := (nodes.map Node.bytes).sum
  deadline := deadlineOf last.deadline nodes
  boundary := last.boundary

/-- `capture`. -/
def capture (q : Commit) (now : Nat) : Option Capture × Commit :=
  match q.active with
  | some c => (some c, q)
  | none =>
    match (cohort q.queue).getLast? with
    | none => (none, q)
    | some last =>
      let c := captureOf (cohort q.queue) last
      if last.sealed_ = false ∧ q.stopped = false ∧ q.rotating = false ∧ now < c.deadline then (none, q)
      else (some c, { q with
        queue := q.queue.map (sealNode last.id)
        formingTail := if q.formingTail = some last.id then none else q.formingTail
        active := some c
        captures := q.captures ++ [c] })

/-- `is_active`. -/
def isActive (q : Commit) (c : Capture) : Bool := q.active.any fun active => active.nodes = c.nodes

/-- The node's write was joined. -/
def isJoined (q : Commit) (id : Nat) : Bool := q.queue.any fun n => n.id = id ∧ n.joined

def isSettled (q : Commit) (id : Nat) : Bool := q.settled.any fun r => r.node = id

/-- The first node of a capture that has to be joined yet. -/
def unjoined (q : Commit) (c : Capture) : Option Nat := c.nodes.find? fun id => q.isJoined id = false

/-- `join_node`, where the write is done. -/
def join (q : Commit) (id : Nat) (failure : Option Fault) : Commit :=
  remember { q with queue := q.queue.map (joinNode id) } failure

def assert (q : Commit) (condition : Bool) (what : Assertion) : Commit :=
  if condition then q else { q with fired := q.fired ++ [what] }

/-- `finish_flush`. -/
def finishFlush (q : Commit) (c : Capture) (outcome : BarrierOutcome) : Commit :=
  let q := q.assert (q.isActive c ∧ q.flushing ∧ q.joining) .flushCapture
  let q := q.assert (c.nodes.all fun id => q.isJoined id ∧ q.isSettled id = false) .resultOnce
  { q with
    settled := q.settled ++ c.nodes.map fun id => ⟨id, c.boundary, outcome⟩
    queue := q.queue.drop c.nodes.length
    active := none
    flushing := false
    joining := false }

/-- The end of `flush_owned`, past every join: no receipt where anything failed, or where the barrier
    was another's. -/
def certify (q : Commit) (c : Capture) (outcome : BarrierOutcome) : Commit :=
  let q := if q.first = none ∧ outcome.receipt ≠ some c.boundary then
      q.coordinatorFails (.error .wrongContext)
    else q
  q.finishFlush c {
    failure := q.first, receipt := if q.first.isSome then none else outcome.receipt }

/-- `abandon`: the failure there is, or that the owner closed. -/
def abandoned (q : Commit) : BarrierOutcome where
  failure := q.first.or (some (.error .closed))

/-- `retire_written`, past its checks. -/
def retireWritten (q : Commit) (c : Capture) : Commit :=
  { q with
    settled := q.settled ++ (c.nodes.filter fun id => q.isSettled id = false).map fun id =>
      ⟨id, c.boundary, q.abandoned⟩
    queue := q.queue.drop c.nodes.length
    active := none }

/-- `flush_owned`, up to its first await: a barrier only while no storage failure is known. -/
def startFlush (q : Commit) : Commit := { q with flushing := true, joining := true }

end Commit

end KwaqueStorage.GroupCommit
