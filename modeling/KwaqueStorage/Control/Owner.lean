import KwaqueStorage.Base.Types
import KwaqueStorage.Lib.Runs
import KwaqueStorage.Publication.Publisher

/-!
# The owner of a shard's control record

`local_control_owner` keeps one record current: its high marks, the head of its WAL and its durable
checkpoint. An update is an edit of a candidate copy; it takes its turn, passes the checks, awaits what
it depends on and is published under the next generation. Other updates arrive meanwhile and wait in
line, the owner may be closed, and the process may stop anywhere and find one of two records when it
opens the control again.

A reference to a checkpoint's root carries the digest of its bytes, so `rootOf` says what any load of
it returns. Beside the owner, a state has what no code keeps: the records that became durable, with the
calls they came from, and what was answered.
-/

namespace KwaqueStorage.Control

open Lib Publication

/-- `local_wal_head`. An incarnation is sixteen octets in their canonical order, of which zero is nil. -/
structure WalHead where
  incarnation : Nat
  headerDigest : Nat
  deriving DecidableEq

/-- `local_root_kind`. -/
inductive RootKind
  | index
  | sealedRetry
  | checkpoint
  | manifest
  deriving DecidableEq

/-- `local_root_reference`. -/
structure RootReference where
  kind : RootKind
  sequence : Nat
  position : Nat
  bytes : Nat
  pages : Nat
  digest : Nat
  deriving DecidableEq

/-- `local_checkpoint_root`, as far as the control reads it. -/
structure CheckpointRoot where
  begin_ : Cursor
  end_ : Cursor
  deriving DecidableEq

/-- `local_shard_control`. -/
structure Fields where
  walHigh : Nat
  objectHigh : Nat
  decisionHigh : Nat
  deletionHigh : Nat
  checkpoint : Option RootReference
  walHead : Option WalHead
  deriving DecidableEq

/-- `local_control_snapshot`. -/
structure Snapshot where
  generation : Nat
  fields : Fields
  deriving DecidableEq

/-- `local_wal_high::from_incarnation`. -/
def fromIncarnation (incarnation : Nat) : Option Nat := if incarnation = 0 then none else some incarnation

/-- A head may not go, go back, or change its header. -/
def headGoesBack : Option WalHead → Option WalHead → Bool
  | none, _ => false
  | some _, none => true
  | some before, some after => after.incarnation < before.incarnation
    ∨ (after.incarnation = before.incarnation ∧ after.headerDigest ≠ before.headerDigest)

def headAboveHigh (after : Fields) : Bool :=
  match after.walHead with
  | none => false
  | some head =>
    match fromIncarnation head.incarnation with
    | none => true
    | some high => decide (after.walHigh < high)

def checkpointGoesBack : Option RootReference → Option RootReference → Bool
  | none, _ => false
  | some _, none => true
  | some before, some after => after ≠ before ∧ after.sequence ≤ before.sequence

def checkpointUnfounded (after : Fields) : Bool :=
  match after.checkpoint with
  | none => false
  | some root => after.walHead.isNone ∨ root.kind ≠ .checkpoint ∨ root.position ≠ 0
    ∨ after.objectHigh < root.sequence

/-- `detail::control_progress`. -/
def controlProgress (before after : Fields) : Except Errc Unit :=
  if after.walHigh < before.walHigh ∨ after.objectHigh < before.objectHigh
      ∨ after.decisionHigh < before.decisionHigh ∨ after.deletionHigh < before.deletionHigh then
    .error .wrongContext
  else if headGoesBack before.walHead after.walHead then .error .wrongContext
  else if headAboveHigh after then .error .wrongContext
  else if checkpointGoesBack before.checkpoint after.checkpoint then .error .wrongContext
  else if checkpointUnfounded after then .error .wrongContext
  else .ok ()

/-- `detail::unchanged_control_dependencies`. -/
def unchangedControlDependencies (before : Snapshot) (after : Fields) : Except Fault Unit :=
  if before.fields.walHead ≠ after.walHead ∨ before.fields.checkpoint ≠ after.checkpoint then
    .error (pathError .invalidArgument)
  else .ok ()

/-- An update as it is called: its edit, and whether it brings a validator of its dependencies. -/
structure Update where
  edit : Fields → Except Fault Fields
  validates : Bool

/-- What the update in flight awaits. -/
inductive Phase
  | validating
  | depending (candidate : Fields)
  | loadingHead (candidate : Fields)
  | loadingRoot (candidate : Fields) (reference : RootReference)
  | encoding (candidate : Fields) (checkpointEnd : Option Cursor)
  | revalidating (candidate : Fields) (checkpointEnd : Option Cursor)
  | publishing (candidate : Fields) (checkpointEnd : Option Cursor)

/-- The update in flight. Calls are numbered as they come. -/
structure Running where
  call : Nat
  update : Update
  generation : Nat
  phase : Phase

/-- `turn_`: one unit, which is free, or given to a waiter that has not resumed, or held. -/
inductive Turn
  | free
  | granted (call : Nat) (update : Update)
  | running (r : Running)

/-- `local_control_owner`. -/
structure Owner where
  current : Snapshot
  checkpointEnd : Option Cursor
  publisherFenced : Bool := false
  turn : Turn := .free
  /-- The waiters of `turn_`, first come first. -/
  queue : List (Nat × Update) := []
  waiting : Nat := 0
  walWriterActive : Bool := false
  closing : Bool := false
  closed : Bool := false
  fenced : Bool := false

/-- `maximum_control_waiters`. -/
def maximumControlWaiters : Nat := 2

/-- The greatest `local_publication_generation`. -/
def maximumGeneration : Nat := 2 ^ 64 - 1

def failed (why : Fault) : Outcome := { failure := some why }

/-- What `update` answers to a call that it turns away. -/
def rejected (why : Failure) : Outcome :=
  { failure := some (.error why), admissionRejected := why.admissionPressure }

namespace Owner

def shut (o : Owner) : Bool := o.closing || o.closed || o.fenced

/-- `local_control_owner::snapshot`. -/
def snapshot (o : Owner) : Except Errc Snapshot := if o.shut then .error .closed else .ok o.current

/-- The turn is given back: the first that waits has it. -/
def release (o : Owner) : Owner :=
  match o.queue with
  | [] => { o with turn := .free }
  | (call, update) :: rest => { o with turn := .granted call update, queue := rest }

/-- `try_get_units` succeeds. -/
def turnFree (o : Owner) : Bool :=
  match o.turn with
  | .free => o.queue.isEmpty
  | _ => false

/-- An update that ends before it is published. -/
def leave (o : Owner) (why : Fault) : Owner × Option Outcome :=
  (release { o with fenced := o.fenced || (decide (why = .thrown) && o.publisherFenced) },
    some (failed why))

def goes (o : Owner) (r : Running) (phase : Phase) : Owner × Option Outcome :=
  ({ o with turn := .running { r with phase } }, none)

/-- `update_owned`, up to its first await. -/
def begin_ (o : Owner) (call : Nat) (update : Update) : Owner × Option Outcome :=
  if o.current.generation = maximumGeneration then o.leave (pathError .outOfRange)
  else o.goes { call, update, generation := o.current.generation + 1, phase := .validating } .validating

/-- The owner of the directory is validated: the edit, on a copy of the fields that are current. -/
def validated (o : Owner) (r : Running) : Except Fault Unit → Owner × Option Outcome
  | .error why => o.leave why
  | .ok _ =>
    match r.update.edit o.current.fields with
    | .error why => o.leave why
    | .ok candidate =>
      match controlProgress o.current.fields candidate with
      | .error code => o.leave (pathError code)
      | .ok _ => o.goes r (.depending candidate)

def loadRoot (o : Owner) (r : Running) (candidate : Fields) : Owner × Option Outcome :=
  match candidate.checkpoint with
  | none => o.goes r (.encoding candidate none)
  | some reference =>
    if some reference ≠ o.current.fields.checkpoint then o.goes r (.loadingRoot candidate reference)
    else o.goes r (.encoding candidate none)

def loadHead (o : Owner) (r : Running) (candidate : Fields) : Owner × Option Outcome :=
  if candidate.walHead ≠ o.current.fields.walHead ∧ candidate.walHead.isSome then
    o.goes r (.loadingHead candidate)
  else o.loadRoot r candidate

def depended (o : Owner) (r : Running) (candidate : Fields) (result : Except Fault Unit) :
    Owner × Option Outcome :=
  match if r.update.validates then result else unchangedControlDependencies o.current candidate with
  | .error why => o.leave why
  | .ok _ => o.loadHead r candidate

def headLoaded (o : Owner) (r : Running) (candidate : Fields) :
    Except Fault Unit → Owner × Option Outcome
  | .error why => o.leave why
  | .ok _ => o.loadRoot r candidate

def rootLoaded (o : Owner) (r : Running) (candidate : Fields) :
    Except Fault CheckpointRoot → Owner × Option Outcome
  | .error why => o.leave why
  | .ok next =>
    if o.checkpointEnd.any fun end_ => decide (next.begin_ ≠ end_) then
      o.leave (pathError .wrongContext)
    else o.goes r (.encoding candidate (some next.end_))

/-- A stage that only has to succeed. -/
def passed (o : Owner) (r : Running) (next : Phase) : Except Fault Unit → Owner × Option Outcome
  | .error why => o.leave why
  | .ok _ => o.goes r next

/-- The publisher is done, and is fenced or not. -/
def published (o : Owner) (r : Running) (candidate : Fields) (checkpointEnd : Option Cursor)
    (outcome : Outcome) (publisherFenced : Bool) : Owner :=
  release { o with
    current := if outcome.disposition = .durable then ⟨r.generation, candidate⟩ else o.current
    checkpointEnd := if outcome.disposition = .durable then checkpointEnd.or o.checkpointEnd
      else o.checkpointEnd
    publisherFenced
    fenced := o.fenced || publisherFenced || decide (outcome.disposition = .uncertain) }

end Owner

/-! ## The owner, the disk and the callers -/

/-- A record that a call published. -/
structure Applied where
  call : Nat
  update : Update
  record : Snapshot

structure State where
  owner : Option Owner := none
  /-- The record at first, and those that became durable after it, the newest first. -/
  first : Snapshot
  applied : List Applied := []
  /-- The record of a publication that is uncertain, or that a stop cut off. -/
  unsure : Option Applied := none
  /-- How many calls there were, and what was answered. -/
  calls : Nat := 0
  replies : List (Nat × Outcome) := []
  /-- How the publications of this owner ended, the newest first. -/
  publications : List Disposition := []

def latest (first : Snapshot) : List Applied → Snapshot
  | [] => first
  | newest :: _ => newest.record

/-- The last durable record. -/
def State.durable (s : State) : Snapshot := latest s.first s.applied

/-- What happens next, with what the environment answers. -/
inductive Event
  | update (update : Update) (reserved : Except Failure Unit)
  | resume
  | validated (result : Except Fault Unit)
  | depended (result : Except Fault Unit)
  | headLoaded (result : Except Fault Unit)
  | rootLoaded (result : Except Fault Unit)
  | encoded (result : Except Fault Unit)
  | revalidated (result : Except Fault Unit)
  | published (outcome : Outcome) (publisherFenced : Bool)
  | publishThrew
  | attach (active : Bool)
  | close
  | closed
  | stop
  | open_ (found requireHead : Bool)

namespace State

/-- What an update's step leaves, and its answer. -/
def settle (s : State) (call : Nat) (after : Owner × Option Outcome) : State :=
  { s with
    owner := some after.1
    replies := match after.2 with
      | none => s.replies
      | some outcome => (call, outcome) :: s.replies }

/-- `local_control_owner::update`. -/
def update (s : State) (o : Owner) (u : Update) (reserved : Except Failure Unit) : State :=
  let call := s.calls
  let s := { s with calls := s.calls + 1 }
  if o.shut then s.settle call (o, some (rejected { code := .closed }))
  else if o.turnFree = false ∧ o.waiting = maximumControlWaiters then
    s.settle call (o, some (rejected { code := .queueFull, notDispatched := true }))
  else
    match reserved with
    | .error why => s.settle call (o, some (rejected why))
    | .ok _ =>
      if o.turnFree then s.settle call (o.begin_ call u)
      else { s with owner := some { o with waiting := o.waiting + 1, queue := o.queue ++ [(call, u)] } }

/-- `update_queued`, from where it has the turn. -/
def resume (s : State) (o : Owner) (call : Nat) (u : Update) : State :=
  let o := { o with waiting := o.waiting - 1 }
  if o.shut then s.settle call (o.release, some (failed (pathError .closed)))
  else s.settle call (o.begin_ call u)

/-- The outcome of the publication is true: the record is durable if it says so, and may be found if
    it is uncertain. -/
def published (s : State) (o : Owner) (r : Running) (candidate : Fields)
    (checkpointEnd : Option Cursor) (outcome : Outcome) (publisherFenced : Bool) : State :=
  let record : Applied := ⟨r.call, r.update, ⟨r.generation, candidate⟩⟩
  { s with
    owner := some (o.published r candidate checkpointEnd outcome publisherFenced)
    applied := if outcome.disposition = .durable then record :: s.applied else s.applied
    unsure := if outcome.disposition = .uncertain then some record else s.unsure
    replies := (r.call, outcome) :: s.replies
    publications := outcome.disposition :: s.publications }

/-- What may be found of the publication that a stop cuts off. -/
def cutOff (o : Owner) : Option Applied :=
  match o.turn with
  | .running ⟨call, update, generation, .publishing candidate _⟩ =>
    some ⟨call, update, generation, candidate⟩
  | _ => none

section Step

variable (rootOf : RootReference → CheckpointRoot)

/-- `local_control_owner::open`, over the record it finds. -/
def opened (s : State) (requireHead : Bool) : Option State :=
  let fields := s.durable.fields
  if fields.walHead.isNone ∧ (requireHead ∨ fields.checkpoint.isSome) then none
  else some { s with
    owner := some {
      current := s.durable
      checkpointEnd := fields.checkpoint.map fun reference => (rootOf reference).end_ }
    publications := [] }

/-- A step of the update in flight. -/
def advance (s : State) (o : Owner) (r : Running) : Event → Option State
  | .validated result =>
    match r.phase with
    | .validating => some (s.settle r.call (o.validated r result))
    | _ => none
  | .depended result =>
    match r.phase with
    | .depending candidate => some (s.settle r.call (o.depended r candidate result))
    | _ => none
  | .headLoaded result =>
    match r.phase with
    | .loadingHead candidate => some (s.settle r.call (o.headLoaded r candidate result))
    | _ => none
  | .rootLoaded result =>
    match r.phase with
    | .loadingRoot candidate reference =>
      some (s.settle r.call (o.rootLoaded r candidate (result.map fun _ => rootOf reference)))
    | _ => none
  | .encoded result =>
    match r.phase with
    | .encoding candidate end_ =>
      some (s.settle r.call (o.passed r (.revalidating candidate end_) result))
    | _ => none
  | .revalidated result =>
    match r.phase with
    | .revalidating candidate end_ =>
      some (s.settle r.call (o.passed r (.publishing candidate end_) result))
    | _ => none
  | .published outcome fenced =>
    match r.phase with
    | .publishing candidate end_ => some (s.published o r candidate end_ outcome fenced)
    | _ => none
  | .publishThrew =>
    match r.phase with
    | .publishing _ _ => some (s.settle r.call (o.leave .thrown))
    | _ => none
  | _ => none

/-- One event; none where it cannot happen. -/
def step (s : State) (event : Event) : Option State :=
  match s.owner with
  | none =>
    match event with
    | .open_ false requireHead => { s with unsure := none }.opened rootOf requireHead
    | .open_ true requireHead => do
      let record ← s.unsure
      { s with unsure := none, applied := record :: s.applied }.opened rootOf requireHead
    | _ => none
  | some o =>
    match event with
    | .update u reserved => some (s.update o u reserved)
    | .attach active => some { s with owner := some { o with walWriterActive := active } }
    | .close =>
      -- refused while a WAL writer is active, or where it is under way
      if o.closed ∨ o.walWriterActive ∨ o.closing then some s
      else some { s with owner := some { o with closing := true } }
    | .closed =>
      -- the gate is empty
      if o.closing ∧ o.turnFree then some { s with owner := some { o with closed := true } } else none
    | .stop => some { s with owner := none, unsure := (cutOff o).or s.unsure }
    | .open_ _ _ => none
    | event =>
      match o.turn with
      | .free => none
      | .granted call u =>
        match event with
        | .resume => some (s.resume o call u)
        | _ => none
      | .running r => s.advance rootOf o r event

end Step

end State

/-- The control of a shard, from any record and before it is opened. -/
def system (rootOf : RootReference → CheckpointRoot) : System State Event where
  init s := ∃ first, s = { first }
  step := State.step rootOf

end KwaqueStorage.Control
