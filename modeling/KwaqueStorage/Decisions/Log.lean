import KwaqueStorage.Ids.Unique

/-!
# The log of recovery decisions

`recovery_decision_log` makes the resolutions of an owner durable, one record each, before anything they
authorize runs. A resolution that a held decision answers writes nothing. What is held after a restart
is adopted again, in any order.

One operation runs at a time. It awaits the WAL, the allocator, the encoding and the publication, and
meanwhile the allocator serves others, the log may be closed and the process may stop. Beside the log a
state has the files of the decisions, as far as they may exist.
-/

namespace KwaqueStorage.Decisions

open Lib
open Publication (Failure Outcome Fault Disposition pathError)
open KwaqueStorage.Control (RootReference CheckpointRoot)

/-- `local_recovery_action`. -/
inductive Action
  | preserve
  | reconstruct
  | discard
  | sealAt
  deriving DecidableEq

/-- `local_recovery_decision`. A segment's context stands for what identifies it. -/
structure Decision where
  prepare : Cursor
  prepareDigest : Nat
  segment : Nat
  targetPosition : Nat
  action : Action
  ownerDecisionId : Nat
  deriving DecidableEq

/-- `recovery_decision_pin`. -/
structure Pin where
  sequence : Nat
  digest : Nat
  bytes : Nat
  deriving DecidableEq

/-- `recovery_decision_record`. -/
structure DecisionRecord where
  pin : Pin
  value : Decision
  deriving DecidableEq

/-- `recovery_candidate_resolution`. -/
structure CandidateResolution where
  prepare : Cursor
  segment : Nat
  target : Nat
  action : Action
  ownerDecisionId : Nat
  deriving DecidableEq

/-- `recovery_seal_resolution`. -/
structure SealResolution where
  segment : Nat
  end_ : Nat
  ownerDecisionId : Nat
  deriving DecidableEq

/-- `recovered_seal_proof`. -/
structure SealProof where
  segment : Nat
  end_ : Nat
  contentEnd : Cursor
  identity : Nat
  deriving DecidableEq

/-- `recovery_decision_status`. -/
inductive Status
  | created
  | exists_
  | resolved
  | conflict
  deriving DecidableEq

/-- `recovery_decision_outcome`. -/
structure DecisionOutcome where
  status : Status
  record : DecisionRecord
  deriving DecidableEq

/-- What a seal at an end says of a candidate. -/
def sealedAction (target end_ : Nat) : Action := if target < end_ then .reconstruct else .discard

/-- `recovery_decisions_agree`. -/
def recoveryDecisionsAgree (candidate : Decision) (end_ : Nat) : Bool :=
  candidate.action = sealedAction candidate.targetPosition end_

/-- The loop of `resolve` for a candidate: the first held decision that answers it. -/
def answer (r : CandidateResolution) : List DecisionRecord → Option DecisionOutcome
  | [] => none
  | stored :: rest =>
    let value := stored.value
    if value.segment ≠ r.segment then answer r rest
    else if value.action = .sealAt then
      some ⟨if r.action = sealedAction r.target value.targetPosition then .resolved else .conflict, stored⟩
    else if value.prepare = r.prepare then
      some ⟨if value.targetPosition = r.target ∧ value.action = r.action
          ∧ value.ownerDecisionId = r.ownerDecisionId then .exists_ else .conflict, stored⟩
    else answer r rest

/-- `settled`: the segment's own seal first, then a candidate that the end contradicts. -/
def settled (records : List DecisionRecord) (r : SealResolution) : Option DecisionOutcome :=
  match records.find? fun stored =>
      stored.value.segment = r.segment ∧ stored.value.action = .sealAt with
  | some stored =>
    some ⟨if stored.value.targetPosition = r.end_ ∧ stored.value.ownerDecisionId = r.ownerDecisionId then
      .exists_ else .conflict, stored⟩
  | none =>
    (records.find? fun stored => stored.value.segment = r.segment
      ∧ recoveryDecisionsAgree stored.value r.end_ = false).map fun stored => ⟨.conflict, stored⟩

/-- `held_by`. -/
def heldBy (value : Decision) : List DecisionRecord → Option DecisionOutcome
  | [] => none
  | stored :: rest =>
    let held := stored.value
    if held.segment ≠ value.segment then heldBy value rest
    else if value.action = .sealAt ∧ held.action = .sealAt
        ∨ value.action ≠ .sealAt ∧ held.action ≠ .sealAt ∧ held.prepare = value.prepare then
      some ⟨if held = value then .exists_ else .conflict, stored⟩
    else if value.action = .sealAt ∧ held.action ≠ .sealAt
          ∧ recoveryDecisionsAgree held value.targetPosition = false
        ∨ value.action ≠ .sealAt ∧ held.action = .sealAt
          ∧ recoveryDecisionsAgree value held.targetPosition = false then
      some ⟨.conflict, stored⟩
    else heldBy value rest

/-! ## The operation in flight -/

/-- What the operation awaits. -/
inductive Operation
  | adopting (pin : Pin) (segment : Nat)
  | scanning (r : CandidateResolution)
  | allocating (value : Decision)
  | encoding (value : Decision) (sequence : Nat)
  | publishing (value : Decision) (pin : Pin)
  deriving DecidableEq

/-- `recovery_decision_log`; it is busy while an operation runs. -/
structure Log where
  limit : Nat
  records : List DecisionRecord := []
  operation : Option Operation := none
  closing : Bool := false
  closed : Bool := false
  fenced : Bool := false
  /-- The sequences of the records it gave to a publisher. -/
  published : List Nat := []
  deriving DecidableEq

/-- A record at its path, whole or not at all, and whether it is durable. -/
structure File where
  pin : Pin
  value : Decision
  durable : Bool
  deriving DecidableEq

/-- What a publication leaves at the record's path. -/
inductive Effect
  | absent
  | present
  | durable
  deriving DecidableEq

/-- What an operation returns. -/
inductive Reply
  | failed (why : Fault)
  | adopted (record : DecisionRecord)
  | decided (outcome : DecisionOutcome)
  deriving DecidableEq

structure State where
  ids : Ids.State
  log : Option Log := none
  files : List File := []
  /-- The sequences that were given to a publisher, by this log or one before it. -/
  used : List Nat := []
  /-- What the operations returned, the newest first. -/
  replies : List Reply := []

inductive Event
  | ids (event : Ids.Event)
  | make (limit : Nat)
  | adopt (pin : Pin) (segment : Nat) (polled : Option Errc)
  | loaded (result : Except Errc Unit)
  | resolve (r : CandidateResolution) (descriptor : Nat) (polled : Option Errc)
  | scanned (found : Except Errc (Option (Nat × Nat))) (reserved : Bool)
  | resolveSeal (r : SealResolution) (proof : SealProof) (polled : Option Errc) (reserved : Bool)
  | allocateFails (code : Errc)
  | encoded (result : Except Errc (Nat × Nat))
  | published (threw : Bool) (outcome : Outcome) (closing : Option Fault) (effect : Effect)
  | close
  | closed
  | stop (cut : Effect) (found : Nat → Bool)

/-- The ID of a decision that the allocator has just returned. -/
def newDecision (before after : Ids.State) : Option Nat :=
  if after.issued.length = before.issued.length then none
  else
    match after.issued with
    | (.decision, id) :: _ => some id
    | _ => none

/-- The process stops, which the log sees as its own event. -/
def stops : Ids.Event → Bool
  | .control .stop => true
  | _ => false

/-- A publication tells what it left, unless it threw. -/
def tells (threw : Bool) (outcome : Outcome) (effect : Effect) : Bool :=
  threw || match outcome.disposition with
    | .durable => effect = .durable
    | .untouched => effect = .absent
    | .uncertain => true

namespace State

/-- The operation is over, or was turned away. -/
def reply (s : State) (log : Log) (result : Reply) : State :=
  { s with log := some { log with operation := none }, replies := result :: s.replies }

def awaits (s : State) (log : Log) (operation : Operation) : State :=
  { s with log := some { log with operation := some operation } }

/-- What `enter` refuses with. -/
def refuses (log : Log) (polled : Option Errc) : Option Errc :=
  if log.closing ∨ log.closed ∨ log.fenced then some .closed
  else if log.operation.isSome then some .queueFull
  else polled

/-- An operation that `enter` turns away changes nothing. -/
def refused (s : State) (code : Errc) : State :=
  { s with replies := .failed (pathError code) :: s.replies }

/-- `adopt`, up to the load. -/
def adopt (s : State) (log : Log) (pin : Pin) (segment : Nat) : State :=
  match log.records.find? fun stored => stored.pin.sequence = pin.sequence with
  | some stored =>
    if stored.pin ≠ pin ∨ stored.value.segment ≠ segment then
      s.reply log (.failed (pathError .wrongContext))
    else s.reply log (.adopted stored)
  | none =>
    if log.records.length = log.limit then s.reply log (.failed (pathError .resourceExhausted))
    else s.awaits log (.adopting pin segment)

/-- `adopt`, from what was read back. -/
def adopted (s : State) (log : Log) (pin : Pin) (value : Decision) : State :=
  if (heldBy value log.records).any fun held => held.status ≠ .exists_ then
    s.reply log (.failed (pathError .wrongContext))
  else s.reply { log with records := log.records ++ [⟨pin, value⟩] } (.adopted ⟨pin, value⟩)

/-- What `load_recovery_decision` reads: the durable record at the path, under its pin and segment. -/
def load (s : State) (pin : Pin) (segment : Nat) : Option Decision :=
  (s.files.find? fun f => f.durable ∧ f.pin = pin ∧ f.value.segment = segment).map File.value

/-- `persist`, up to the allocation. -/
def persist (s : State) (log : Log) (value : Decision) (reserved : Bool) : State :=
  if log.records.length = log.limit ∨ reserved = false then
    s.reply log (.failed (pathError .resourceExhausted))
  else s.awaits log (.allocating value)

/-- `resolve` for a candidate, up to the scan. -/
def resolve (s : State) (log : Log) (r : CandidateResolution) (descriptor : Nat) : State :=
  if r.action = .sealAt ∨ r.ownerDecisionId = 0 ∨ r.segment ≠ descriptor then
    s.reply log (.failed (pathError .invalidArgument))
  else
    match answer r log.records with
    | some outcome => s.reply log (.decided outcome)
    | none => s.awaits log (.scanning r)

/-- The scan has found the PREPARE, with its slot and digest, or has not. -/
def scanned (s : State) (log : Log) (r : CandidateResolution) (reserved : Bool) :
    Except Errc (Option (Nat × Nat)) → State
  | .error code => s.reply log (.failed (pathError code))
  | .ok none => s.reply log (.failed (pathError .notFound))
  | .ok (some (target, digest)) =>
    if target ≠ r.target then s.reply log (.failed (pathError .notFound))
    else s.persist log ⟨r.prepare, digest, r.segment, r.target, r.action, r.ownerDecisionId⟩ reserved

/-- `resolve` for a seal. -/
def resolveSeal (s : State) (log : Log) (r : SealResolution) (proof : SealProof) (reserved : Bool) :
    State :=
  if r.ownerDecisionId = 0 ∨ r.segment ≠ proof.segment ∨ r.end_ ≠ proof.end_ then
    s.reply log (.failed (pathError .invalidArgument))
  else
    match settled log.records r with
    | some outcome => s.reply log (.decided outcome)
    | none => s.persist log
        ⟨proof.contentEnd, proof.identity, r.segment, r.end_, .sealAt, r.ownerDecisionId⟩ reserved

/-- The end of `persist`: a record that may exist and is not known to be durable fences the log. -/
def publishEnds (s : State) (log : Log) (value : Decision) (pin : Pin) (threw : Bool) (outcome : Outcome)
    (closing : Option Fault) : State :=
  let failed := (if threw then some .thrown else outcome.failure).or closing
  let disposition := if threw then .untouched else outcome.disposition
  let temporary := threw || outcome.temporaryMayExist
  if failed.isSome ∨ disposition ≠ .durable then
    s.reply { log with fenced := log.fenced || decide (disposition ≠ .untouched) || temporary }
      (.failed (failed.getD (pathError .ioFailure)))
  else s.reply { log with records := log.records ++ [⟨pin, value⟩] } (.decided ⟨.created, ⟨pin, value⟩⟩)

/-- The file that a publication leaves. -/
def leaves (value : Decision) (pin : Pin) : Effect → List File
  | .absent => []
  | .present => [⟨pin, value, false⟩]
  | .durable => [⟨pin, value, true⟩]

/-- What a stop cuts off may be found. -/
def cutOff (s : State) (cut : Effect) : List File :=
  match s.log.bind Log.operation with
  | some (.publishing value pin) => leaves value pin cut
  | _ => []

section Step

variable (rootOf : RootReference → CheckpointRoot)

/-- One event; none where it cannot happen. -/
def step (s : State) : Event → Option State
  | .ids event =>
    if stops event then none
    else (s.ids.step rootOf event).map fun ids => { s with
      ids
      log := s.log.map fun log =>
        match log.operation, newDecision s.ids ids with
        | some (.allocating value), some id => { log with operation := some (.encoding value id) }
        | _, _ => log }
  | .make limit =>
    match s.log with
    | none => some { s with log := some { limit } }
    | some log => if log.closed then some { s with log := some { limit } } else none
  | .adopt pin segment polled => s.log.map fun log =>
      match refuses log polled with
      | some code => s.refused code
      | none => s.adopt log pin segment
  | .loaded result => do
    let log ← s.log
    let operation ← log.operation
    match operation, result with
    | .adopting _ _, .error code => some (s.reply log (.failed (pathError code)))
    | .adopting pin segment, .ok _ => (s.load pin segment).map fun value => s.adopted log pin value
    | _, _ => none
  | .resolve r descriptor polled => s.log.map fun log =>
      match refuses log polled with
      | some code => s.refused code
      | none => s.resolve log r descriptor
  | .scanned found reserved => do
    let log ← s.log
    let operation ← log.operation
    match operation with
    | .scanning r => some (s.scanned log r reserved found)
    | _ => none
  | .resolveSeal r proof polled reserved => s.log.map fun log =>
      match refuses log polled with
      | some code => s.refused code
      | none => s.resolveSeal log r proof reserved
  | .allocateFails code => do
    let log ← s.log
    let operation ← log.operation
    match operation with
    | .allocating _ => some (s.reply log (.failed (pathError code)))
    | _ => none
  | .encoded result => do
    let log ← s.log
    let operation ← log.operation
    match operation, result with
    | .encoding _ _, .error code => some (s.reply log (.failed (pathError code)))
    | .encoding value sequence, .ok (digest, bytes) => some ({ s with used := sequence :: s.used }.awaits
        { log with published := sequence :: log.published } (.publishing value ⟨sequence, digest, bytes⟩))
    | _, _ => none
  | .published threw outcome closing effect => do
    let log ← s.log
    let operation ← log.operation
    match operation with
    | .publishing value pin =>
      if tells threw outcome effect then
        some ({ s with files := s.files ++ leaves value pin effect }.publishEnds log value pin threw outcome
          closing)
      else none
    | _ => none
  | .close => s.log.map fun log =>
      if log.closed ∨ log.closing then s else { s with log := some { log with closing := true } }
  | .closed => s.log.bind fun log =>
      if log.closing ∧ log.operation = none then some { s with log := some { log with closed := true } }
      else none
  | .stop cut found => (s.ids.step rootOf (.control .stop)).map fun ids => { s with
      ids
      log := none
      files := ((s.files ++ s.cutOff cut).filter fun f => f.durable || found f.pin.sequence).map fun f =>
        { f with durable := true } }

end Step

end State

/-- The decision logs of a shard, one after another, over its allocator. -/
def system (rootOf : RootReference → CheckpointRoot) : System State Event where
  init s := ∃ ids, (Ids.system rootOf).init ids ∧ s = { ids }
  step := State.step rootOf

end KwaqueStorage.Decisions
