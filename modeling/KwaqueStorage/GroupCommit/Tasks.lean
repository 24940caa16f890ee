import KwaqueStorage.GroupCommit.Commit
import KwaqueStorage.Lib.Runs

/-!
# Who awaits

A flush is one coroutine, `flush_owned`, and five places run it: the automatic service, the drain the
service falls back to, a caller's own worker, a rotation and the close. Beside them a caller may wait
for a capture, join the writes of one, or submit a group. Each of these changes the owner between two
awaits, and what keeps them apart are the flags it leaves behind.
-/

namespace KwaqueStorage.GroupCommit

open Lib

/-- `flush_owned`: it awaits the barrier, or the write of a captured node. -/
inductive Flush
  | barrier (c : Capture)
  | join (c : Capture) (outcome : BarrierOutcome)
  deriving DecidableEq

def Flush.capture : Flush → Capture
  | .barrier c => c
  | .join c _ => c

/-- `drain_queue`: it awaits those that entered before it, the worker of a caller, or its own flush. -/
inductive Drain
  | settle
  | worker
  | loop
  | flush (f : Flush)
  deriving DecidableEq

/-- `service_loop`. -/
inductive Service
  | off
  | looping
  | waiting
  | selected (c : Capture)
  | flush (f : Flush)
  | drain (d : Drain)
  | done
  deriving DecidableEq

/-- `flush_worker_`. -/
inductive Worker
  | none
  | running (f : Flush)
  | finished
  deriving DecidableEq

/-- `rotate`. -/
inductive Rotator
  | none
  | service
  | drain (d : Drain)
  | writer
  deriving DecidableEq

/-- `close_once`. -/
inductive Closer
  | none
  | gate
  | service
  | drain (d : Drain)
  | observers
  | done
  deriving DecidableEq

structure State where
  commit : Commit
  service : Service := .off
  /-- A caller's `wait_capture`, and its `join_written`. -/
  waiter : Bool := false
  joiner : Option Capture := none
  worker : Worker := .none
  rotator : Rotator := .none
  closer : Closer := .none
  /-- The admissions that were not submitted yet, and the group that is being submitted. -/
  reserved : List Pending := []
  submission : Option Pending := none
  /-- The settled results that somebody holds. -/
  retained : Nat := 0
  deriving DecidableEq

/-- Where a flush runs. -/
inductive Place
  | service
  | serviceDrain
  | worker
  | rotate
  | close
  deriving DecidableEq

/-- Who drains the queue. -/
inductive Drainer
  | service
  | rotate
  | close
  deriving DecidableEq

def Drainer.place : Drainer → Place
  | .service => .serviceDrain
  | .rotate => .rotate
  | .close => .close

inductive Event
  | reserve (members origin now : Nat)
  | dropAdmission (at_ : Nat)
  | release
  | submit (members origin now : Nat)
  | submitAdmitted (at_ members : Nat)
  | submitted (submission : Option Submission) (now : Nat)
  | capture (now : Nat)
  | force
  | requestStop
  | waitCapture
  | waiterLooks (now : Nat)
  | sleepFails (why : Option Fault)
  | start
  | serviceLoops
  | serviceLooks (now : Nat)
  | serviceFlushes
  | serviceThrows
  | flush
  | joinWritten
  | joinerWritten (failure : Option Fault)
  | retireWritten
  | barrierDone (place : Place) (outcome : BarrierOutcome)
  | writtenDone (place : Place) (failure : Option Fault)
  | drains (who : Drainer)
  | rotate
  | rotateServed
  | rotated (threw : Bool) (failure : Option Fault) (scope : Option (Except Errc Boundary))
    (restarts : Bool)
  | close
  | closeEntered
  | closeServed
  | closeDone

namespace State

def flushAt (s : State) : Place → Option Flush
  | .service =>
    match s.service with
    | .flush f => some f
    | _ => none
  | .serviceDrain =>
    match s.service with
    | .drain (.flush f) => some f
    | _ => none
  | .worker =>
    match s.worker with
    | .running f => some f
    | _ => none
  | .rotate =>
    match s.rotator with
    | .drain (.flush f) => some f
    | _ => none
  | .close =>
    match s.closer with
    | .drain (.flush f) => some f
    | _ => none

def putFlush (s : State) (f : Flush) : Place → State
  | .service => { s with service := .flush f }
  | .serviceDrain => { s with service := .drain (.flush f) }
  | .worker => { s with worker := .running f }
  | .rotate => { s with rotator := .drain (.flush f) }
  | .close => { s with closer := .drain (.flush f) }

/-- Where the flush returns to. -/
def afterFlush (s : State) : Place → State
  | .service => { s with service := .looping }
  | .serviceDrain => { s with service := .drain .loop }
  | .worker => { s with worker := .finished }
  | .rotate => { s with rotator := .drain .loop }
  | .close => { s with closer := .drain .loop }

/-- `flush_owned`, past the barrier: it awaits the first write that is not joined, or is done. -/
def advance (s : State) (place : Place) (c : Capture) (outcome : BarrierOutcome) : State :=
  match s.commit.unjoined c with
  | some _ => s.putFlush (.join c outcome) place
  | none => { s with
      commit := s.commit.certify c outcome, retained := s.retained + c.nodes.length }.afterFlush place

/-- `flush_owned`, up to its first await. A coordinator's failure does not skip the barrier; only the
    storage's does. -/
def flushOwned (s : State) (place : Place) (c : Capture) : State :=
  let s := { s with commit := s.commit.startFlush }
  match s.commit.storageFailure with
  | none => s.putFlush (.barrier c) place
  | some _ => s.advance place c {}

/-- The barrier returns for the capture's boundary. -/
def barrierDone (s : State) (place : Place) (outcome : BarrierOutcome) : Option State :=
  match s.flushAt place with
  | some (.barrier c) =>
    let commit := { s.commit with barriers := s.commit.barriers ++ [(c.boundary, outcome.receipt)] }
    some ({ s with commit := commit.remember outcome.failure }.advance place c outcome)
  | _ => none

/-- A captured write is done. -/
def writtenDone (s : State) (place : Place) (failure : Option Fault) : Option State :=
  match s.flushAt place with
  | some (.join c outcome) =>
    (s.commit.unjoined c).map fun id =>
      { s with commit := s.commit.join id failure }.advance place c outcome
  | _ => none

def drainAt (s : State) : Drainer → Option Drain
  | .service =>
    match s.service with
    | .drain d => some d
    | _ => none
  | .rotate =>
    match s.rotator with
    | .drain d => some d
    | _ => none
  | .close =>
    match s.closer with
    | .drain d => some d
    | _ => none

def putDrain (s : State) (d : Drain) : Drainer → State
  | .service => { s with service := .drain d }
  | .rotate => { s with rotator := .drain d }
  | .close => { s with closer := .drain d }

/-- The end of `rotate`: the service runs again unless the owner stopped or closes. -/
def rotateEnds (s : State) (restarts : Bool) : State :=
  let commit := { s.commit with rotating := false }
  if commit.serviceEnabled ∧ commit.stopped = false ∧ commit.closing = false then
    if restarts then { s with commit, rotator := .none, service := .looping }
    else { s with commit := commit.coordinatorFails .thrown, rotator := .none }
  else { s with commit, rotator := .none }

/-- The queue is empty. -/
def drained (s : State) : Drainer → State
  | .service => { s with service := .done }
  | .rotate =>
    if s.commit.first.isSome ∨ s.commit.stopped then s.rotateEnds true
    else { s with rotator := .writer }
  | .close => { s with closer := .observers }

/-- A turn of `drain_queue`: it forces and captures until nothing is left. -/
def drainLoop (s : State) (who : Drainer) : State :=
  if s.commit.queue = [] then s.drained who
  else
    match s.commit.force.capture 0 with
    | (none, commit) => { s with commit := commit.assert false .drainCapture }
    | (some c, commit) => { s with commit }.flushOwned who.place c

def drains (s : State) (who : Drainer) : Option State :=
  match s.drainAt who with
  | some .settle =>
    if s.commit.submitting ∨ s.commit.waiting ∨ s.commit.joining then none
    else some (s.putDrain .worker who)
  | some .worker =>
    match s.worker with
    | .running _ => none
    | _ => some ({ s with worker := .none }.putDrain .loop who)
  | some .loop => some (s.drainLoop who)
  | _ => none

/-- `wait_capture_owned`, one turn: a capture, or nothing more to wait for, or it sleeps on. -/
def looks (s : State) (now : Nat) (found : Capture → State → State) (ended : State → State) : State :=
  match s.commit.capture now with
  | (some c, commit) => found c { s with commit := { commit with waiting := false } }
  | (none, commit) =>
    if (commit.stopped ∨ commit.rotating) ∧ commit.queue = [] ∧ commit.submitting = false then
      ended { s with commit := { commit with waiting := false } }
    else { s with commit }

/-- The checks of a submission. -/
def submits (s : State) : Bool :=
  !s.commit.stopped && !s.commit.closing && !s.commit.closed && s.commit.first.isNone
    && !s.commit.submitting && !s.commit.rotating

/-- What keeps a caller from consuming a capture. -/
def consumes (s : State) : Bool :=
  !s.commit.closing && !s.commit.closed && !s.commit.serviceEnabled && !s.commit.rotating
    && !s.commit.waiting && !s.commit.joining

/-- `join_written`, from its first write that is not joined. -/
def joins (s : State) (c : Capture) : State :=
  match s.commit.unjoined c with
  | some _ => { s with joiner := some c }
  | none => { s with joiner := none, commit := { s.commit with joining := false } }

/-- Nothing holds `operations_`. -/
def gateEmpty (s : State) : Bool :=
  s.submission.isNone && !s.waiter && s.joiner.isNone && decide (s.rotator = .none)
    && (match s.worker with
      | .running _ => false
      | _ => true)

def serviceEnded (s : State) : Bool := s.service = .off ∨ s.service = .done

/-- One event; none where it cannot happen, or where the call is turned away with no effect. -/
def step (s : State) : Event → Option State
  | .reserve members origin now =>
    if s.submits then
      match s.commit.reserve members origin now with
      | .error _ => none
      | .ok (pending, commit) => some { s with commit, reserved := s.reserved ++ [pending] }
    else none
  | .dropAdmission at_ =>
    if at_ < s.reserved.length then
      some { s with
        reserved := s.reserved.eraseIdx at_, commit := { s.commit with slots := s.commit.slots + 1 } }
    else none
  | .release =>
    if s.retained = 0 then none
    else some { s with
      retained := s.retained - 1, commit := { s.commit with slots := s.commit.slots + 1 } }
  | .submit members origin now =>
    if s.submits then
      match s.commit.reserve members origin now with
      | .error _ => none
      | .ok (pending, commit) =>
        some { s with commit := { commit with submitting := true }, submission := some pending }
    else none
  | .submitAdmitted at_ members =>
    if s.submits then
      match s.reserved[at_]? with
      | none => none
      | some pending =>
        if members = 0 ∨ pending.members < members then none
        else some { s with
          commit := { s.commit with submitting := true }
          reserved := s.reserved.eraseIdx at_
          submission := some { pending with members } }
    else none
  | .submitted submission now =>
    match s.submission with
    | none => none
    | some pending =>
      match submission with
      | none => some { s with
          commit := { s.commit with submitting := false, slots := s.commit.slots + 1 }
          submission := none }
      | some submission =>
        if s.commit.consistent pending submission then
          some { s with
            commit := { s.commit.install pending submission now with submitting := false }
            submission := none }
        else none
  | .capture now => some { s with commit := (s.commit.capture now).2 }
  | .force => some { s with commit := s.commit.force }
  | .requestStop => some { s with commit := s.commit.requestStop }
  | .waitCapture =>
    if s.consumes then some { s with waiter := true, commit := { s.commit with waiting := true } }
    else none
  | .waiterLooks now =>
    if s.waiter then
      some (s.looks now (fun _ s => { s with waiter := false }) fun s => { s with waiter := false })
    else none
  | .sleepFails why =>
    if s.commit.waiting ∧ s.commit.queue ≠ [] then
      match why with
      | none => some { s with commit := s.commit.requestStop }
      | some why => some { s with commit := s.commit.coordinatorFails why }
    else none
  | .start =>
    if s.consumes ∧ s.commit.stopped = false ∧ s.commit.active = none then
      some { s with commit := { s.commit with serviceEnabled := true }, service := .looping }
    else none
  | .serviceLoops =>
    if s.service = .looping then
      some { s with service := .waiting, commit := { s.commit with waiting := true } }
    else none
  | .serviceLooks now =>
    if s.service = .waiting then
      some (s.looks now (fun c s => { s with service := .selected c })
        fun s => { s with service := .done })
    else none
  | .serviceFlushes =>
    match s.service with
    | .selected c => some (s.flushOwned .service c)
    | _ => none
  | .serviceThrows =>
    match s.service with
    | .looping | .selected _ => some { s with
        commit := s.commit.coordinatorFails .thrown, service := .drain .settle }
    | .waiting => some { s with
        commit := { s.commit.coordinatorFails .thrown with waiting := false }
        service := .drain .settle }
    | _ => none
  | .flush =>
    match s.commit.active, s.worker with
    | _, .running _ => none
    | none, _ => none
    | some c, _ => if s.consumes then some (s.flushOwned .worker c) else none
  | .joinWritten =>
    match s.commit.active with
    | none => none
    | some c =>
      if s.consumes then some ({ s with commit := { s.commit with joining := true } }.joins c) else none
  | .joinerWritten failure =>
    match s.joiner with
    | none => none
    | some c => (s.commit.unjoined c).map fun id =>
        { s with commit := s.commit.join id failure }.joins c
  | .retireWritten =>
    match s.commit.active with
    | none => none
    | some c =>
      if s.consumes ∧ (s.commit.unjoined c).isNone then
        some { s with
          commit := s.commit.retireWritten c, retained := s.retained + c.nodes.length }
      else none
  | .barrierDone place outcome => s.barrierDone place outcome
  | .writtenDone place failure => s.writtenDone place failure
  | .drains who => s.drains who
  | .rotate =>
    if s.commit.stopped ∨ s.commit.closing ∨ s.commit.closed ∨ s.commit.rotating then none
    else some { s with commit := { s.commit with rotating := true }.force, rotator := .service }
  | .rotateServed =>
    if s.rotator = .service ∧ s.serviceEnded then
      some { s with service := .off, rotator := .drain .settle }
    else none
  | .rotated threw failure scope restarts =>
    if s.rotator = .writer then
      let commit := s.commit.remember failure
      if threw then
        let commit := if failure.isSome then commit else commit.coordinatorFails .thrown
        some ({ s with commit }.rotateEnds restarts)
      else
        match scope with
        | none => some ({ s with commit }.rotateEnds restarts)
        | some (.error code) =>
          some ({ s with commit := commit.coordinatorFails (.error code) }.rotateEnds restarts)
        | some (.ok scope) => some ({ s with commit := { commit with scope } }.rotateEnds restarts)
    else none
  | .close =>
    if s.commit.closed ∨ s.commit.closing then none
    else some { s with commit := { s.commit with closing := true }.requestStop, closer := .gate }
  | .closeEntered =>
    if s.closer = .gate ∧ s.gateEmpty then
      some { s with commit := s.commit.force, closer := .service }
    else none
  | .closeServed =>
    if s.closer = .service ∧ s.serviceEnded then
      some { s with service := .off, closer := .drain .settle }
    else none
  | .closeDone =>
    if s.closer = .observers then
      some { s with
        commit := { s.commit with active := none, formingTail := none, closed := true, closing := false }
        closer := .done }
    else none

end State

/-- A group commit over a writer's file, with a configuration that is valid. -/
def system : System State Event where
  init s := ∃ config scope, config.validate = .ok ()
    ∧ s = { commit := { config, scope, slots := config.outstandingGroups } }
  step := State.step

end KwaqueStorage.GroupCommit
