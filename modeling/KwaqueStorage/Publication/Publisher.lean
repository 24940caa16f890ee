import KwaqueStorage.Base.Types
import KwaqueStorage.Lib.Directories
import KwaqueStorage.Lib.Programs

/-!
# Publishing one file

`local_file_publisher` makes a record current under its target's name: a temporary is opened, written,
flushed and closed, a dependency is awaited, and the temporary takes the target's name, whose
directory is then synced. Each of these may fail, or throw, or be made although it fails. Whatever
happens leaves through one cleanup, and the outcome says what may be on the disk: whether the name was
touched, and whether a temporary may be left.

Reservations and charges are awaited like everything else; what they hold is of no account here.
-/

namespace KwaqueStorage.Publication

open Lib

/-- `local_publication_stage`. -/
inductive Stage
  | none
  | parentOpen
  | temporaryOpen
  | written
  | fileSynced
  | fileClosed
  | renamed
  | directorySynced
  deriving DecidableEq

/-- `local_publication_disposition`. -/
inductive Disposition
  | untouched
  | uncertain
  | durable
  deriving DecidableEq

/-- `runtime::file_rename_policy`. -/
inductive RenamePolicy
  | replace
  | noReplace
  deriving DecidableEq

/-- `runtime::operation_error`: its code, whether a resource refused it, and whether it says that
    nothing was dispatched. -/
structure Failure where
  code : Errc
  resource : Bool := false
  notDispatched : Bool := false
  deriving DecidableEq

/-- How an operation goes wrong. -/
inductive Fault
  | error (why : Failure)
  | thrown
  deriving DecidableEq

/-- `detail::path_error`. -/
def pathError (code : Errc) : Fault := .error { code }

/-- `detail::publication_admission_pressure`. -/
def Failure.admissionPressure (f : Failure) : Bool :=
  (f.code = .queueFull ∨ f.code = .resourceExhausted) ∧ (f.resource ∨ f.notDispatched)

/-- A name in the target's directory: the target's own, or a temporary of one of its generations. -/
inductive Leaf
  | target
  | temporary (generation attempt : Nat)
  deriving DecidableEq

/-- `local_publication_outcome`. -/
structure Outcome where
  stage : Stage := .none
  disposition : Disposition := .untouched
  failure : Option Fault := none
  admissionRejected : Bool := false
  temporary : Option Leaf := none
  temporaryMayExist : Bool := false
  deriving DecidableEq

/-- How a rename, a removal or the opening of a temporary went, and whether it was made. -/
structure Change where
  made : Bool
  result : Except Fault Unit

/-- How a write went, and what the file holds after it. -/
structure Wrote where
  bytes : Nat
  result : Except Fault Nat

/-- What a publication awaits. -/
inductive Command
  | reserve
  | inspectParent
  | inspectTarget
  | openParent
  | admitWork
  | poll
  | pollAdmission
  | openTemporary (leaf : Leaf)
  | limitWrites
  | limitConcurrency
  | chargeWrites
  | reserveBarrier
  | write
  | stream
  | size
  | flush
  | closeTemporary
  | ready
  | rename (leaf : Leaf) (policy : RenamePolicy)
  | syncParent
  | removeFile (leaf : Leaf)
  | closeParent
  deriving DecidableEq

def Answer : Command → Type
  | .openTemporary _ => Change
  | .rename _ _ => Change
  | .removeFile _ => Change
  | .write => Wrote
  | .stream => Wrote
  | .size => Except Fault Nat
  | _ => Except Fault Unit

abbrev Steps (α : Type) := Prog Command Answer α

/-- The payload: one buffer, or pages that a writer streams. -/
inductive Writer
  | buffer
  | stream
  deriving DecidableEq

/-- `local_publication_request`, with the payload's extent. -/
structure Request where
  owner : Nat
  generation : Nat
  expectedCurrent : Option Nat
  writer : Writer
  size : Nat
  deriving DecidableEq

/-- `local_file_publisher`. A generation is valid if it is not zero. -/
structure Publisher where
  owner : Nat
  policy : RenamePolicy
  current : Option Nat
  /-- `limits_` and the paths of the target pass their checks. -/
  sane : Bool := true
  maximumBytes : Nat := 65536
  prepared : Bool := false
  /-- A publication is under way, or an earlier outcome still holds the prepared grant. -/
  occupied : Bool := false
  closing : Bool := false
  closed : Bool := false
  fenced : Bool := false
  deriving DecidableEq

/-- What a publication knows on its way. -/
structure Publishing where
  output : Outcome := {}
  started : Bool := false
  ownedTemp : Bool := false
  renameAttempted : Bool := false
  /-- The temporary's and the parent's handles, where they are open. -/
  temporary : Bool := false
  parent : Bool := false
  current : Option Nat
  deriving DecidableEq

namespace Publishing

/-- `first_failure::observe`. -/
def observe (s : Publishing) (why : Fault) : Publishing :=
  { s with output := { s.output with failure := s.output.failure.or (some why) } }

def observeResult (s : Publishing) : Except Fault Unit → Publishing
  | .error why => s.observe why
  | .ok _ => s

def reach (s : Publishing) (stage : Stage) : Publishing :=
  { s with output := { s.output with stage } }

end Publishing

namespace Publisher

/-- `local_file_publisher::validate_request`. -/
def validateRequest (p : Publisher) (request : Request) : Except Failure Unit :=
  if p.closing ∨ p.closed ∨ p.fenced then .error { code := .closed }
  else if p.occupied then .error { code := .queueFull, notDispatched := true }
  else if request.owner ≠ p.owner ∨ request.expectedCurrent ≠ p.current then
    .error { code := .wrongContext }
  else if request.generation = 0 ∨ p.current = some 0
      ∨ (p.current.any fun current => decide (request.generation ≤ current))
      ∨ (p.current = none ∧ p.policy ≠ .noReplace) ∨ p.sane = false then
    .error { code := .invalidArgument }
  else .ok ()

/-- A step that goes on only if what it awaits succeeds. -/
def check (awaits : Steps (Except Fault Unit)) (s : Publishing) : Steps (Publishing × Bool) := do
  match ← awaits with
  | .error why => return (s.observe why, false)
  | .ok _ => return (s, true)

/-- One step after another, up to the first that breaks. -/
def andThen (first : Steps (Publishing × Bool)) (next : Publishing → Steps (Publishing × Bool)) :
    Steps (Publishing × Bool) := do
  let (s, goesOn) ← first
  if goesOn then next s else return (s, false)

def awaits (e : Command) : Steps (Answer e) := .call e .done

/-- The parent and the target, before anything is made. -/
def openParent (p : Publisher) (s : Publishing) : Steps (Publishing × Bool) :=
  andThen (check (awaits .inspectParent) s) fun s =>
  andThen (check (awaits .inspectTarget) s) fun s =>
  andThen (if p.prepared then return (s, true) else do
      let (s, opened) ← check (awaits .openParent) s
      return ({ s with parent := opened }, opened)) fun s =>
  return (s.reach .parentOpen, true)

/-- What an attempt waits for: the work it may do, and the admission while nothing has started. -/
def admitAttempt (s : Publishing) : Steps (Publishing × Bool) :=
  andThen (check (awaits .admitWork) s) fun s =>
  andThen (check (awaits .poll) s) fun s =>
  if s.started then return (s, true) else check (awaits .pollAdmission) s

/-- Before the open of a temporary: it may exist from here on. -/
def start (s : Publishing) (leaf : Leaf) : Publishing :=
  { s with
    started := true
    output := { s.output with temporary := some leaf, temporaryMayExist := true } }

/-- After an open that made nothing. -/
def unstart (s : Publishing) : Publishing :=
  { s with started := false, output := { s.output with temporaryMayExist := false } }

/-- What an attempt at a temporary comes to: none goes on to the next. -/
def opened (s : Publishing) : Except Fault Unit → Option Publishing
  | .ok _ => some ({ s with temporary := true, ownedTemp := true }.reach .temporaryOpen)
  | .error .thrown => some (s.observe .thrown)
  | .error (.error why) =>
    if why.code = .alreadyExists then none
    else if why.notDispatched then some ((unstart s).observe (.error why))
    else some (s.observe (.error why))

/-- The attempts at a temporary that is not there yet, from one on. -/
def attempts (generation : Nat) : Nat → Nat → Publishing → Steps Publishing
  | 0, _, s => return s
  | left + 1, attempt, s => do
    match ← admitAttempt s with
    | (s, false) => return s
    | (s, true) =>
      let leaf := Leaf.temporary generation attempt
      let change : Change ← awaits (.openTemporary leaf)
      match opened (start s leaf) change.result with
      | some s => return s
      | none => attempts generation left (attempt + 1) (unstart (start s leaf))

/-- A temporary of its own. -/
def openTemporary (request : Request) (s : Publishing) : Steps (Publishing × Bool) := do
  let s ← attempts request.generation 64 0 s
  if s.temporary then return (s, true)
  else if s.output.failure.isSome then return (s, false)
  else return (s.observe (pathError .resourceExhausted), false)

/-- What the writes need. -/
def prepareWrites (p : Publisher) (s : Publishing) : Steps (Publishing × Bool) :=
  andThen (if p.prepared then
      andThen (check (awaits .limitWrites) s) fun s => check (awaits .limitConcurrency) s
    else return (s, true)) fun s =>
  andThen (check (awaits .chargeWrites) s) fun s =>
  check (awaits .reserveBarrier) s

/-- The payload, whole. -/
def writePayload (request : Request) (s : Publishing) : Steps (Publishing × Bool) := do
  match request.writer with
  | .buffer =>
    let wrote : Wrote ← awaits .write
    match wrote.result with
    | .error why => return (s.observe why, false)
    | .ok written =>
      if written ≠ request.size then return (s.observe (pathError .ioFailure), false)
      return (s.reach .written, true)
  | .stream =>
    let wrote : Wrote ← awaits .stream
    match wrote.result with
    | .error why => return (s.observe why, false)
    | .ok _ =>
      match (← awaits .size : Except Fault Nat) with
      | .error why => return (s.observe why, false)
      | .ok actual =>
        if actual ≠ request.size then return (s.observe (pathError .ioFailure), false)
        return (s.reach .written, true)

/-- A close that throws leaves the handle to the cleanup. -/
def closeTemporary (s : Publishing) : Steps (Publishing × Bool) := do
  match (← awaits .closeTemporary : Except Fault Unit) with
  | .error .thrown => return (s.observe .thrown, false)
  | .error why => return ({ s with temporary := false }.observe why, false)
  | .ok _ => return ({ s with temporary := false }.reach .fileClosed, true)

/-- The rename says that nothing was renamed. -/
def undone (policy : RenamePolicy) : Fault → Bool
  | .thrown => false
  | .error why => why.notDispatched ∨ (policy = .noReplace ∧ why.code = .alreadyExists)

/-- The temporary takes the target's name. -/
def rename (p : Publisher) (leaf : Leaf) (s : Publishing) : Steps (Publishing × Bool) := do
  let s := { s with
    renameAttempted := true, output := { s.output with disposition := .uncertain } }
  let change : Change ← awaits (.rename leaf p.policy)
  match change.result with
  | .error why =>
    let s := if undone p.policy why then
        { s with output := { s.output with disposition := .untouched } }
      else s
    return (s.observe why, false)
  | .ok _ => return (s.reach .renamed, true)

/-- Its directory is synced, and the record is current. -/
def syncParent (request : Request) (s : Publishing) : Steps (Publishing × Bool) :=
  andThen (check (awaits .syncParent) s) fun s =>
  return ({ s with
    current := some request.generation
    output := { s.output with
      stage := .directorySynced, disposition := .durable, temporaryMayExist := false } }, true)

/-- The body of `publish_owned`, up to where it breaks. -/
def body (p : Publisher) (request : Request) : Steps (Publishing × Bool) :=
  andThen (openParent p { current := p.current }) fun s =>
  andThen (openTemporary request s) fun s =>
  andThen (prepareWrites p s) fun s =>
  andThen (writePayload request s) fun s =>
  andThen (check (awaits .flush) s) fun s =>
  andThen (closeTemporary (s.reach .fileSynced)) fun s =>
  andThen (check (awaits .ready) s) fun s =>
  andThen (rename p (s.output.temporary.getD .target) s) fun s =>
  syncParent request s

def closeHandle (s : Publishing) : Steps Publishing := do
  if s.temporary then return s.observeResult (← awaits .closeTemporary) else return s

/-- A temporary of its own that no rename was tried on. -/
def removeTemporary (s : Publishing) : Steps Publishing := do
  if s.ownedTemp ∧ ¬ s.renameAttempted then
    let change : Change ← awaits (.removeFile (s.output.temporary.getD .target))
    return s.observeResult change.result
  else return s

def closeParent (s : Publishing) : Steps Publishing := do
  if s.parent then return s.observeResult (← awaits .closeParent) else return s

/-- The way out, whatever happened. -/
def cleanup (s : Publishing) : Steps Publishing := do
  closeParent (← removeTemporary (← closeHandle s))

/-- A request that is turned away at the entrance. -/
def reject (p : Publisher) (why : Failure) : Outcome × Publisher :=
  ({ failure := some (.error why), admissionRejected := why.admissionPressure }, p)

/-- `local_file_publisher::publish_owned`. -/
def publishOwned (p : Publisher) (request : Request) : Steps (Outcome × Publisher) := do
  let (s, _) ← body p request
  let s ← cleanup s
  return (s.output, { p with
    current := s.current, fenced := p.fenced || (s.started && s.output.failure.isSome) })

/-- What the two entrances check of a payload: a stream is only for a new immutable file. -/
def refuses (p : Publisher) (request : Request) : Bool :=
  match request.writer with
  | .buffer => decide (request.size = 0) || decide (p.maximumBytes < request.size)
  | .stream =>
    decide (p.policy ≠ .noReplace) || p.current.isSome || decide (257 * 65536 < request.size)

/-- `local_file_publisher::publish` and `publish_stream`. -/
def publish (p : Publisher) (request : Request) : Steps (Outcome × Publisher) := do
  match p.validateRequest request with
  | .error why => return p.reject why
  | .ok _ =>
    if p.refuses request then return p.reject { code := .invalidArgument }
    match (← awaits .reserve : Except Fault Unit) with
    | .error (.error why) => return p.reject why
    | .error .thrown => return p.reject { code := .invariantViolation }
    | .ok _ => publishOwned p request

end Publisher

/-! ## One publication after another -/

/-- A publisher, and the generations it made durable. -/
structure Owner where
  publisher : Publisher
  durables : List Nat := []
  deriving DecidableEq

/-- What is called: a publication, a close, or the release of an outcome (or its retention). -/
inductive Call
  | publish (request : Request)
  | occupy (occupied : Bool)
  | close
  deriving DecidableEq

/-- What a call makes of the owner. -/
def perform (o : Owner) : Call → Steps Owner
  | .publish request => do
    let (outcome, publisher) ← o.publisher.publish request
    return {
      publisher
      durables := if outcome.disposition = .durable then o.durables ++ [request.generation]
        else o.durables }
  | .occupy occupied => return { o with publisher := { o.publisher with occupied } }
  | .close => return { o with publisher := { o.publisher with closing := true, closed := true } }

/-! ## The directory and the files -/

/-- What a publication did that a record's durability rests on. -/
inductive Event
  | flushed (file bytes : Nat)
  | granted
  | renamed (file : Nat)
  | synced
  deriving DecidableEq

/-- The target's directory; the files this publisher made, of which the next has the number `next`;
    the one it writes to; how much each file holds; and what it did. -/
structure World where
  dir : Directories Unit Leaf Nat
  next : Nat := 0
  created : List Nat := []
  handle : Option Nat := none
  bytes : Nat → Nat := fun _ => 0
  log : List Event := []

namespace World

/-- The names of the directory now. -/
def names (w : World) (leaf : Leaf) : Option Nat := w.dir.now () leaf

/-- The open says that it made nothing: the name is taken, or it was not dispatched. -/
def unopened : Except Fault Unit → Bool
  | .error (.error why) => why.notDispatched || decide (why.code = .alreadyExists)
  | _ => false

/-- The rename says so. -/
def unrenamed (policy : RenamePolicy) : Except Fault Unit → Bool
  | .error why => Publisher.undone policy why
  | .ok _ => false

/-- An open that makes a new file, also where it fails, unless it says that it does not. -/
def openedTemporary (w : World) (leaf : Leaf) (change : Change) : Option World :=
  if change.made then
    if unopened change.result ∨ (w.names leaf).isSome then none
    else some { w with
      dir := w.dir.put () (Function.update (w.dir.now ()) leaf (some w.next))
      next := w.next + 1
      created := w.next :: w.created
      handle := if change.result.isOk then some w.next else w.handle }
  else if change.result.isOk then none
  else some w

/-- A rename of a temporary onto the target, likewise. -/
def renamed (w : World) (leaf : Leaf) (policy : RenamePolicy) (change : Change) : Option World :=
  if change.made then
    match w.names leaf with
    | none => none
    | some file =>
      if unrenamed policy change.result ∨ (policy = .noReplace ∧ (w.names .target).isSome) then none
      else some { w with
        dir := w.dir.move ((), leaf) ((), .target) file, log := w.log ++ [.renamed file] }
  else if change.result.isOk then none
  else some w

def removed (w : World) (leaf : Leaf) (change : Change) : Option World :=
  if change.made then
    if (w.names leaf).isSome then some { w with dir := w.dir.remove ((), leaf) } else none
  else if change.result.isOk then none
  else some w

/-- A write to the file that is open; one that succeeds says how much the file holds. -/
def wrote (w : World) (wrote : Wrote) : Option World :=
  match w.handle with
  | none => none
  | some file =>
    match wrote.result with
    | .ok count =>
      if count = wrote.bytes then
        some { w with bytes := Function.update w.bytes file wrote.bytes }
      else none
    | .error _ => some { w with bytes := Function.update w.bytes file wrote.bytes }

/-- The pages of a stream say nothing of the file's size. -/
def streamed (w : World) (wrote : Wrote) : Option World :=
  w.handle.map fun file => { w with bytes := Function.update w.bytes file wrote.bytes }

def sized (w : World) : Except Fault Nat → Option World
  | .error _ => some w
  | .ok size => if w.handle.map w.bytes = some size then some w else none

def flushed (w : World) : Except Fault Unit → Option World
  | .error _ => some w
  | .ok _ => w.handle.map fun file => { w with log := w.log ++ [.flushed file (w.bytes file)] }

def granted (w : World) : Except Fault Unit → World
  | .error _ => w
  | .ok _ => { w with log := w.log ++ [.granted] }

def synced (w : World) : Except Fault Unit → World
  | .error _ => w
  | .ok _ => { w with dir := w.dir.sync (), log := w.log ++ [.synced] }

/-- What an answer to a command does; none where it cannot be given. -/
def step (w : World) : (e : Command) → Answer e → Option World
  | .openTemporary leaf, change => w.openedTemporary leaf change
  | .rename leaf policy, change => w.renamed leaf policy change
  | .removeFile leaf, change => w.removed leaf change
  | .write, result => w.wrote result
  | .stream, result => w.streamed result
  | .size, result => w.sized result
  | .flush, result => w.flushed result
  | .ready, result => some (w.granted result)
  | .syncParent, result => some (w.synced result)
  | _, _ => some w

end World

end KwaqueStorage.Publication
