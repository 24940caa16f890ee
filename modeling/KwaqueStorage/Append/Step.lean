import KwaqueStorage.Append.Form
import KwaqueStorage.Lib.Runs

/-!
# The owner as a transition system

One action is one stretch of the source between two suspensions, together with what the
environment answered at the one before it. The coroutines interleave at their suspensions
only, so a run of these actions is an interleaving of the source, and every interleaving is a
run: where the source orders two stretches that touch different things (the branches of one
group, the settling of its WAL result) the actions are free, which only adds runs.

An action that the source cannot take in a state is `none`. After an invariant failed there is
no process, so no action is taken.
-/

namespace KwaqueStorage.Append

open Lib

/-- `local_pinned_obligation`. -/
structure PinnedObligation where
  wal : Nat
  segment : Nat
  pinned : Nat
  first : Cursor
  deriving DecidableEq

inductive Act
  /-- `attach`, at a free slot. -/
  | attach (place segment depth : Nat)
  /-- `quiesce`, and `close` for each attachment. -/
  | quiesce (σ : Nat)
  /-- `request_sync`: by `sync`, a rotation, the retained limit or a failed WAL. -/
  | sync (σ : Nat)
  | detach (σ : Nat)
  | restorePinned (restored : List PinnedObligation)
  | dischargeDecision (segment : Nat) (prepare : Cursor) (remaining : Nat) (first : Option Cursor)
  | dischargePublication (segment : Nat)
  /-- `append` up to its place in the acceptance order. -/
  | append (r : Request)
  /-- The oldest waiting request takes the acceptance order. -/
  | grant
  | prepared (budget : Bool) (answer : JoinAnswer)
  /-- The request waiting for its segment looks at it again. -/
  | wake (answer : JoinAnswer)
  /-- The request is rejected: its interest ended, or something it needs failed. -/
  | abandon
  | failForming (failure : Errc)
  | failSegment (σ : Nat) (failure : Errc)
  | rotate (reserved : Cursor)
  | makeGroup (chosen : List (Nat × Placement))
  | unwindGroup (failure : Errc)
  | freeze (answer : Except Errc FreezeAnswer)
  /-- Something failed before the WAL was offered the group. -/
  | refuse (failure : Errc)
  | offer
  | walAnswer (answer : WalAnswer)
  | submitBranch (b : Nat) (failure : Option Errc)
  | dropBranch (b : Nat)
  | settleWal (g : Nat) (result : Except Errc Cursor)
  | barrierTurn (σ : Nat) (unit : Bool) (answer : CloseAnswer)
  | barrierDone (σ : Nat) (failure : Option Errc)
  | releaseHold (σ : Nat) (answer : CloseAnswer)
  | loopReturn (σ : Nat)
  | writerFails (segment : Nat)
  | release (g : Nat)

/-- A footer has bytes. -/
def CloseAnswer.valid : CloseAnswer → Bool
  | .closed footer => decide (0 < footer)
  | _ => true

namespace State

open Function (update)

/-- A segment that an attachment has. -/
def hasAttached (s : State) (segment : Nat) : Bool :=
  (List.range s.attachments).any fun σ => s.slots.attached σ && s.slots.segment σ = segment

/-! ## Attachments -/

/-- `attach`: its segment is in no other slot, and its slot is free once the loop of the
    attachment there has returned. -/
def attach (s : State) (place segment depth : Nat) : Option State :=
  let σ := s.attachments
  if s.hasAttached segment = false ∧ (s.writers segment).failed = false ∧ 0 < depth
      ∧ depth ≤ maximumRetryDepth
      ∧ (List.range σ).all (fun τ =>
          s.slots.place τ ≠ place || (!s.slots.attached τ && !s.slots.looping τ)) then
    some { s with
      slots.attached := update s.slots.attached σ true
      slots.place := update s.slots.place σ place
      slots.segment := update s.slots.segment σ segment
      slots.retry := update s.slots.retry σ { depth }
      slots.looping := update s.slots.looping σ true
      attachments := σ + 1 }
  else none

/-- `detach`: only an idle attachment. -/
def detach (s : State) (σ : Nat) : Option State :=
  if s.slots.attached σ ∧ s.idle σ then
    some { s with
      slots.attached := update s.slots.attached σ false
      slots.retry := update s.slots.retry σ (s.slots.retry σ).drop
      slots.stop := update s.slots.stop σ true }
  else none

/-! ## Pinned obligations -/

/-- Each restored obligation's place in WAL order among them. -/
def placeOf (restored : List PinnedObligation) (i : Nat) (value : PinnedObligation) : Nat :=
  (restored.zipIdx.filter fun other =>
    other.1.first < value.first || (other.1.first = value.first && decide (other.2 < i))).length + 1

/-- What `restore_pinned` holds of the rows it is given. The last is the caller's: what a
    restart rebuilt lies in the WAL it recovered. -/
def canRestore (s : State) (restored : List PinnedObligation) : Bool :=
  s.requests = 0 && s.liveGroups = 0 && decide (s.formation = .idle) && s.forming.isEmpty
    && s.sequences = 0
    && restored.all (fun value => value.pinned ≠ 0 && value.first.incarnation = value.wal)
    && decide ((restored.map fun value => (value.wal, value.segment)).Nodup)
    && decide (restored.length
        ≤ ((List.range s.table.size).filter fun i => (s.table.row i).segment.isNone).length)
    && restored.all fun value => decide (value.first ≤ s.recovered)

/-- `restore_pinned`'s last loop. -/
def restoreRows (t : RowTable) : List (PinnedObligation × Nat) → RowTable
  | [] => t
  | (value, place) :: rest =>
    match t.takeFree with
    | (some i, t) =>
      restoreRows (t.modify i (Row.repin value.segment value.pinned place value.first)) rest
    | (none, t) => t

def restorePinned (s : State) (restored : List PinnedObligation) : Option State :=
  if s.canRestore restored then
    some { s with
      table := restoreRows s.table (restored.zipIdx.map fun value =>
        (value.1, placeOf restored value.2 value.1))
      sequences := restored.length }
  else none

/-- What `discharge_pinned` holds of a decision. The last is the caller's: what remains
    unresolved is among what a restart recovered. -/
def canDischarge (s : State) (segment : Nat) (prepare : Cursor) (remaining : Nat)
    (first : Option Cursor) : Bool :=
  let held := s.table.pinnedOf segment
  (decide (remaining = 0) == first.isNone) && held.count ≠ 0
    && held.oldest.any (fun oldest =>
      decide (oldest ≤ prepare) && remaining + 1 = held.count && held.live = 0
        && first.all (fun first => decide (oldest ≤ first) && first ≠ prepare)
        && (prepare = oldest || first = some oldest))
    && first.all fun first => decide (first ≤ s.recovered)

/-- `discharge_pinned`, for a durable discard decision. -/
def dischargeDecision (s : State) (segment : Nat) (prepare : Cursor) (remaining : Nat)
    (first : Option Cursor) : Option State :=
  if s.canDischarge segment prepare remaining first then
    (s.table.replacePinned segment remaining first).map fun table => { s with table }
  else none

/-- `discharge_pinned`, for a durable sealed or deleting publication. -/
def dischargePublication (s : State) (segment : Nat) : Option State :=
  if s.hasAttached segment = false
      ∧ (List.range s.table.size).all (fun i =>
          (s.table.row i).segment ≠ some segment
            || ((s.table.row i).reserved = 0 && (s.table.row i).pending = 0))
      ∧ (s.table.pinnedOf segment).count ≠ 0 then
    (s.table.replacePinned segment 0 none).map fun table =>
      { s with table, resolutions := (segment, s.branchCount) :: s.resolutions }
  else none

/-! ## Requests -/

/-- `accept` up to its wait for the acceptance order. -/
def append (s : State) (r : Request) : Option State :=
  if r.slot < s.attachments ∧ s.slots.attached r.slot ∧ s.slots.quiet r.slot = false
      ∧ s.requests < s.maximumRequests ∧ s.forming.length < maximumWalGroupMembers then
    some { s with requests := s.requests + 1, waiting := s.waiting ++ [r] }
  else none

def grant (s : State) : Option State :=
  match s.accepting, s.waiting with
  | none, r :: rest =>
    let s := { s with waiting := rest }
    some (if s.slots.attached r.slot = false ∨ s.slots.quiet r.slot then s.reject
      else { s with accepting := some ⟨r, .preparing⟩ })
  | _, _ => none

def prepared (s : State) (budget : Bool) (answer : JoinAnswer) : Option State :=
  match s.accepting with
  | some ⟨r, .preparing⟩ => some (s.admitRequest r budget answer)
  | _ => none

def wake (s : State) (answer : JoinAnswer) : Option State :=
  match s.accepting with
  | some ⟨r, .waitFrozen⟩ => some (s.tryJoin r answer)
  | some ⟨r, .waitFull⟩ => if s.slots.forming r.slot = 0 then some (s.tryJoin r answer) else none
  | _ => none

def abandon (s : State) : Option State :=
  match s.accepting with
  | some ⟨_, .preparing⟩ => some s.reject
  | some ⟨r, _⟩ => some (s.rejectOpened r.slot)
  | none => none

/-! ## Groups -/

/-- What `form_once` chooses: whole forming sets, of different attachments. -/
def canChoose (s : State) (chosen : List (Nat × Placement)) : Bool :=
  !chosen.isEmpty && decide ((chosen.map (·.1)).Nodup)
    && chosen.all fun c => decide (c.1 < s.attachments) && !(s.formingOf c.1).isEmpty

/-- `freeze` of the next branch; its segment's freeze is over either way. -/
def freezeNext (s : State) (answer : Except Errc FreezeAnswer) : Option State :=
  match s.formation with
  | .freezing g (b :: rest) =>
    let valid : Bool := match answer with
      | .ok answer =>
        (s.writer (s.branches.slot b)).canFreeze (s.branches.placement b) answer
      | .error _ => true
    if valid then
      some { (s.freeze b answer).thaw b with
        formation := if rest.isEmpty then .offering g else .freezing g rest }
    else none
  | _ => none

def offerNext (s : State) : Option State :=
  match s.formation with
  | .offering g => some (if s.offered g then s.offer g else s.decideGroup g (.refused none))
  | _ => none

def answerNext (s : State) (answer : WalAnswer) : Option State :=
  match s.formation with
  | .deciding g =>
    let valid : Bool := match answer with
      | .accepted reserved => decide (s.reserved < reserved)
      | .unknown _ reserved => decide (s.reserved ≤ reserved)
      | .refused failure => failure.isSome
    if valid then some (s.decideGroup g answer) else none
  | _ => none

/-- A frozen branch that is neither submitted nor dropped yet. -/
def unready (s : State) (b : Nat) : Bool :=
  decide (b < s.branchCount) && s.branches.queued b && !s.branches.ready b

/-- A segment-placed branch is submitted once its group's freezes are over, a WAL-placed one
    once the WAL accepted it. -/
def canSubmit (s : State) (b : Nat) : Bool :=
  match s.branches.placement b, s.formation with
  | .wal, _ => s.groups.walAccepted (s.branches.group b)
  | .segment, .freezing g _ => decide (g ≠ s.branches.group b)
  | .segment, _ => true

def canDrop (s : State) (b : Nat) : Bool :=
  decide (s.branches.placement b = .wal) && s.groups.walDecided (s.branches.group b)
    && !s.groups.walAccepted (s.branches.group b)

/-- What one action does. -/
def act (s : State) : Act → Option State
  | .attach place segment depth => s.attach place segment depth
  | .quiesce σ =>
    if s.slots.attached σ then some { s with slots.quiet := update s.slots.quiet σ true }
    else none
  | .sync σ => if s.slots.attached σ then some (s.requestSync σ) else none
  | .detach σ => s.detach σ
  | .restorePinned restored => s.restorePinned restored
  | .dischargeDecision segment prepare remaining first =>
    s.dischargeDecision segment prepare remaining first
  | .dischargePublication segment => s.dischargePublication segment
  | .append r => s.append r
  | .grant => s.grant
  | .prepared budget answer => s.prepared budget answer
  | .wake answer => s.wake answer
  | .abandon => s.abandon
  | .failForming failure => some (s.failForming failure)
  | .failSegment σ failure => some (s.failSegment σ failure)
  | .rotate reserved =>
    if s.formation = .idle ∧ s.reserved.incarnation < reserved.incarnation then
      some { s with reserved }
    else none
  | .makeGroup chosen =>
    if s.formation = .idle ∧ s.canChoose chosen then some (s.makeGroup chosen) else none
  | .unwindGroup failure =>
    match s.formation with
    | .freezing g left =>
      if left = s.groups.branches g then some (s.unwindGroup g failure) else none
    | _ => none
  | .freeze answer => s.freezeNext answer
  | .refuse failure =>
    match s.formation with
    | .freezing g _ | .offering g => some (s.decideGroup g (.refused (some failure)))
    | _ => none
  | .offer => s.offerNext
  | .walAnswer answer => s.answerNext answer
  | .submitBranch b failure =>
    if s.unready b ∧ s.canSubmit b
        ∧ (failure.isSome ∨ (s.writer (s.branches.slot b)).failed = false) then
      some (s.submitBranch b failure)
    else none
  | .dropBranch b => if s.unready b ∧ s.canDrop b then some (s.markReady b) else none
  | .settleWal g result =>
    if g < s.groupCount ∧ s.groups.walAccepted g ∧ s.groups.walSettled g = false then
      some (s.settleWal g result)
    else none
  | .barrierTurn σ unit answer =>
    if s.slots.looping σ ∧ s.slots.barrier σ = none ∧ answer.valid then
      some (s.barrierTurn σ unit answer)
    else none
  | .barrierDone σ failure =>
    match s.slots.barrier σ with
    | some cut =>
      if failure.isSome ∨ cut.footer.isSome then some (s.barrierDone σ cut failure) else none
    | none => none
  | .releaseHold σ answer =>
    if s.slots.attached σ ∧ s.slots.freezing σ = false ∧ (s.writer σ).held ≠ 0 ∧ answer.valid
        ∧ ((s.writer σ).failed = false ∨ answer = .refused) then
      some (s.releaseHold σ answer)
    else none
  | .loopReturn σ =>
    if s.slots.looping σ ∧ s.slots.stop σ ∧ (s.slots.order σ).length ≤ s.slots.head σ
        ∧ s.owed σ = false ∧ s.slots.barrier σ = none then
      some { s with slots.looping := update s.slots.looping σ false }
    else none
  | .writerFails segment =>
    some { s with writers := update s.writers segment { s.writers segment with failed := true } }
  | .release g =>
    if g < s.groupCount ∧ s.groups.walDecided g ∧ s.groups.remaining g = 0
        ∧ s.groups.released g = false ∧ (s.groups.walAccepted g → s.groups.walSettled g) then
      some { s with
        groups.released := update s.groups.released g true
        liveGroups := s.liveGroups - 1 }
    else none

end State

/-- A new owner over a WAL that ends at `reserved` and writers that hold no run open. -/
def initial (maximumRequests rows : Nat) (writers : Nat → Writer) (reserved : Cursor) : State :=
  { maximumRequests
    writers := fun segment => { writers segment with run := none }
    table := .made rows
    reserved
    recovered := reserved }

/-- **The append owner**: every interleaving of its coroutines with every answer of its
    environment. -/
def owner : System State Act where
  init s := ∃ maximumRequests rows writers reserved,
    s = initial maximumRequests rows writers reserved
  step s a := if s.fired = [] then s.act a else none

/-- A small owner, to run by hand: four rows, segments that end at 4096, an empty WAL. -/
def small : State := initial 10 4 (fun _ => { reserved := 4096 }) ⟨0, 0⟩

/-- The action led from one state to the other. -/
inductive Took (s : State) : Act → State → Prop
  | attach {place segment depth : Nat}
      (hfree : s.hasAttached segment = false) (hwriter : (s.writers segment).failed = false)
      (hdepth : 0 < depth ∧ depth ≤ maximumRetryDepth)
      (hplace : ∀ τ < s.attachments, s.slots.place τ = place →
        s.slots.attached τ = false ∧ s.slots.looping τ = false) :
      Took s (.attach place segment depth) { s with
        slots.attached := Function.update s.slots.attached s.attachments true
        slots.place := Function.update s.slots.place s.attachments place
        slots.segment := Function.update s.slots.segment s.attachments segment
        slots.retry := Function.update s.slots.retry s.attachments { depth }
        slots.looping := Function.update s.slots.looping s.attachments true
        attachments := s.attachments + 1 }
  | quiesce {σ : Nat} (hatt : s.slots.attached σ = true) :
      Took s (.quiesce σ) { s with slots.quiet := Function.update s.slots.quiet σ true }
  | sync {σ : Nat} (hatt : s.slots.attached σ = true) : Took s (.sync σ) (s.requestSync σ)
  | detach {σ : Nat} (hatt : s.slots.attached σ = true) (hidle : s.idle σ = true) :
      Took s (.detach σ) { s with
        slots.attached := Function.update s.slots.attached σ false
        slots.retry := Function.update s.slots.retry σ (s.slots.retry σ).drop
        slots.stop := Function.update s.slots.stop σ true }
  | restorePinned {restored : List PinnedObligation} (hcan : s.canRestore restored = true) :
      Took s (.restorePinned restored) { s with
        table := State.restoreRows s.table (restored.zipIdx.map fun value =>
          (value.1, State.placeOf restored value.2 value.1))
        sequences := restored.length }
  | dischargeDecision {segment remaining : Nat} {prepare : Cursor} {first : Option Cursor}
      {table : RowTable} (hcan : s.canDischarge segment prepare remaining first = true)
      (htable : s.table.replacePinned segment remaining first = some table) :
      Took s (.dischargeDecision segment prepare remaining first) { s with table }
  | dischargePublication {segment : Nat} {table : RowTable}
      (hfree : s.hasAttached segment = false)
      (hrows : ∀ i < s.table.size, (s.table.row i).segment = some segment →
        (s.table.row i).reserved = 0 ∧ (s.table.row i).pending = 0)
      (htable : s.table.replacePinned segment 0 none = some table) :
      Took s (.dischargePublication segment)
        { s with table, resolutions := (segment, s.branchCount) :: s.resolutions }
  | append {r : Request} (hatt : s.slots.attached r.slot = true) :
      Took s (.append r) { s with requests := s.requests + 1, waiting := s.waiting ++ [r] }
  | grantRejected {r : Request} {rest : List Request} (hnone : s.accepting = none)
      (hwait : s.waiting = r :: rest) : Took s .grant { s with waiting := rest }.reject
  | grant {r : Request} {rest : List Request} (hnone : s.accepting = none)
      (hwait : s.waiting = r :: rest) (hatt : s.slots.attached r.slot = true) :
      Took s .grant { s with waiting := rest, accepting := some ⟨r, .preparing⟩ }
  | prepared {r : Request} {budget : Bool} {answer : JoinAnswer}
      (hacc : s.accepting = some ⟨r, .preparing⟩) :
      Took s (.prepared budget answer) (s.admitRequest r budget answer)
  | wake {r : Request} {phase : Phase} {answer : JoinAnswer}
      (hacc : s.accepting = some ⟨r, phase⟩) (hphase : phase ≠ .preparing)
      (hfull : phase = .waitFull → s.slots.forming r.slot = 0) :
      Took s (.wake answer) (s.tryJoin r answer)
  | abandon {r : Request} (hacc : s.accepting = some ⟨r, .preparing⟩) :
      Took s .abandon s.reject
  | abandonOpened {r : Request} {phase : Phase} (hacc : s.accepting = some ⟨r, phase⟩)
      (hphase : phase ≠ .preparing) : Took s .abandon (s.rejectOpened r.slot)
  | failForming {failure : Errc} : Took s (.failForming failure) (s.failForming failure)
  | failSegment {σ : Nat} {failure : Errc} :
      Took s (.failSegment σ failure) (s.failSegment σ failure)
  | rotate {reserved : Cursor} (hidle : s.formation = .idle)
      (hlt : s.reserved.incarnation < reserved.incarnation) :
      Took s (.rotate reserved) { s with reserved }
  | makeGroup {chosen : List (Nat × Placement)} (hidle : s.formation = .idle)
      (hne : chosen ≠ []) (hnodup : (chosen.map (·.1)).Nodup)
      (hchosen : ∀ c ∈ chosen, c.1 < s.attachments ∧ s.formingOf c.1 ≠ []) :
      Took s (.makeGroup chosen) (s.makeGroup chosen)
  | unwindGroup {g : Nat} {failure : Errc}
      (hf : s.formation = .freezing g (s.groups.branches g)) :
      Took s (.unwindGroup failure) (s.unwindGroup g failure)
  | freezeFailed {g b : Nat} {rest : List Nat} {failure : Errc}
      (hf : s.formation = .freezing g (b :: rest)) :
      Took s (.freeze (.error failure)) { (s.failBranch b (some failure)).thaw b with
        formation := if rest.isEmpty then .offering g else .freezing g rest }
  | freeze {g b : Nat} {rest : List Nat} {answer : FreezeAnswer}
      (hf : s.formation = .freezing g (b :: rest))
      (hcan : (s.writer (s.branches.slot b)).canFreeze (s.branches.placement b) answer = true) :
      Took s (.freeze (.ok answer)) { (s.freeze b (.ok answer)).thaw b with
        formation := if rest.isEmpty then .offering g else .freezing g rest }
  | refuse {g : Nat} {failure : Errc}
      (hf : (∃ left, s.formation = .freezing g left) ∨ s.formation = .offering g) :
      Took s (.refuse failure) (s.decideGroup g (.refused (some failure)))
  | unoffered {g : Nat} (hf : s.formation = .offering g) (hno : s.offered g = false) :
      Took s .offer (s.decideGroup g (.refused none))
  | offer {g : Nat} (hf : s.formation = .offering g) (hoff : s.offered g = true) :
      Took s .offer (s.offer g)
  | accepted {g : Nat} {reserved : Cursor} (hf : s.formation = .deciding g)
      (hlt : s.reserved < reserved) :
      Took s (.walAnswer (.accepted reserved)) (s.decideGroup g (.accepted reserved))
  | refused {g : Nat} {failure : Option Errc} (hf : s.formation = .deciding g) :
      Took s (.walAnswer (.refused failure)) (s.decideGroup g (.refused failure))
  | unknown {g : Nat} {failure : Errc} {reserved : Cursor} (hf : s.formation = .deciding g)
      (hle : s.reserved ≤ reserved) :
      Took s (.walAnswer (.unknown failure reserved)) (s.decideGroup g (.unknown failure reserved))
  | submitBranch {b : Nat} {failure : Option Errc} (hlt : b < s.branchCount)
      (hq : s.branches.queued b = true) (hr : s.branches.ready b = false)
      (hcan : s.canSubmit b = true) :
      Took s (.submitBranch b failure) (s.submitBranch b failure)
  | dropBranch {b : Nat} (hlt : b < s.branchCount) (hq : s.branches.queued b = true)
      (hr : s.branches.ready b = false) (hcan : s.canDrop b = true) :
      Took s (.dropBranch b) (s.markReady b)
  | settleWal {g : Nat} {result : Except Errc Cursor} (hlt : g < s.groupCount)
      (hacc : s.groups.walAccepted g = true) (hno : s.groups.walSettled g = false) :
      Took s (.settleWal g result) (s.settleWal g result)
  | barrierTurn {σ : Nat} {unit : Bool} {answer : CloseAnswer} (hloop : s.slots.looping σ = true)
      (hnone : s.slots.barrier σ = none) (hvalid : answer.valid = true) :
      Took s (.barrierTurn σ unit answer) (s.barrierTurn σ unit answer)
  | barrierDone {σ : Nat} {failure : Option Errc} {cut : Boundary}
      (hrun : s.slots.barrier σ = some cut)
      (hfooter : failure.isSome = true ∨ cut.footer.isSome = true) :
      Took s (.barrierDone σ failure) (s.barrierDone σ cut failure)
  | releaseHold {σ : Nat} {answer : CloseAnswer} (hatt : s.slots.attached σ = true)
      (hno : s.slots.freezing σ = false) (hvalid : answer.valid = true) :
      Took s (.releaseHold σ answer) (s.releaseHold σ answer)
  | loopReturn {σ : Nat} (hloop : s.slots.looping σ = true) :
      Took s (.loopReturn σ) { s with slots.looping := Function.update s.slots.looping σ false }
  | writerFails {segment : Nat} :
      Took s (.writerFails segment) { s with
        writers := Function.update s.writers segment { s.writers segment with failed := true } }
  | release {g : Nat} (hlt : g < s.groupCount) (hdec : s.groups.walDecided g = true)
      (hzero : s.groups.remaining g = 0) :
      Took s (.release g) { s with
        groups.released := Function.update s.groups.released g true
        liveGroups := s.liveGroups - 1 }

end KwaqueStorage.Append
