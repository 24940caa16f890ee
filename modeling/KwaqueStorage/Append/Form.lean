import KwaqueStorage.Append.Barrier

/-!
# Acceptance and formation

`accept` and `join`, `make_group`, `freeze` and `submit_group`. An acceptance is the request
that holds the FIFO order and where it waits; a formation is the one group that holds the lock
and how far it froze. What the budget, the segment writer and the WAL answer at each point is
a parameter.
-/

namespace KwaqueStorage.Append

/-- What `join` is answered by the preparation and the measure of the set with the new member:
    it fits, the members already forming fill their group, or the request is rejected. -/
inductive JoinAnswer
  | fits
  | full
  | rejected
  deriving DecidableEq

/-- What `freeze_group` answers: the bytes of the footer that closes the run held open first,
    of the group's blocks, and of its own footer. -/
structure FreezeAnswer where
  closer : Option Nat
  bytes : Nat
  footer : Option Nat
  deriving DecidableEq

/-- What the WAL answers a group's submission: accepted, its reserved end moved to; refused,
    with nothing accepted; or an exception that leaves acceptance unproven. -/
inductive WalAnswer
  | accepted (reserved : Cursor)
  | refused (failure : Option Errc)
  | unknown (failure : Errc) (reserved : Cursor)
  deriving DecidableEq

namespace Writer

/-- What `freeze_owned` can answer for a placement: a run is closed first only where one is
    open, and always by a group that wants durability now, which ends with its own footer. -/
def canFreeze (w : Writer) (placement : Placement) (answer : FreezeAnswer) : Bool :=
  !w.failed && decide (0 < answer.bytes) && answer.closer.all (0 < ·) && answer.footer.all (0 < ·)
    && (answer.closer.isNone || w.run.isSome)
    && (placement = .wal || (answer.footer.isSome && (w.run.isNone || answer.closer.isSome)))

/-- The cut a group froze at. -/
def freezeCut (w : Writer) (answer : FreezeAnswer) : Boundary :=
  let blocksEnd := w.reserved + answer.closer.getD 0 + answer.bytes
  ⟨blocksEnd + answer.footer.getD 0, if answer.footer.isSome then some blocksEnd else none⟩

/-- The writer after the group froze. -/
def freeze (w : Writer) (answer : FreezeAnswer) : Writer :=
  { w with
    reserved := (w.freezeCut answer).endBytes
    run :=
      if answer.footer.isSome then none
      else if w.run.isNone || answer.closer.isSome then some (w.reserved + answer.closer.getD 0)
      else w.run }

end Writer

namespace State

open Function (update)

/-! ## Acceptance -/

/-- The request is rejected: its count and order are let go. -/
def reject (s : State) : State := { s with accepting := none, requests := s.requests - 1 }

/-- Rejected past its admission: a stream it opened goes, unless a detach dropped it. -/
def rejectOpened (s : State) (σ : Nat) : State :=
  { s with
    slots.retry :=
      if s.slots.attached σ then update s.slots.retry σ (s.slots.retry σ).drop
      else s.slots.retry }.reject

/-- The forming members of a slot. -/
def formingOf (s : State) (σ : Nat) : List Nat := s.forming.filter fun i => s.items.slot i = σ

/-- The forming members of a slot that are of one stream. -/
def formingIn (s : State) (σ : Nat) (stream : RetryStream) : List Nat :=
  (s.formingOf σ).filter fun i => (s.items.id i).stream = stream

/-- The request joins its segment's forming group. -/
def pushItem (s : State) (r : Request) (entry : Bool) : State :=
  let i := s.itemCount
  { s with
    slots.retry := update s.slots.retry r.slot (s.slots.retry r.slot).keep
    slots.forming := update s.slots.forming r.slot (s.slots.forming r.slot + 1)
    items.slot := update s.items.slot i r.slot
    items.id := update s.items.id i r.id
    items.digest := update s.items.digest i r.digest
    items.span := update s.items.span i r.span
    items.entry := update s.items.entry i entry
    itemCount := i + 1
    forming := s.forming ++ [i]
    accepting := none }

/-- `join`, then what `accept` does with its answer. The forming members of the stream must
    all come before the request; the ones already frozen were read by `admit`. -/
def join (s : State) (r : Request) (answer : JoinAnswer) : State :=
  if (s.formingIn r.slot r.id.stream).any fun i => r.id.sequence ≤ (s.items.id i).sequence then
    s.rejectOpened r.slot
  else if (s.formingOf r.slot).length = maximumSegmentGroupBlocks then s.rejectOpened r.slot
  else
    match answer with
    | .fits =>
      s.pushItem r ((s.slots.retry r.slot).opensEntry r.id.stream
        (s.formingIn r.slot r.id.stream).length)
    | .full =>
      if (s.formingOf r.slot).isEmpty then s.rejectOpened r.slot
      else { s with accepting := some ⟨r, .waitFull⟩ }
    | .rejected => s.rejectOpened r.slot

/-- `accept`'s loop, from where it looks at its attachment again. -/
def tryJoin (s : State) (r : Request) (answer : JoinAnswer) : State :=
  if s.slots.attached r.slot = false ∨ s.slots.quiet r.slot then s.rejectOpened r.slot
  else if s.slots.freezing r.slot then { s with accepting := some ⟨r, .waitFrozen⟩ }
  else if s.forming.length ≥ maximumWalGroupMembers then s.rejectOpened r.slot
  else s.join r answer

/-- The request's children are prepared: its stream is admitted, then it joins or waits. The
    slot is the one found before the wait, whoever is attached there now. -/
def admitRequest (s : State) (r : Request) (budget : Bool) (answer : JoinAnswer) : State :=
  let τ := s.occupant r.slot
  if s.slots.attached τ = false then s.check .detachedRetry false
  else
    let retry := s.slots.retry τ
    let admitted := retry.admit_ r.id r.routing budget
    let s := s.check .retryOpening ((retry.rings r.id.stream).isSome || retry.opening.isNone)
    let s := { s with slots.retry := update s.slots.retry τ admitted.2 }
    match admitted.1 with
    | .ring => s.tryJoin r answer
    | .null | .refused _ => s.reject

/-! ## Formation -/

/-- The members of `failing` are `not_written`, and leave. -/
def dropForming (s : State) (failure : Errc) (failing : Nat → Bool) : State :=
  { s.installAll { status := .notWritten, failure := some failure } (s.forming.filter failing) with
    forming := s.forming.filter fun i => !failing i }

/-- `fail_forming`. -/
def failForming (s : State) (failure : Errc) : State :=
  { s with slots.forming := fun _ => 0 }.dropForming failure fun _ => true

/-- `fail_segment`. -/
def failSegment (s : State) (σ : Nat) (failure : Errc) : State :=
  { s with slots.forming := update s.slots.forming σ 0 }.dropForming failure fun i =>
    s.items.slot i = σ

/-- The rows of the chosen WAL-placed sets, in order; `false` when the table was full. -/
def reserveRows (s : State) : List (Nat × Placement) → List (Option Nat) × State × Bool
  | [] => ([], s, true)
  | (_, .segment) :: rest =>
    let r := s.reserveRows rest
    (none :: r.1, r.2)
  | (σ, .wal) :: rest =>
    let reserved := s.table.reserveRow (s.slots.row σ) s.reserved.incarnation
      (s.slots.segment σ) σ
    match reserved.1 with
    | none => ([], { s with table := reserved.2 }, false)
    | some i =>
      let r := { s with
        table := reserved.2
        slots.row := update s.slots.row σ (some i) }.reserveRows rest
      (some i :: r.1, r.2)

/-- Rows reserved for a group that does not form after all. -/
def unreserveRows (s : State) : List (Option Nat) → State
  | [] => s
  | none :: rest => s.unreserveRows rest
  | some i :: rest => (s.modifyRow i Row.unreserve).unreserveRows rest

/-- One chosen set becomes a branch of group `g`. -/
def transfer (s : State) (g σ : Nat) (placement : Placement) (row : Option Nat) : State :=
  let b := s.branchCount
  { s with
    slots.forming := update s.slots.forming σ 0
    slots.freezing := update s.slots.freezing σ true
    slots.groups := update s.slots.groups σ (s.slots.groups σ + 1)
    branches.group := update s.branches.group b g
    branches.slot := update s.branches.slot b σ
    branches.placement := update s.branches.placement b placement
    branches.items := update s.branches.items b (s.formingOf σ)
    branches.row := update s.branches.row b row
    branchCount := b + 1
    items.branch := fun i => if i ∈ s.formingOf σ then some b else s.items.branch i
    forming := s.forming.filter fun i => s.items.slot i ≠ σ }

def transferAll (s : State) (g : Nat) : List (Nat × Placement) → List (Option Nat) → State
  | (σ, placement) :: chosen, row :: rows =>
    (s.transfer g σ placement row).transferAll g chosen rows
  | _, _ => s

/-- `make_group`: the chosen forming sets and their rows become a group, whose segments count
    as freezing. A full table is only pressure. -/
def makeGroup (s : State) (chosen : List (Nat × Placement)) : State :=
  match s.reserveRows chosen with
  | (rows, s, false) => s.unreserveRows rows
  | (rows, s, true) =>
    let g := s.groupCount
    let branches := List.range' s.branchCount chosen.length
    let s := s.transferAll g chosen rows
    { s with
      groups.branches := update s.groups.branches g branches
      groups.remaining := update s.groups.remaining g chosen.length
      groupCount := g + 1
      liveGroups := s.liveGroups + 1
      formation := .freezing g branches }

/-- The branch's obligation row is let go. -/
def unreserve (s : State) (b : Nat) : State :=
  match s.branches.row b with
  | none => s
  | some r =>
    { s.modifyRow r Row.unreserve with branches.row := update s.branches.row b none }

/-- The branch's segment is not freezing any more. -/
def thaw (s : State) (b : Nat) : State :=
  { s with slots.freezing := update s.slots.freezing (s.branches.slot b) false }

/-- The branch keeps the first of its failures. -/
def failBranch (s : State) (b : Nat) (failure : Option Errc) : State :=
  { s with
    branches.failure :=
      update s.branches.failure b (mergeFailure (s.branches.failure b) failure) }

/-- `unwind_group` up to what it publishes: nothing froze. -/
def unwound (s : State) (g : Nat) (failure : Errc) : State :=
  let s := (s.groups.branches g).foldl
    (fun s b => ((s.thaw b).unreserve b).failBranch b (some failure)) s
  { s with
    groups.walDecided := update s.groups.walDecided g true
    formation := .idle }

/-- `unwind_group`. -/
def unwindGroup (s : State) (g : Nat) (failure : Errc) : State :=
  let s' := (s.groups.branches g).foldl publishUnfrozen (s.unwound g failure)
  { s' with
    groups.released := update s'.groups.released g true
    liveGroups := s'.liveGroups - 1 }

/-- The batches of a frozen branch are in the segment's order. -/
def frozeItems (s : State) (σ : Nat) : List Nat → State
  | [] => s
  | i :: rest =>
    let froze := (s.slots.retry σ).froze (s.items.id i) (s.items.entry i)
    { s.check .retryFrozen froze.1 with slots.retry := update s.slots.retry σ froze.2 }
      |>.frozeItems σ rest

/-- `freeze`: the branch takes its place in its segment's file order, or keeps its failure. -/
def freeze (s : State) (b : Nat) (answer : Except Errc FreezeAnswer) : State :=
  let σ := s.branches.slot b
  match answer with
  | .error failure => s.failBranch b (some failure)
  | .ok answer =>
    let cut := (s.writer σ).freezeCut answer
    let s := s.setWriter σ ((s.writer σ).freeze answer)
    let s := s.frozeItems σ (s.branches.items b)
    { s with
      slots.order := update s.slots.order σ (s.slots.order σ ++ [b])
      branches.boundary := update s.branches.boundary b cut
      branches.queued := update s.branches.queued b true }

/-- The group has WAL-placed members that froze. -/
def offered (s : State) (g : Nat) : Bool :=
  (s.groups.branches g).any fun b => s.branches.queued b && s.branches.placement b = .wal

/-- The offer goes to the WAL: its PREPAREs begin at the reserved end. -/
def offer (s : State) (g : Nat) : State :=
  { s with
    groups.walBegin := update s.groups.walBegin g (some s.reserved)
    submitting := some s.reserved
    formation := .deciding g }

/-- A branch of an accepted group: what froze is an obligation now. -/
def obligeBranch (s : State) (b : Nat) : State :=
  let g := s.branches.group b
  match s.branches.row b with
  | none => s
  | some r =>
    if s.branches.queued b then
      { s.modifyRow r fun row => row.openGroup (s.groups.sequence g) (s.groups.walBegin g) with
        branches.obliged := update s.branches.obliged b true }
    else s.unreserve b

/-- A branch of a group that may have been accepted: what froze is pinned. -/
def pinBranch (s : State) (b : Nat) : State :=
  let g := s.branches.group b
  match s.branches.row b with
  | none => s
  | some r =>
    if s.branches.queued b then
      { s.modifyRow r fun row =>
          { row with reserved := row.reserved - 1 }.pin 1 (s.groups.sequence g)
            (s.groups.walBegin g) with
        branches.row := update s.branches.row b none }
    else s.unreserve b

/-- The WAL's side of `submit_group`, once it answered. -/
def answerGroup (s : State) (g : Nat) (answer : WalAnswer) : State :=
  let parts := s.groups.branches g
  match answer with
  | .accepted reserved =>
    parts.foldl obligeBranch { s with
      sequences := s.sequences + 1
      reserved
      groups.walAccepted := update s.groups.walAccepted g true
      groups.sequence := update s.groups.sequence g (s.sequences + 1)
      groups.walDecided := update s.groups.walDecided g true }
  | .refused failure =>
    parts.foldl unreserve { s with
      groups.walFailure := update s.groups.walFailure g failure
      groups.walDecided := update s.groups.walDecided g true }
  | .unknown failure reserved =>
    parts.foldl pinBranch { s with
      sequences := s.sequences + 1
      reserved
      groups.walFailure := update s.groups.walFailure g (some failure)
      groups.walUnknown := update s.groups.walUnknown g true
      groups.sequence := update s.groups.sequence g (s.sequences + 1)
      groups.walDecided := update s.groups.walDecided g true }

/-- What a decision lets a group's unfrozen branches publish. -/
def publishUnqueued (s : State) (b : Nat) : State :=
  if s.branches.queued b then s else s.publishUnfrozen b

/-- What it lets the file order of a frozen branch publish. -/
def publishQueued (s : State) (b : Nat) : State :=
  if s.branches.queued b then s.publishReady (s.branches.slot b) else s

/-- The answer is installed, and the formation lock let go. -/
def installAnswer (s : State) (g : Nat) (answer : WalAnswer) : State :=
  { ((s.groups.branches g).foldl thaw s).answerGroup g answer with
    submitting := none
    formation := .idle }

/-- The end of `submit_group`: the answer is installed, and what it decides is published. -/
def decideGroup (s : State) (g : Nat) (answer : WalAnswer) : State :=
  let parts := s.groups.branches g
  parts.foldl publishQueued (parts.foldl publishUnqueued (s.installAnswer g answer))

/-- `submit_branch`, once encoded: submitted, or failed and dropped. -/
def submitBranch (s : State) (b : Nat) (failure : Option Errc) : State :=
  { s.failBranch b failure with
    branches.submitted := update s.branches.submitted b failure.isNone }.markReady b

/-- `settle_wal`: the group's barrier settled. -/
def settleWal (s : State) (g : Nat) (result : Except Errc Cursor) : State :=
  let s := { s with
    groups.walSettled := update s.groups.walSettled g true
    groups.walFailure := update s.groups.walFailure g
      (match result with | .ok _ => none | .error failure => some failure)
    groups.walReceipt := update s.groups.walReceipt g
      (match result with | .ok receipt => some receipt | .error _ => s.groups.walReceipt g) }
  (s.groups.branches g).foldl publishQueued s

end State
end KwaqueStorage.Append
