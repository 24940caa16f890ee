import KwaqueStorage.Append.State

/-!
# Publication

From `wal_state` to `finish`: what a branch's two sides are when its result is decided, the
row of the verdict table that follows, and the two loops of `publish_ready` over a slot's
file order — the results, from the oldest unpublished branch while they are decided, and the
branches both published and passed, which are let go.

Both loops are recursions over the list of branches from the place they start at; the place
moves by one at each turn, as `part.next` does.
-/

namespace KwaqueStorage.Append
namespace State

open Function (update)

/-- `wal_state`. -/
def walState (s : State) (b : Nat) : WalState :=
  let g := s.branches.group b
  if s.branches.placement b = .segment ∨ s.branches.queued b = false then .none
  else if s.groups.walDecided g = false then .deciding
  else if s.groups.walAccepted g = false then
    if s.groups.walUnknown g then .unknown else .refused
  else if s.groups.walSettled g = false then .pending
  else if (s.groups.walReceipt g).isSome ∧ s.groups.walFailure g = none then .durable
  else .failed

/-- `segment_state`. -/
def segmentState (s : State) (b : Nat) : SegmentState :=
  let σ := s.branches.slot b
  if s.branches.queued b = false then .unfrozen
  else if s.branches.ready b = false then .frozen
  else if s.branches.submitted b = false then .dropped
  else if (s.slots.receipt σ).any (s.endOf b ≤ ·.endBytes) then .durable
  else if (s.slots.failedThrough σ).any (s.endOf b ≤ ·) then .failed
  else .submitted

/-- How the earlier groups of a slot were published. -/
def earlierState (s : State) (σ : Nat) : EarlierState :=
  if s.slots.broken σ then .failed else .durable

/-- `verdict_of`: the row a branch's state selects. -/
def verdictOf (s : State) (b : Nat) : Except VerdictInvariant VerdictCase :=
  classifyLocalAppend (s.branches.placement b) (s.walState b) (s.segmentState b)
    (s.earlierState (s.branches.slot b))

/-- `failure_of`: why a branch is not durable, the first reason kept. -/
def failureOf (s : State) (b : Nat) (verdict : Verdict) : Option Errc :=
  let σ := s.branches.slot b
  let walFailure := s.groups.walFailure (s.branches.group b)
  if verdict = .durable then none
  else
    let logged := s.branches.placement b = .wal
    let why := if logged ∧ verdict = .uncertain then walFailure else none
    let why := mergeFailure why (s.branches.failure b)
    let why := if logged then mergeFailure why walFailure else why
    let why :=
      if s.segmentState b = .failed then mergeFailure why (s.slots.barrierFailure σ) else why
    let why := if s.slots.broken σ then mergeFailure why (s.slots.brokenFailure σ) else why
    mergeFailure why (some (if verdict = .notWritten then .closed else .ioFailure))

/-- `outcome`. -/
def outcomeOf (s : State) (b : Nat) (verdict : Verdict) (why : Option Errc) : Outcome :=
  if verdict ≠ .durable then
    { status := if verdict = .uncertain then .uncertain else .notWritten, failure := why }
  else
    { status := .durable
      receipt := some
        { placement := s.branches.placement b
          boundary := s.branches.boundary b
          wal :=
            if s.walState b = .durable then s.groups.walReceipt (s.branches.group b) else none
          segment :=
            if s.segmentState b = .durable then s.slots.receipt (s.branches.slot b) else none } }

/-- `install`: one member's outcome, once. -/
def install (s : State) (i : Nat) (value : Outcome) : State :=
  { s.check .publishOnce (s.items.outcome i).isNone with
    items.outcome := update s.items.outcome i (some value)
    installed := s.installed ++ [i]
    requests := s.requests - 1 }

def installAll (s : State) (value : Outcome) : List Nat → State
  | [] => s
  | i :: rest => (s.install i value).installAll value rest

/-- The facts of a durable branch's batches, in file order. -/
def addFacts (s : State) (σ : Nat) : List Nat → State
  | [] => s
  | i :: rest =>
    let added := (s.slots.retry σ).add (s.items.id i) (s.items.digest i) (s.items.span i)
    { s.check .retryOrder added.1 with slots.retry := update s.slots.retry σ added.2 }
      |>.addFacts σ rest

/-- A frozen branch is published durable: its facts, and the reported prefix. -/
def report (s : State) (σ b : Nat) : State :=
  { s.addFacts σ (s.branches.items b) with
    slots.reported := update s.slots.reported σ (some (s.branches.boundary b)) }

/-- A frozen branch is published as a failure: no later one can be durable. -/
def breakSlot (s : State) (σ : Nat) (why : Option Errc) : State :=
  { s with
    slots.broken := update s.slots.broken σ true
    slots.brokenFailure :=
      if s.slots.broken σ then s.slots.brokenFailure else update s.slots.brokenFailure σ why }

/-- `publish_branch`. -/
def publishBranch (s : State) (b : Nat) (verdict : Verdict) : State :=
  let σ := s.branches.slot b
  let why := s.failureOf b verdict
  let value := s.outcomeOf b verdict why
  let s := { s with branches.published := update s.branches.published b true }
  let s := s.installAll value (s.branches.items b)
  let s :=
    if s.branches.queued b then
      if verdict = .durable then s.report σ b else s.breakSlot σ why
    else s
  { s with slots.groups := update s.slots.groups σ (s.slots.groups σ - 1) }

/-- `finish`: a branch of the group is published and, if frozen, passed. -/
def finish (s : State) (g : Nat) : State :=
  { s with groups.remaining := update s.groups.remaining g (s.groups.remaining g - 1) }

/-- `publish_ready`'s first loop, over the slot's file order from its cursor. -/
def publishFrom (s : State) (σ : Nat) : List Nat → State
  | [] => s
  | b :: rest =>
    match s.verdictOf b with
    | .error broken => s.check (.verdict broken) false
    | .ok row =>
      if row.verdict = .wait then s
      else
        ({ s with slots.cursor := update s.slots.cursor σ (s.slots.cursor σ + 1) }.publishBranch b
          row.verdict).publishFrom σ rest

/-- `publish_ready`'s second loop, over the slot's file order from its head. -/
def letGo (s : State) (σ : Nat) : List Nat → State
  | [] => s
  | b :: rest =>
    if s.branches.published b ∧ s.branches.passed b then
      ({ s with slots.head := update s.slots.head σ (s.slots.head σ + 1) }.finish
        (s.branches.group b)).letGo σ rest
    else s

/-- `publish_ready`. -/
def publishReady (s : State) (σ : Nat) : State :=
  let s := s.publishFrom σ ((s.slots.order σ).drop (s.slots.cursor σ))
  s.letGo σ ((s.slots.order σ).drop (s.slots.head σ))

/-- `publish_unfrozen`: a branch that never froze has no place in its segment's order. -/
def publishUnfrozen (s : State) (b : Nat) : State :=
  match s.verdictOf b with
  | .error broken => s.check (.verdict broken) false
  | .ok row => (s.publishBranch b row.verdict).finish (s.branches.group b)

end State
end KwaqueStorage.Append
