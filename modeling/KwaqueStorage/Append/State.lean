import KwaqueStorage.Append.Retry
import KwaqueStorage.Append.Rows
import KwaqueStorage.Append.Verdict

/-!
# The state of `local_append`

The owner's fields, under the source's words. Everything the source reaches by pointer (an
item, a branch, a group, a slot) lives here in a numbered table and is never removed from it,
so that what happened to a group can still be read once the code has let it go; the code's own
lists (`forming_`, a slot's file order) hold numbers. A table is one function for each field:
`s.branches.ready b` is `b->ready`. A write to one field then leaves every other field the same
function, which is what the frame half of every proof rests on.

Two representations differ from the source's, and both are exact:

* A slot of the source is reused after a detach, which leaves every field reset or idle. Here
  each attachment is a slot of its own, numbered as the source numbers attachments, with its
  `place` among the source's slots. One pointer of the source outlives a detach, the slot a
  request found before its children were prepared; `occupant` is what it then points at.
* `head`, `tail`, `cursor`, `frontier` and the `next` links of a slot are one list, `order`,
  of the branches frozen in the attachment in file order, with three places in it. A place
  past the end is the null pointer.

The segment writers and the WAL writer are seen only through what the owner reads of them;
what they answer comes with each action (`Append/Step.lean`).
-/

namespace KwaqueStorage.Append

/-- `maximum_wal_group_members`. -/
def maximumWalGroupMembers : Nat := 64

/-- `maximum_segment_group_blocks`. -/
def maximumSegmentGroupBlocks : Nat := 64

/-- `local_append_status`. -/
inductive Status
  | durable
  | notWritten
  | uncertain
  deriving DecidableEq

/-- `local_append_receipt`: the group's cut, and the barriers that had covered it. -/
structure Receipt where
  placement : Placement
  boundary : Boundary
  wal : Option Cursor
  segment : Option Boundary
  deriving DecidableEq

/-- `local_append_outcome`. -/
structure Outcome where
  status : Status
  failure : Option Errc := none
  receipt : Option Receipt := none
  deriving DecidableEq

/-- `local_append_request`: what the owner reads of it, with the attachment it names. -/
structure Request where
  slot : Nat
  id : BatchId
  routing : Nat := 0
  digest : Nat := 0
  span : Nat × Nat := (0, 0)
  deriving DecidableEq

/-- `local_append_item`: the accepted requests, numbered in acceptance order. -/
structure Items where
  slot : Nat → Nat := fun _ => 0
  id : Nat → BatchId := fun _ => ⟨⟨0, 0, 0⟩, 0⟩
  digest : Nat → Nat := fun _ => 0
  span : Nat → Nat × Nat := fun _ => (0, 0)
  /-- Whether its batch takes an entry of the segment's seal. -/
  entry : Nat → Bool := fun _ => false
  branch : Nat → Option Nat := fun _ => none
  outcome : Nat → Option Outcome := fun _ => none

/-- `branch`: one segment's part of a group. `boundary` is its cut once it is queued. -/
structure Branches where
  group : Nat → Nat := fun _ => 0
  slot : Nat → Nat := fun _ => 0
  placement : Nat → Placement := fun _ => .wal
  items : Nat → List Nat := fun _ => []
  boundary : Nat → Boundary := fun _ => ⟨0, none⟩
  failure : Nat → Option Errc := fun _ => none
  row : Nat → Option Nat := fun _ => none
  obliged : Nat → Bool := fun _ => false
  queued : Nat → Bool := fun _ => false
  ready : Nat → Bool := fun _ => false
  submitted : Nat → Bool := fun _ => false
  passed : Nat → Bool := fun _ => false
  published : Nat → Bool := fun _ => false

/-- `group_state`. -/
structure Groups where
  branches : Nat → List Nat := fun _ => []
  walFailure : Nat → Option Errc := fun _ => none
  walReceipt : Nat → Option Cursor := fun _ => none
  walDecided : Nat → Bool := fun _ => false
  walAccepted : Nat → Bool := fun _ => false
  walUnknown : Nat → Bool := fun _ => false
  walSettled : Nat → Bool := fun _ => false
  sequence : Nat → Nat := fun _ => 0
  walBegin : Nat → Option Cursor := fun _ => none
  remaining : Nat → Nat := fun _ => 0
  released : Nat → Bool := fun _ => false

/-- `segment_slot`, one for each attachment. -/
structure Slots where
  /-- The slot has a writer: the attachment is not detached. -/
  attached : Nat → Bool := fun _ => false
  /-- The slot of the source it is attached at. -/
  place : Nat → Nat := fun _ => 0
  segment : Nat → Nat := fun _ => 0
  retry : Nat → RetryBuilder := fun _ => { depth := 0 }
  forming : Nat → Nat := fun _ => 0
  groups : Nat → Nat := fun _ => 0
  freezing : Nat → Bool := fun _ => false
  order : Nat → List Nat := fun _ => []
  head : Nat → Nat := fun _ => 0
  cursor : Nat → Nat := fun _ => 0
  frontier : Nat → Nat := fun _ => 0
  submitted : Nat → Option Boundary := fun _ => none
  footed : Nat → Option Boundary := fun _ => none
  closing : Nat → Option Boundary := fun _ => none
  wanted : Nat → Option Nat := fun _ => none
  requested : Nat → Option Nat := fun _ => none
  attempted : Nat → Option Nat := fun _ => none
  /-- The cut of the barrier that runs. -/
  barrier : Nat → Option Boundary := fun _ => none
  held : Nat → Nat := fun _ => 0
  receipt : Nat → Option Boundary := fun _ => none
  failedThrough : Nat → Option Nat := fun _ => none
  barrierFailure : Nat → Option Errc := fun _ => none
  broken : Nat → Bool := fun _ => false
  brokenFailure : Nat → Option Errc := fun _ => none
  durable : Nat → Option Boundary := fun _ => none
  reported : Nat → Option Boundary := fun _ => none
  looping : Nat → Bool := fun _ => false
  stop : Nat → Bool := fun _ => false
  quiet : Nat → Bool := fun _ => false
  row : Nat → Option Nat := fun _ => none

/-- Where the request that holds the acceptance order waits. -/
inductive Phase
  /-- For its children to be prepared. -/
  | preparing
  /-- For its segment's freeze, its stream admitted. -/
  | waitFrozen
  /-- For a formation to take the set that leaves it no room. -/
  | waitFull
  deriving DecidableEq

structure Accepting where
  request : Request
  phase : Phase
  deriving DecidableEq

/-- Where the one formation that holds the lock stands. -/
inductive Formation
  | idle
  /-- The group freezes; these branches are left. -/
  | freezing (group : Nat) (left : List Nat)
  /-- Every branch froze or failed; the WAL has not been offered the group. -/
  | offering (group : Nat)
  /-- The WAL has the offer and has not answered. -/
  | deciding (group : Nat)
  deriving DecidableEq

/-- The `KWAQUE_INVARIANT`s of the modelled functions. -/
inductive Invariant
  | publishOnce
  | verdict (broken : VerdictInvariant)
  | retryOpening
  | retryFrozen
  | retryOrder
  /-- Not one of the source's: it read the retry builder of a slot that has none. -/
  | detachedRetry
  deriving DecidableEq

structure State where
  maximumRequests : Nat
  slots : Slots := {}
  attachments : Nat := 0
  writers : Nat → Writer
  table : RowTable
  submitting : Option Cursor := none
  sequences : Nat := 0
  items : Items := {}
  itemCount : Nat := 0
  forming : List Nat := []
  branches : Branches := {}
  branchCount : Nat := 0
  groups : Groups := {}
  groupCount : Nat := 0
  requests : Nat := 0
  /-- `groups_`: formed and not released. -/
  liveGroups : Nat := 0
  /-- Requests waiting for the acceptance order, oldest first, and the one that holds it. -/
  waiting : List Request := []
  accepting : Option Accepting := none
  formation : Formation := .idle
  /-- The WAL's reserved end. -/
  reserved : Cursor
  /-- Where the WAL ended when the owner was made: what a restart recovered lies below. -/
  recovered : Cursor
  /-- History: each segment a publication resolved, with the branches formed before. -/
  resolutions : List (Nat × Nat) := []
  /-- History: the requests whose outcome was installed, in that order. -/
  installed : List Nat := []
  /-- The invariants that failed. The first one ends the process. -/
  fired : List Invariant := []

namespace State

open Function (update)

/-- `KWAQUE_INVARIANT`. -/
def check (s : State) (id : Invariant) (held : Bool) : State :=
  { s with fired := if held then s.fired else s.fired ++ [id] }

def modifyRow (s : State) (i : Nat) (f : Row → Row) : State :=
  { s with table := s.table.modify i f }

/-- The writer of a slot's segment. -/
def writer (s : State) (σ : Nat) : Writer := s.writers (s.slots.segment σ)

def setWriter (s : State) (σ : Nat) (w : Writer) : State :=
  { s with writers := update s.writers (s.slots.segment σ) w }

/-- The newest attachment at the place of another. -/
def occupant (s : State) (σ : Nat) : Nat :=
  ((List.range s.attachments).reverse.find? fun τ => s.slots.place τ = s.slots.place σ).getD σ

/-- `obligations().discharged`. -/
def discharged (s : State) : Cursor := (s.table.oldest s.submitting).getD s.reserved

/-- The end of a branch's cut. -/
def endOf (s : State) (b : Nat) : Nat := (s.branches.boundary b).endBytes

/-! ## What a slot owes -/

/-- The later of two file positions, either of which may be absent. -/
def later : Option Nat → Option Nat → Option Nat
  | none, at_ => at_
  | some e, none => some e
  | some e, some at_ => some (if at_ > e then at_ else e)

/-- `wanted_end`. -/
def wantedEnd (s : State) (σ : Nat) : Option Nat :=
  later (later (s.slots.wanted σ) (s.slots.requested σ))
    (if s.slots.quiet σ then (s.slots.submitted σ).map (·.endBytes) else none)

/-- `owed`: a barrier is wanted through a point no barrier was asked to cover. -/
def owed (s : State) (σ : Nat) : Bool :=
  (s.wantedEnd σ).any fun e => (s.slots.attempted σ).all (· < e)

/-- `acknowledging`. -/
def acknowledging (s : State) (σ : Nat) : Bool :=
  (s.slots.wanted σ).any fun w => (s.slots.attempted σ).all (· < w)

/-- `idle`: nothing of the attachment is forming, in flight, unpublished, owed a barrier or
    held behind none. -/
def idle (s : State) (σ : Nat) : Bool :=
  s.slots.forming σ = 0 && s.slots.groups σ = 0 && !s.slots.freezing σ
    && decide ((s.slots.order σ).length ≤ s.slots.head σ) && (s.slots.barrier σ).isNone
    && !s.owed σ
    && (s.slots.submitted σ).all fun cut =>
      (s.slots.receipt σ).any (cut.endBytes ≤ ·.endBytes)
        || (s.slots.failedThrough σ).any (cut.endBytes ≤ ·)

end State
end KwaqueStorage.Append
