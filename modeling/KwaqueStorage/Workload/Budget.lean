import KwaqueStorage.Base.Types
import KwaqueStorage.Lib.Runs

/-!
# The workload budget

A `workload_budget` admits work by its bytes. What it grants is a state on the heap that holds units of four
semaphores: one of its tasks, its bytes, the same bytes of the memory its workload class shares, and the
handles acquired later. A `workload_reservation` points to such a grant. Reservations are shared, moved,
adopted and destroyed; the grant dies with its last pointer, and its units go back to their semaphores then.

The pointer's count is kept in the grant, as `lw_shared_ptr` does. Which reservations there are is kept
beside it, so that the count can be held against them. A reservation is a place in the program: one that was
moved from is there and points to nothing, and so is one that was destroyed.
-/

namespace KwaqueStorage.Workload

open Lib
open Function (update)

/-- `UINT64_MAX`. -/
def u64Max : Nat := 2 ^ 64 - 1

/-- `workload_budget_limits`. -/
structure Limits where
  tasks : Nat
  bytes : Nat
  handles : Nat
  deriving DecidableEq

/-- `workload_reservation_state`: the units it holds, what it was charged and what it was asked to retain. -/
structure Grant where
  useCount : Nat
  task : Nat
  localUnits : Nat
  workload : Nat
  handle : Nat
  charged : Nat
  retained : Nat
  deriving DecidableEq

/-- `workload_budget_state`, with its grants and the reservations that point to them. -/
structure Budget where
  limits : Limits
  /-- What the profile charges for the allocation of a grant itself. -/
  overhead : Nat
  /-- What is left in the semaphores. The last one belongs to the workload class. -/
  tasks : Nat
  localBytes : Nat
  handles : Nat
  workloadMemory : Nat
  accepted : Nat
  rejected : Nat
  closed : Bool
  grants : Nat → Option Grant
  made : Nat
  holds : Nat → Option Nat
  objects : Nat

namespace Budget

/-- A budget that granted nothing yet. -/
def make (limits : Limits) (overhead workloadMemory : Nat) : Budget where
  limits
  overhead
  tasks := limits.tasks
  localBytes := limits.bytes
  handles := limits.handles
  workloadMemory
  accepted := 0
  rejected := 0
  closed := false
  grants := fun _ => none
  made := 0
  holds := fun _ => none
  objects := 0

/-- `workload_budget_snapshot`: what is used of each. -/
def usedTasks (b : Budget) : Nat := b.limits.tasks - b.tasks

def usedBytes (b : Budget) : Nat := b.limits.bytes - b.localBytes

def usedHandles (b : Budget) : Nat := b.limits.handles - b.handles

/-- A reservation is pointed elsewhere. -/
def point (b : Budget) (r : Nat) (to_ : Option Nat) : Budget := { b with holds := update b.holds r to_ }

/-- A reservation that was not there before. -/
def construct (b : Budget) (to_ : Option Nat) : Budget :=
  { b.point b.objects to_ with objects := b.objects + 1 }

/-- A refusal is counted. -/
def reject (b : Budget) : Budget := { b with rejected := b.rejected + 1 }

/-- `reservation_charge`. -/
def reservationCharge (b : Budget) (retained : Nat) : Except Errc Nat :=
  if u64Max < retained + b.overhead ∨ b.limits.bytes < retained + b.overhead then .error .outOfRange
  else .ok (retained + b.overhead)

/-- The units of a new grant are taken. -/
def grant (b : Budget) (cost retained : Nat) : Budget :=
  { b with
    tasks := b.tasks - 1
    localBytes := b.localBytes - cost
    workloadMemory := b.workloadMemory - cost
    accepted := b.accepted + 1
    grants := update b.grants b.made (some ⟨1, 1, cost, cost, 0, cost, retained⟩)
    made := b.made + 1 }

/-- `workload_budget::try_reserve`. Units that were got before a refusal, or before the grant's own allocation
    failed, go back before it returns. -/
def tryReserve (b : Budget) (retained : Nat) (allocates : Bool) : Except Errc Unit × Budget :=
  if b.closed then (.error .closed, b.reject)
  else
    match b.reservationCharge retained with
    | .error code => (.error code, b.reject)
    | .ok cost =>
      if b.tasks < 1 then (.error .queueFull, b.reject)
      else if b.localBytes < cost then (.error .queueFull, b.reject)
      else if b.workloadMemory < cost then (.error .queueFull, b.reject)
      else if allocates = false then (.error .resourceExhausted, b)
      else (.ok (), (b.grant cost retained).construct (some b.made))

/-- The last pointer to a grant went: its units go back. -/
def free (b : Budget) (g : Nat) (held : Grant) : Budget :=
  { b with
    tasks := b.tasks + held.task
    localBytes := b.localBytes + held.localUnits
    workloadMemory := b.workloadMemory + held.workload
    handles := b.handles + held.handle
    grants := update b.grants g none }

/-- A pointer to a grant went. -/
def release (b : Budget) : Option Nat → Budget
  | none => b
  | some g =>
    match b.grants g with
    | none => b
    | some held =>
      if held.useCount = 1 then b.free g held
      else { b with grants := update b.grants g (some { held with useCount := held.useCount - 1 }) }

/-- `~workload_reservation`. -/
def destroy (b : Budget) (r : Nat) : Budget := (b.point r none).release (b.holds r)

/-- `workload_reservation::share`: one pointer more, of a reservation that points to a grant. -/
def share (b : Budget) (r : Nat) : Option Budget :=
  match b.holds r with
  | none => none
  | some g =>
    match b.grants g with
    | none => none
    | some held =>
      some ({ b with grants := update b.grants g (some { held with useCount := held.useCount + 1 }) }.construct
        (some g))

/-- `workload_reservation(workload_reservation&&)`. -/
def moveConstruct (b : Budget) (r : Nat) : Budget := (b.point r none).construct (b.holds r)

/-- `operator=(workload_reservation&&)`. Where both point to one grant, a pointer that is assigned to may leave
    both as they are or take the other's. -/
def moveAssign (b : Budget) (to_ r : Nat) (keeps : Bool) : Budget :=
  if to_ = r then b
  else if b.holds to_ = b.holds r ∧ keeps = true then b
  else ((b.point to_ (b.holds r)).point r none).release (b.holds to_)

/-- `workload_reservation::exclusive`. -/
def exclusive (held : Grant) : Prop := held.useCount = 1

instance (held : Grant) : Decidable (exclusive held) := by
  unfold exclusive
  exact inferInstance

/-- What `adopt` moves from one grant to another: the other's own charge goes back first. -/
def adopted (b : Budget) (g from_ : Nat) (held other : Grant) : Budget :=
  let overhead := other.charged - other.retained
  { b with
    localBytes := b.localBytes + overhead
    workloadMemory := b.workloadMemory + overhead
    grants := update
      (update b.grants g (some { held with
        localUnits := held.localUnits + (other.localUnits - overhead)
        workload := held.workload + (other.workload - overhead)
        charged := held.charged + other.retained
        retained := held.retained + other.retained }))
      from_ (some { other with localUnits := 0, workload := 0 }) }

/-- `workload_reservation::adopt`, of two reservations of one budget; one of another budget's is refused. -/
def adopt (b : Budget) (r other : Nat) : Except Errc Unit × Budget :=
  match b.holds r, b.holds other with
  | some g, some from_ =>
    match b.grants g, b.grants from_ with
    | some held, some given =>
      if g = from_ ∨ ¬ exclusive held ∨ ¬ exclusive given ∨ given.handle ≠ 0 then
        (.error .invalidArgument, b)
      else (.ok (), ((b.adopted g from_ held given).point other none).release (some from_))
    | _, _ => (.error .closed, b)
  | _, _ => (.error .closed, b)

/-- `workload_reservation::try_acquire_handles`. -/
def tryAcquireHandles (b : Budget) (r count : Nat) : Except Errc Unit × Budget :=
  match b.holds r with
  | none => (.error .closed, b)
  | some g =>
    match b.grants g with
    | none => (.error .closed, b)
    | some held =>
      if b.closed then (.error .closed, b.reject)
      else if count = 0 ∨ held.handle ≠ 0 then (.error .invalidArgument, b.reject)
      else if b.limits.handles < count then (.error .outOfRange, b.reject)
      else if b.handles < count then (.error .queueFull, b.reject)
      else (.ok (), { b with
        handles := b.handles - count
        grants := update b.grants g (some { held with handle := count }) })

end Budget

/-- What is done with a budget and its reservations. -/
inductive Action
  | tryReserve (retained : Nat) (allocates : Bool)
  | share (r : Nat)
  | moveConstruct (r : Nat)
  | moveAssign (to_ r : Nat) (keeps : Bool)
  | destroy (r : Nat)
  | adopt (r other : Nat)
  | tryAcquireHandles (r count : Nat)
  /-- `close_admission`, which the budget's own destruction does too. -/
  | closeAdmission
  /-- Other budgets of the workload class take and return its memory. -/
  | elsewhere (taken returned : Nat)
  deriving DecidableEq

namespace Budget

/-- One step, on reservations that are there. -/
def step (b : Budget) : Action → Option Budget
  | .tryReserve retained allocates => some (b.tryReserve retained allocates).2
  | .share r => if r < b.objects then b.share r else none
  | .moveConstruct r => if r < b.objects then some (b.moveConstruct r) else none
  | .moveAssign to_ r keeps =>
    if to_ < b.objects ∧ r < b.objects then some (b.moveAssign to_ r keeps) else none
  | .destroy r => if r < b.objects then some (b.destroy r) else none
  | .adopt r other => if r < b.objects ∧ other < b.objects then some (b.adopt r other).2 else none
  | .tryAcquireHandles r count => if r < b.objects then some (b.tryAcquireHandles r count).2 else none
  | .closeAdmission => some { b with closed := true }
  | .elsewhere taken returned =>
    if taken ≤ b.workloadMemory then some { b with workloadMemory := b.workloadMemory - taken + returned }
    else none

/-- A budget of some limits as a transition system. -/
def system (limits : Limits) (overhead : Nat) : System Budget Action where
  init b := ∃ workloadMemory, b = make limits overhead workloadMemory
  step := step

end Budget

end KwaqueStorage.Workload
