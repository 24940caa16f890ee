import KwaqueStorage.Base.Types

/-!
# The checkpoint owner, the control record and the device

`local_checkpoint` moves the head of a shard's control record from one checkpoint bundle to the
next and removes what only the previous head needed. This module has what the two owners hold in
memory and what the device may hold after a stop.

A device that stops may come back with any record whose rename was asked for and not yet followed
by a directory sync, so `Device.records` lists every control record that may be durable. A bundle
is listed once its publication got as far as its name, and is gone from the moment a removal of it
was answered or may have happened. Of a WAL file only its removal matters here.
-/

namespace KwaqueStorage.Checkpoint

/-- `local_root_reference` of a checkpoint bundle. -/
structure Reference where
  sequence : Nat
  digest : Nat
  deriving DecidableEq

/-- `local_checkpoint_root`, less the pages of its entries. -/
structure Root where
  begin_ : Cursor
  end_ : Cursor
  deriving DecidableEq

/-- A bundle file, as a reference to it reads it back, and whether its publication was answered
    as durable. -/
structure Bundle where
  reference : Reference
  root : Root
  durable : Bool
  deriving DecidableEq

/-- `local_wal_head`. -/
structure WalHead where
  incarnation : Nat
  headerDigest : Nat
  deriving DecidableEq

/-- `local_shard_control`. -/
structure Control where
  walHigh : Nat := 0
  objectHigh : Nat := 0
  decisionHigh : Nat := 0
  deletionHigh : Nat := 0
  walHead : Option WalHead := none
  checkpoint : Option Reference := none
  deriving DecidableEq

/-- The part of `control_progress` on WAL heads: a head stays or moves to a later incarnation. -/
def walProgress (before after : Control) : Bool :=
  match before.walHead, after.walHead with
  | none, _ => true
  | some _, none => false
  | some b, some a => decide (b.incarnation ≤ a.incarnation)
      && (decide (a.incarnation ≠ b.incarnation) || decide (a.headerDigest = b.headerDigest))

/-- The part of `control_progress` on checkpoints: one stays or moves to a later sequence. -/
def checkpointProgress (before after : Control) : Bool :=
  match before.checkpoint, after.checkpoint with
  | none, _ => true
  | some b, some a => decide (a = b) || decide (b.sequence < a.sequence)
  | some _, none => false

/-- `control_progress`. -/
def controlProgress (before after : Control) : Bool :=
  decide (before.walHigh ≤ after.walHigh) && decide (before.objectHigh ≤ after.objectHigh)
    && decide (before.decisionHigh ≤ after.decisionHigh)
    && decide (before.deletionHigh ≤ after.deletionHigh)
    && walProgress before after
    && after.walHead.all (fun h => decide (h.incarnation ≤ after.walHigh))
    && checkpointProgress before after
    && after.checkpoint.all fun r => after.walHead.isSome && decide (r.sequence ≤ after.objectHigh)

/-! ## The device -/

/-- How a removal went: whether the file is gone, or may be, and whether the caller was told it
    is. -/
structure Removal where
  gone : Bool
  told : Bool
  deriving DecidableEq

/-- What the device may hold after a stop. -/
structure Device where
  records : List Control
  bundles : Nat → Option Bundle := fun _ => none
  /-- The incarnations of the WAL files removed or moved among the spares. -/
  removed : List Nat := []

/-- A bundle publication got as far as its name. -/
def Device.addBundle (d : Device) (sequence : Nat) (b : Bundle) : Device :=
  { d with bundles := Function.update d.bundles sequence (some b) }

/-- `remove_file` of a bundle. -/
def Device.removeBundle (d : Device) (sequence : Nat) (r : Removal) : Device :=
  if r.gone || r.told then { d with bundles := Function.update d.bundles sequence none } else d

/-- `move_in` or `remove_file` of a WAL file. -/
def Device.removeWal (d : Device) (incarnation : Nat) (r : Removal) : Device :=
  if r.gone || r.told then { d with removed := incarnation :: d.removed } else d

/-! ## The control owner and the allocator -/

/-- The cut a run publishes. -/
structure Cut where
  replaced : Option Reference
  begin_ : Cursor
  end_ : Cursor
  deriving DecidableEq

/-- Whose update has the control's turn. -/
inductive Owner
  | checkpoint
  | allocator (start count : Nat)
  | other
  deriving DecidableEq

/-- How far an update got: edited, its dependencies loaded, or its rename asked for. -/
inductive Stage
  | edited
  | loaded
  | renamed
  deriving DecidableEq

/-- An update that has the control's turn. -/
structure Update where
  owner : Owner
  candidate : Control
  end_ : Option Cursor := none
  stage : Stage := .edited
  deriving DecidableEq

/-- `local_control_owner`. -/
structure Head where
  current : Control
  checkpointEnd : Option Cursor
  fenced : Bool := false
  turn : Option Update := none
  deriving DecidableEq

/-- `local_id_range` of object sequences. -/
structure Range where
  current : Nat := 0
  remaining : Nat := 0
  deriving DecidableEq

/-! ## The checkpoint owner -/

/-- Where a run waits. -/
inductive Phase
  | idle
  | pinning (cut : Cut)
  | allocating (cut : Cut)
  | encoding (cut : Cut) (sequence : Nat)
  | bundling (cut : Cut) (reference : Reference)
  | updating (cut : Cut) (reference : Reference)
  | retiring (sequence : Nat)
  | settling (kept todo : List Nat)
  | reclaiming (cutoff : Cursor)
  deriving DecidableEq

/-- `local_checkpoint`. Each hold has the cutoff it was given. -/
structure Checkpointer where
  origin : Cursor
  /-- `pins_.continues()`. -/
  continues : Option Reference := none
  recovered : Bool := false
  lettingGo : Bool := false
  holds : List (Option Cursor) := []
  publishing : Bool := false
  /-- `first_.failed()`. -/
  failed : Bool := false
  debts : List Nat := []
  phase : Phase := .idle
  deriving DecidableEq

/-- A pass of a reopen over the names the device holds. -/
inductive Sweep
  | bundles (kept : Option Reference)
  | wal (durable : Option Cursor)
  deriving DecidableEq

/-- What a process of the shard has in memory. -/
structure Process where
  head : Head
  ids : Range := {}
  /-- `retained_wal`, oldest first. -/
  retained : List Nat := []
  walRecovered : Bool := false
  sweep : Option Sweep := none
  checkpointer : Option Checkpointer := none
  deriving DecidableEq

structure State where
  device : Device
  process : Option Process := none

/-! ## Small functions of the source -/

/-- `retained_wal::below`: the files before the one the cutoff names. The newest is kept. -/
def below (retained : List Nat) (cutoff : Cursor) : Nat :=
  match retained with
  | oldest :: next :: rest =>
    if oldest < cutoff.incarnation then below (next :: rest) cutoff + 1 else 0
  | _ => 0

/-- `retained_wal::drop_oldest`. -/
def dropOldest : List Nat → List Nat
  | _ :: next :: rest => next :: rest
  | retained => retained

/-- `retained_wal::extend`. -/
def extend (retained : List Nat) (file : Nat) : Option (List Nat) :=
  if file = 0 ∨ retained.length = 64 then none
  else if retained.getLast?.any (fun newest => !decide (newest < file)) then none
  else some (retained ++ [file])

/-- `local_obligation_snapshot`. -/
structure Obligations where
  walDurable : Cursor
  discharged : Cursor
  deriving DecidableEq

/-- The lower of a cursor and a bound. -/
def bounded (end_ : Cursor) : Option Cursor → Cursor
  | none => end_
  | some bound => if bound < end_ then bound else end_

/-- `checkpoint_cutoff`. -/
def checkpointCutoff (o : Obligations) (held : Option Cursor) (previous : Cursor) :
    Except Errc Cursor :=
  let end_ := bounded (bounded o.discharged (some o.walDurable)) held
  if end_ < previous then .error .invariantViolation else .ok end_

/-- `owe`: eight debts, the oldest dropped. -/
def owe (debts : List Nat) (sequence : Nat) : List Nat :=
  (if debts.length = 8 then debts.tail else debts) ++ [sequence]

end KwaqueStorage.Checkpoint
