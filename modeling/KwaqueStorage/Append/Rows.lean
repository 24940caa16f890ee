import KwaqueStorage.Append.Types

/-!
# The obligation table

`local_append`'s `obligation_row` and the functions that move its counters. A row belongs to
one WAL file and one segment and knows how many groups of the segment the file still holds
the only durable copy of, but none of their positions: `pending` counts them, and of those
`written` lie before the segment's newest passed footer, `held` after it, and `covering` are
the ones the barrier running now was started over. Nothing in a row says *which* groups it
counts; the proofs over this table supply that (`Append/Ledger.lean`).
-/

namespace KwaqueStorage.Append

/-- `obligation_row`. -/
structure Row where
  wal : Option Nat := none
  segment : Option Nat := none
  slot : Option Nat := none
  reserved : Nat := 0
  pending : Nat := 0
  pinned : Nat := 0
  written : Nat := 0
  held : Nat := 0
  covering : Nat := 0
  /-- How many of the pinned are groups pinned in this process. -/
  live : Nat := 0
  firstPinned : Nat := 0
  pinnedBegin : Option Cursor := none
  firstPending : Nat := 0
  pendingBegin : Option Cursor := none
  deriving DecidableEq

namespace Row

/-- The row's half of `free_row_if_unused`. -/
def freeIfUnused (row : Row) : Row :=
  let row := if row.pending = 0 then { row with pendingBegin := none } else row
  if row.reserved = 0 ∧ row.pending = 0 ∧ row.pinned = 0 then
    { row with wal := none, segment := none, slot := none, pinnedBegin := none }
  else row

/-- `open`: a WAL-placed group the WAL accepted. -/
def openGroup (row : Row) (sequence : Nat) (walBegin : Option Cursor) : Row :=
  let row := { row with reserved := row.reserved - 1 }
  if row.pending = 0 then
    { row with pending := row.pending + 1, firstPending := sequence, pendingBegin := walBegin }
  else { row with pending := row.pending + 1 }

/-- `pin`: `count` groups of the row are pinned, the oldest at `sequence` and `begin_`. -/
def pin (row : Row) (count sequence : Nat) (begin_ : Option Cursor) : Row :=
  let row := { row with pinned := row.pinned + count, live := row.live + count }
  match begin_ with
  | some begin_ =>
    if row.pinnedBegin.isNone ∨ sequence < row.firstPinned then
      { row with firstPinned := sequence, pinnedBegin := some begin_ }
    else row
  | none => row

/-- The row's half of `unreserve`. -/
def unreserve (row : Row) : Row := { row with reserved := row.reserved - 1 }.freeIfUnused

/-- `mark_ready`, for a group passed submitted: written before a footer of its own, else
    held until one closes its run. -/
def passSubmitted (row : Row) (footed : Bool) : Row :=
  if footed then { row with written := row.written + 1 } else { row with held := row.held + 1 }

/-- `mark_ready`, for an accepted group dropped unwritten. -/
def passDropped (row : Row) (sequence : Nat) (walBegin : Option Cursor) : Row :=
  ({ row with pending := row.pending - 1 }.pin 1 sequence walBegin).freeIfUnused

/-- `cover`'s loop body: what was held for a footer is now before one. -/
def cover (segment : Nat) (row : Row) : Row :=
  if row.held = 0 ∨ row.segment ≠ some segment then row
  else { row with written := row.written + row.held, held := 0 }

/-- The rows of a starting barrier's segment: what it covers. `whole` is the barrier of a
    failed writer, which cuts at the newest passed group. -/
def startCover (segment : Nat) (whole : Bool) (row : Row) : Row :=
  if row.segment ≠ some segment then row
  else
    let row := if whole then { row with written := row.written + row.held, held := 0 } else row
    { row with covering := row.written }

/-- `settle_barrier`'s loop body. -/
def settle (segment : Nat) (durable : Bool) (row : Row) : Row :=
  if row.covering = 0 ∨ row.segment ≠ some segment then row
  else
    let settled :=
      { row with pending := row.pending - row.covering, written := row.written - row.covering }
    let settled :=
      if durable then settled
      else settled.pin row.covering settled.firstPending settled.pendingBegin
    { settled with covering := 0 }.freeIfUnused

/-- `replace_pinned`'s first loop body. -/
def unpin (segment : Nat) (row : Row) : Row :=
  if row.segment ≠ some segment ∨ row.pinned = 0 then row
  else { row with pinned := 0, live := 0, firstPinned := 0, pinnedBegin := none }.freeIfUnused

/-- What `replace_pinned` and `restore_pinned` make of a row that carries what remains. -/
def repin (segment : Nat) (remaining firstPinned : Nat) (first : Cursor) (row : Row) : Row :=
  { row with
    wal := some first.incarnation
    segment := some segment
    pinned := remaining
    firstPinned := firstPinned
    pinnedBegin := some first }

end Row

/-- The table: its rows, and the stack of rows freed, the latest first. -/
structure RowTable where
  size : Nat
  row : Nat → Row := fun _ => {}
  free : List Nat

namespace RowTable

/-- `made_rows` and `made_free`: every row free, the lowest on top. -/
def made (size : Nat) : RowTable := { size, free := List.range size }

/-- The push of `free_row_if_unused`: never past the capacity the stack was made with. -/
def pushFree (size : Nat) (free : List Nat) (i : Nat) : List Nat :=
  if free.length < size then i :: free else free

/-- One row changed, and pushed when that freed it. -/
def modify (t : RowTable) (i : Nat) (f : Row → Row) : RowTable :=
  { t with
    row := Function.update t.row i (f (t.row i))
    free :=
      if (t.row i).segment.isSome && (f (t.row i)).segment.isNone then pushFree t.size t.free i
      else t.free }

/-- Every row changed, in table order, and pushed when that freed it. -/
def mapAll (t : RowTable) (f : Row → Row) : RowTable :=
  { t with
    row := fun i => f (t.row i)
    free := (List.range t.size).foldl (fun free i =>
      if (t.row i).segment.isSome && (f (t.row i)).segment.isNone then pushFree t.size free i
      else free) t.free }

/-- The stack popped down to a row that is still free. -/
def popFree (row : Nat → Row) : List Nat → Option Nat × List Nat
  | [] => (none, [])
  | i :: rest => if (row i).segment.isNone then (some i, rest) else popFree row rest

/-- `take_free`: off the stack, else by a search of the table. -/
def takeFree (t : RowTable) : Option Nat × RowTable :=
  let popped := popFree t.row t.free
  match popped.1 with
  | some i => (some i, { t with free := popped.2 })
  | none =>
    ((List.range t.size).find? fun i => (t.row i).segment.isNone, { t with free := popped.2 })

/-- `reserve_row`: the slot's current row while it is of this WAL file and segment, else a
    free one. -/
def reserveRow (t : RowTable) (attached : Option Nat) (wal segment slot : Nat) :
    Option Nat × RowTable :=
  let current := attached.filter fun i =>
    (t.row i).wal = some wal ∧ (t.row i).segment = some segment
  match current with
  | some i =>
    (some i, t.modify i fun row => { row with reserved := row.reserved + 1, slot := some slot })
  | none =>
    match t.takeFree with
    | (some i, t) =>
      (some i, t.modify i fun row =>
        { row with wal := some wal, segment := some segment, slot := some slot, reserved := 1 })
    | (none, t) => (none, t)

/-- `keep_older`. -/
def keepOlder (oldest : Option Cursor) (begin_ : Cursor) : Option Cursor :=
  match oldest with
  | none => some begin_
  | some o => if begin_ < o then some begin_ else some o

/-- Where the open rows last opened. -/
def pendingBegins (t : RowTable) : List Cursor :=
  (List.range t.size).filterMap fun i =>
    if (t.row i).pending = 0 then none else (t.row i).pendingBegin

/-- Where the pinned rows begin. -/
def pinnedBegins (t : RowTable) : List Cursor :=
  (List.range t.size).filterMap fun i =>
    if (t.row i).pinned = 0 then none else (t.row i).pinnedBegin

/-- The oldest open row, group being submitted and pinned row, in that order. -/
def oldest (t : RowTable) (submitting : Option Cursor) : Option Cursor :=
  (t.pendingBegins ++ submitting.toList ++ t.pinnedBegins).foldl keepOlder none

/-- `pinned_total`. -/
structure PinnedTotal where
  count : Nat := 0
  live : Nat := 0
  oldest : Option Cursor := none

/-- `pinned_of`: one segment's pinned PREPAREs across its rows. -/
def pinnedOf (t : RowTable) (segment : Nat) : PinnedTotal :=
  (List.range t.size).foldl (fun total i =>
    let row := t.row i
    if row.segment ≠ some segment ∨ row.pinned = 0 then total
    else
      { count := total.count + row.pinned
        live := total.live + row.live
        oldest := row.pinnedBegin.elim total.oldest (keepOlder total.oldest) }) {}

/-- `replace_pinned`'s search: the segment's row in that WAL file, else one it releases, else
    a free one. -/
def pinHome (t : RowTable) (segment : Nat) (first : Cursor) : Option Nat × RowTable :=
  let home := (List.range t.size).find? fun i =>
    (t.row i).segment = some segment ∧ (t.row i).wal = some first.incarnation
  let released := (List.range t.size).find? fun i =>
    (t.row i).segment = some segment ∧ (t.row i).pinned ≠ 0 ∧ (t.row i).reserved = 0
      ∧ (t.row i).pending = 0
  match home.or released with
  | some i => (some i, t)
  | none =>
    if (List.range t.size).any fun i => (t.row i).segment.isNone then t.takeFree else (none, t)

/-- `replace_pinned`: a segment's pinned rows replaced by one holding `remaining`, the oldest
    beginning at `first`, or by none. Without a row for it nothing changes. -/
def replacePinned (t : RowTable) (segment remaining : Nat) (first : Option Cursor) :
    Option RowTable :=
  match first with
  | none => some (t.mapAll (Row.unpin segment))
  | some first =>
    match t.pinHome segment first with
    | (none, _) => none
    | (some home, t) =>
      some ((t.mapAll (Row.unpin segment)).modify home (Row.repin segment remaining 0 first))

end RowTable
end KwaqueStorage.Append
