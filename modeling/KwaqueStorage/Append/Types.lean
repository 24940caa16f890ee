import KwaqueStorage.Base.Types

/-!
# Words of the append path

Both cursors of a comparison always belong to the one WAL of the owner, so
`local_wal_cursor::compare` never fails here.
-/

namespace KwaqueStorage.Append

/-- `merge_failure`: the first failure observed is kept. -/
def mergeFailure (into from_ : Option Errc) : Option Errc :=
  match into with
  | some e => some e
  | none => from_

/-- `segment_captured_boundary`, as far as the append owner reads it: where the cut ends,
    and where the footer it ends with begins. A held group's cut has no footer. -/
structure Boundary where
  endBytes : Nat
  footer : Option Nat
  deriving DecidableEq

/-- What the owner sees of one `segment_writer`: its reserved end, where the run held open
    there begins, and whether it failed. -/
structure Writer where
  reserved : Nat := 0
  run : Option Nat := none
  failed : Bool := false
  deriving DecidableEq

/-- `segment_writer::held`: bytes of the run held open at the reserved end. -/
def Writer.held (w : Writer) : Nat :=
  match w.run with
  | some begin => w.reserved - begin
  | none => 0

end KwaqueStorage.Append
