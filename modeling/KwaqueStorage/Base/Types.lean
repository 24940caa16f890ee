import Mathlib

/-!
# Words shared by the store

The error codes, WAL cursors and coverage spans that every owner of the store uses. Positions
in a file and record offsets are `std::uint64_t` in the source, and their checked additions
refuse to wrap; here they are naturals.
-/

namespace KwaqueStorage

/-- `errc`, less its `success`. -/
inductive Errc
  | invalidArgument
  | outOfRange
  | malformedData
  | unavailable
  | aborted
  | closed
  | timedOut
  | resourceExhausted
  | queueFull
  | wrongShard
  | ioFailure
  | networkFailure
  | dnsFailure
  | faultInjected
  | replayDivergence
  | invariantViolation
  | truncatedData
  | notFound
  | alreadyExists
  | permissionDenied
  | directoryNotEmpty
  | isADirectory
  | notADirectory
  | corruptData
  | wrongContext
  | unsupportedFormat
  deriving DecidableEq

/-- `local_wal_cursor`. -/
structure Cursor where
  incarnation : Nat
  position : Nat
  deriving DecidableEq

/-- The order of `local_wal_cursor::compare`: by the file's incarnation first and by the
    position in it second. -/
instance : LinearOrder Cursor :=
  LinearOrder.lift' (fun c => toLex (c.incarnation, c.position)) (by
    rintro ⟨a, b⟩ ⟨c, d⟩ h
    simpa using h)

/-- `record_span` and `file_byte_span`: half open. -/
structure Span where
  begin_ : Nat
  end_ : Nat
  deriving DecidableEq

namespace Span

def count (s : Span) : Nat := s.end_ - s.begin_

def isEmpty (s : Span) : Bool := s.begin_ = s.end_

end Span

/-- `coverage`: original logical slots, retained records and file bytes. -/
structure Coverage where
  logical : Span
  physical : Span
  bytes : Span
  deriving DecidableEq

end KwaqueStorage
