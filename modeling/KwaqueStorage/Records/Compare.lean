import KwaqueStorage.Codec.Work
import KwaqueStorage.Records.Integers
import KwaqueStorage.Records.Wire

/-!
# Comparing records

Two payloads may be cut into fragments in two ways. They are compared through two cursors that move on
together, by as much as remains of both fragments and fits half a quantum of work, since both sides are
read. What carries the proof is that as much remains behind one cursor as behind the other, and that what
lies before them is equal.
-/

namespace KwaqueStorage.Records

open Codec (Work)
open Lib

/-! ## The comparison -/

section Compare

variable (work : Work ComparePlace) (anchor : CodecError)

end Compare

/-! ## What is answered -/

section Answers

variable {work : Work ComparePlace} {anchor : CodecError} {index : Nat} {answer : Bool}

end Answers

end KwaqueStorage.Records
