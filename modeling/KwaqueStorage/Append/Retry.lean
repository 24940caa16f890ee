import KwaqueStorage.Append.Types

/-!
# The retry summary of an attached segment

`retry_summary.cc`, the half the append owner feeds: a ring of facts for each stream of the
segment, admitted before a request waits, told of each batch that freezes and given each
batch that is published durable.

`froze` and `add` hold an invariant each. They answer it beside the changed builder, so the
caller decides what a broken one means.
-/

namespace KwaqueStorage.Append

/-- `retry_prefix`: the stream a batch belongs to. -/
structure RetryStream where
  producer : Nat
  epoch : Nat
  stream : Nat
  deriving DecidableEq

/-- `batch_id`: a stream and a sequence in it. -/
structure BatchId where
  stream : RetryStream
  sequence : Nat
  deriving DecidableEq

/-- `retry_ring::entry`. -/
structure RetryEntry where
  sequence : Nat
  digest : Nat
  span : Nat × Nat
  deriving DecidableEq

/-- `retry_ring`: the newest batches of one stream, at most `depth`. -/
structure RetryRing where
  routing : Nat
  depth : Nat
  entries : List RetryEntry := []
  /-- The newest sequence of the stream whose group froze in the segment. -/
  frozen : Option Nat := none
  size : Nat := 0
  head : Nat := 0
  /-- Entries reserved for it in the segment's seal. -/
  claimed : Nat := 0
  deriving DecidableEq

/-- The `i`-th oldest batch it holds. -/
def RetryRing.entryAt (r : RetryRing) (i : Nat) : Option RetryEntry :=
  r.entries[(r.head + i) % r.depth]?

def RetryRing.newest (r : RetryRing) : Option RetryEntry := r.entryAt (r.size - 1)

/-- `maximum_object_entries`. -/
def maximumObjectEntries : Nat := 65536

/-- `maximum_retry_depth`. -/
def maximumRetryDepth : Nat := 32

/-- `retry_summary_builder`. -/
structure RetryBuilder where
  depth : Nat
  rings : RetryStream → Option RetryRing := fun _ => none
  prefixes : Nat := 0
  /-- The stream `admit` made and nobody has kept or dropped. -/
  opening : Option RetryStream := none
  facts : Nat := 0

def RetryBuilder.prefixLimit (depth : Nat) : Nat := maximumObjectEntries / max depth 1

/-- What `admit` answers: the stream's ring, none when the segment holds as many streams as
    its depth allows, or a refusal. -/
inductive Admission
  | ring
  | null
  | refused (code : Errc)
  deriving DecidableEq

namespace RetryBuilder

/-- `open`: a new stream's ring, unless the segment is full of streams or the budget is
    short (`budget`). -/
def openRing (b : RetryBuilder) (stream : RetryStream) (routing : Nat) (budget : Bool) :
    Admission × RetryBuilder :=
  if b.prefixes ≥ prefixLimit b.depth then (.null, b)
  else if budget then
    (.ring, { b with
      rings := Function.update b.rings stream (some { routing, depth := b.depth })
      prefixes := b.prefixes + 1
      opening := some stream })
  else (.refused .queueFull, b)

/-- `admit`: reads only what froze; the caller orders the ones not yet frozen. -/
def admit_ (b : RetryBuilder) (id : BatchId) (routing : Nat) (budget : Bool) :
    Admission × RetryBuilder :=
  match b.rings id.stream with
  | some ring =>
    if ring.routing ≠ routing then (.refused .wrongContext, b)
    else if ring.frozen.any (id.sequence ≤ ·) then (.refused .invalidArgument, b)
    else (.ring, b)
  | none => b.openRing id.stream routing budget

/-- `keep`. -/
def keep (b : RetryBuilder) : RetryBuilder := { b with opening := none }

/-- `drop`: the stream `admit` made goes, unless it was kept. -/
def drop (b : RetryBuilder) : RetryBuilder :=
  match b.opening with
  | none => b
  | some stream =>
    { b with
      rings := Function.update b.rings stream none
      prefixes := b.prefixes - 1
      opening := none }

/-- `opens_entry`: whether one more batch, after `earlier` others in its group, takes an
    entry of the seal. -/
def opensEntry (b : RetryBuilder) (stream : RetryStream) (earlier : Nat) : Bool :=
  match b.rings stream with
  | some ring => decide (ring.claimed + earlier < b.depth)
  | none => false

/-- `froze`, and whether its invariant held. -/
def froze (b : RetryBuilder) (id : BatchId) (entry : Bool) : Bool × RetryBuilder :=
  match b.rings id.stream with
  | none => (false, b)
  | some ring =>
    (ring.frozen.all (· < id.sequence) && (!entry || decide (ring.claimed < b.depth)),
      { b with rings := Function.update b.rings id.stream (some { ring with
          frozen := some id.sequence
          claimed := if entry then ring.claimed + 1 else ring.claimed }) })

/-- The ring after one more fact: pushed while it is short of its depth, else written over
    the oldest. -/
def pushFact (ring : RetryRing) (value : RetryEntry) : RetryRing :=
  if ring.size < ring.depth then
    { ring with entries := ring.entries ++ [value], size := ring.size + 1 }
  else
    { ring with
      entries := ring.entries.set ring.head value
      head := (ring.head + 1) % ring.depth }

/-- `add`, and whether its invariant held. -/
def add (b : RetryBuilder) (id : BatchId) (digest : Nat) (span : Nat × Nat) :
    Bool × RetryBuilder :=
  match b.rings id.stream with
  | none => (false, b)
  | some ring =>
    (ring.size = 0 || ring.newest.any (·.sequence < id.sequence),
      { b with
        rings := Function.update b.rings id.stream
          (some (pushFact ring ⟨id.sequence, digest, span⟩))
        facts := if ring.size < ring.depth then b.facts + 1 else b.facts })

end RetryBuilder
end KwaqueStorage.Append
