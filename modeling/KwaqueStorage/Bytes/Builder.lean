import KwaqueStorage.Bytes.Memory
import KwaqueStorage.Lib.Checks

/-!
# The builder of a buffer

`fragmented_buffer_builder` is the only thing that writes a buffer's bytes. It keeps a list of fragments, of
which only the last, the **tail**, may be written in part: `tailUsed` says how far. Appending fills the tail
first and goes on in fragments of growing size; a small fragment that is given is packed into the tail, and
fragments of a published buffer are taken over as they are, behind a tail that is trimmed to what was written.
What is refused halfway is rolled back by forgetting the fragments that were added and how far the tail was
written, and the bytes beyond stay in memory unseen.

A step takes the memory and the builder, and gives its answer with both as it leaves them.
-/

namespace KwaqueStorage.Bytes

open Lib

/-- `fragmented_buffer_builder_config`. -/
structure Config where
  initialFragmentBytes : Nat := 512
  maxFragmentBytes : Nat := 131072
  maxTotalBytes : Nat := 67108864
  maxRetainedBytes : Nat := 134217728
  maxFragments : Nat := maxBufferFragments
  deriving DecidableEq

/-- `fragmented_buffer_builder_config::validate`. -/
def Config.validate (config : Config) : Except Errc Unit :=
  require (¬(config.initialFragmentBytes = 0 ∨ config.maxTotalBytes = 0 ∨ config.maxFragments = 0
    ∨ config.maxFragments > maxBufferFragments ∨ config.maxFragmentBytes < config.initialFragmentBytes
    ∨ config.maxFragmentBytes > config.maxTotalBytes
    ∨ config.maxFragmentBytes > maximumContiguousAllocationBytes
    ∨ config.maxTotalBytes > config.maxRetainedBytes ∨ config.maxRetainedBytes > maxBufferBytes))
    .invalidArgument

/-- `served_allocation_size`: what the allocator serves for a size. Sizes up to 16 KiB come in four classes to
    a power of two, larger ones as powers of two. -/
def servedAllocationSize (size : Nat) : Nat :=
  if size = 0 then 0
  else
    let size := max size 8
    let log2Floor := Nat.log2 size
    if size > 16384 then
      let span := 1 <<< log2Floor
      if span = size ∨ log2Floor ≥ 63 then size else span <<< 1
    else
      let index := ((log2Floor <<< 2) - 3) + ((size - 1) >>> (log2Floor - 2))
      let served := ((4 ||| (index &&& 3)) <<< (index >>> 2)) >>> 2
      if served > 16 then (served + 16 - 1) / 16 * 16 else served

/-- `fragmented_buffer_builder`. -/
structure Builder where
  config : Config := {}
  fragments : List (Fragment Window) := []
  size : Nat := 0
  retainedBytes : Nat := 0
  tailUsed : Nat := 0
  lastAllocation : Nat := 0
  finished : Bool := false
  deriving DecidableEq

/-- `pack_copy_threshold`. -/
def packCopyThreshold : Nat := 4096

namespace Builder

/-- `tail_capacity`. -/
def tailCapacity (b : Builder) : Nat :=
  match b.fragments.getLast? with
  | none => 0
  | some tail => tail.size - b.tailUsed

/-- `next_allocation`. -/
def nextAllocation (b : Builder) (requested : Nat) : Nat :=
  let ceiling := b.config.maxFragmentBytes
  let candidate :=
    if b.lastAllocation ≠ 0 then
      if b.lastAllocation > ceiling - b.lastAllocation / 2 then ceiling
      else b.lastAllocation + b.lastAllocation / 2
    else b.config.initialFragmentBytes
  let target := min (max (min candidate ceiling) requested) ceiling
  if servedAllocationSize target ≤ ceiling then servedAllocationSize target else target

/-- `ensure_appendable`. -/
def ensureAppendable (b : Builder) (incoming : Nat) : Except Errc Unit := do
  require (b.finished = false) .closed
  require (b.size + incoming ≤ b.config.maxTotalBytes) .resourceExhausted

/-- The fragments with the tail trimmed to what was written. -/
def presented (b : Builder) : List (Fragment Window) :=
  match b.fragments.getLast? with
  | none => []
  | some tail => b.fragments.dropLast ++ [tail.share 0 b.tailUsed]

/-- `seal_tail`. -/
def sealTail (b : Builder) : Builder :=
  match b.fragments.getLast? with
  | none => b
  | some tail =>
    let tail := if b.tailUsed < tail.size then tail.share 0 b.tailUsed else tail
    { b with fragments := b.fragments.dropLast ++ [tail], tailUsed := tail.size }

/-- `push_fragment`: the old tail is trimmed, and the new one is written so far. -/
def pushFragment (b : Builder) (fragment : Fragment Window) (used : Nat) : Builder :=
  { b with
    fragments := b.presented ++ [fragment]
    retainedBytes := b.retainedBytes + fragment.retainedBytes
    tailUsed := used }

/-- `grow_tail_unchecked`. A new allocation holds anything; it is never shown before it is written. -/
def growTailUnchecked (memory : Memory) (b : Builder) (requested : Nat) : Memory × Builder :=
  let allocation := b.nextAllocation requested
  (memory.allocate (List.replicate allocation 0),
    { b.pushFragment ⟨⟨memory.length, 0, allocation⟩, allocation⟩ 0 with lastAllocation := allocation })

/-- `grow_tail`. -/
def growTail (memory : Memory) (b : Builder) (requested : Nat) : Except Errc Unit × Memory × Builder :=
  if b.fragments.length = b.config.maxFragments then (.error .resourceExhausted, memory, b)
  else if b.retainedBytes + b.nextAllocation requested > b.config.maxRetainedBytes then
    (.error .resourceExhausted, memory, b)
  else (.ok (), b.growTailUnchecked memory requested)

/-- `rewind`, to a mark taken of another state of the builder. -/
def rewind (b mark : Builder) : Builder :=
  let fragments := b.fragments.take mark.fragments.length
  { b with
    fragments
    tailUsed := match fragments.getLast? with
      | none => 0
      | some tail => min mark.tailUsed tail.size
    lastAllocation := mark.lastAllocation
    retainedBytes := mark.retainedBytes }

/-- Copies bytes into the tail, which has room for them. -/
def fill (memory : Memory) (b : Builder) (bytes : List UInt8) : Memory × Builder :=
  match b.fragments.getLast? with
  | none => (memory, b)
  | some tail => (memory.write tail.storage.block (tail.storage.start + b.tailUsed) bytes,
      { b with tailUsed := b.tailUsed + bytes.length })

/-- The loop of `append`. Every round writes a byte at least, so there are no more rounds than bytes. -/
def appendLoop : Nat → Memory → Builder → List UInt8 → Except Errc Unit × Memory × Builder
  | 0, memory, b, bytes => (if bytes.isEmpty then .ok () else .error .invariantViolation, memory, b)
  | rounds + 1, memory, b, bytes =>
    if bytes.isEmpty then (.ok (), memory, b)
    else
      let grown := if b.tailCapacity = 0 then b.growTail memory bytes.length else (.ok (), memory, b)
      match grown with
      | (.error e, memory, b) => (.error e, memory, b)
      | (.ok (), memory, b) =>
        let span := min b.tailCapacity bytes.length
        let filled := b.fill memory (bytes.take span)
        appendLoop rounds filled.1 filled.2 (bytes.drop span)

/-- `append`. -/
def append (memory : Memory) (b : Builder) (bytes : List UInt8) : Except Errc Unit × Memory × Builder :=
  match b.ensureAppendable bytes.length with
  | .error e => (.error e, memory, b)
  | .ok () =>
    if bytes.isEmpty then (.ok (), memory, b)
    else
      match appendLoop bytes.length memory b bytes with
      | (.error e, memory, grown) => (.error e, memory, grown.rewind b)
      | (.ok (), memory, grown) => (.ok (), memory, { grown with size := grown.size + bytes.length })

/-- `append_fragment_copy`, of storage that holds some bytes. -/
def appendFragmentCopy (memory : Memory) (b : Builder) (bytes : List UInt8) :
    Except Errc Unit × Memory × Builder :=
  match b.ensureAppendable bytes.length with
  | .error e => (.error e, memory, b)
  | .ok () =>
    if bytes.length > b.config.maxFragmentBytes then (.error .resourceExhausted, memory, b)
    else if bytes.length = 0 then (.ok (), memory, b)
    else if bytes.length ≤ packCopyThreshold ∧ bytes.length ≤ b.config.maxFragmentBytes then
      let grown :=
        if b.tailCapacity < bytes.length then
          if b.fragments.length = b.config.maxFragments then (.error .resourceExhausted, memory, b)
          else b.growTail memory bytes.length
        else (.ok (), memory, b)
      match grown with
      | (.error e, memory, b) => (.error e, memory, b)
      | (.ok (), memory, b) =>
        let filled := b.fill memory bytes
        (.ok (), filled.1, { filled.2 with size := filled.2.size + bytes.length })
    else if b.fragments.length = b.config.maxFragments then (.error .resourceExhausted, memory, b)
    else if b.retainedBytes + bytes.length > b.config.maxRetainedBytes then
      (.error .resourceExhausted, memory, b)
    else
      let pushed := b.pushFragment ⟨⟨memory.length, 0, bytes.length⟩, bytes.length⟩ bytes.length
      (.ok (), memory.allocate bytes, { pushed with size := pushed.size + bytes.length })

/-- How many complete leading fragments fit in what may be copied. -/
def packedCount : Nat → List (Fragment Window) → Nat
  | _, [] => 0
  | copyRemaining, fragment :: more =>
    if fragment.size > copyRemaining then 0 else packedCount (copyRemaining - fragment.size) more + 1

/-- The copies of the fragments that are packed. -/
def pack (memory : Memory) (b : Builder) : List (Fragment Window) → Memory × Builder
  | [] => (memory, b)
  | fragment :: more =>
    let filled := b.fill memory (memory.read fragment.storage)
    pack filled.1 filled.2 more

/-- Takes over whole fragments, behind a tail that is sealed. -/
def splice (b : Builder) (fragments : List (Fragment Window)) : Builder :=
  let fragments := b.sealTail.fragments ++ fragments
  { b.sealTail with
    fragments
    tailUsed := match fragments.getLast? with
      | none => 0
      | some tail => tail.size }

/-- `append_buffer`. Success empties the source. -/
def appendBuffer (memory : Memory) (b : Builder) (other : Buffer Window) :
    Except Errc Unit × Memory × Builder :=
  match b.ensureAppendable other.size with
  | .error e => (.error e, memory, b)
  | .ok () =>
    let packed := packedCount (min packCopyThreshold b.tailCapacity) other.fragments
    let donated := other.retainedBytes - backing (other.fragments.take packed)
    if b.fragments.length + other.fragments.length - packed > b.config.maxFragments
        ∨ b.retainedBytes + donated > b.config.maxRetainedBytes then
      (.error .resourceExhausted, memory, b)
    else
      let filled := b.pack memory (other.fragments.take packed)
      let taken := if packed ≠ other.fragments.length then filled.2.splice (other.fragments.drop packed)
        else filled.2
      (.ok (), filled.1, { taken with
        size := taken.size + other.size
        retainedBytes := b.retainedBytes + donated })

/-- `append_fragments`: takes over so many leading fragments. Success removes them from the source. -/
def appendFragments (b : Builder) (source : Buffer Window) (count : Nat) : Except Errc Unit × Builder :=
  if b.finished then (.error .closed, b)
  else if count > source.fragments.length then (.error .outOfRange, b)
  else if count = 0 then (.ok (), b)
  else
    let logical := sizes (source.fragments.take count)
    let donated := backing (source.fragments.take count)
    match b.ensureAppendable logical with
    | .error e => (.error e, b)
    | .ok () =>
      if count > b.config.maxFragments - b.fragments.length
          ∨ b.retainedBytes + donated > b.config.maxRetainedBytes then (.error .resourceExhausted, b)
      else
        let taken := b.splice (source.fragments.take count)
        (.ok (), { taken with
          size := taken.size + logical
          retainedBytes := b.retainedBytes + donated })

/-- `reserve`. -/
def reserve (memory : Memory) (b : Builder) (bytes : Nat) : Except Errc Unit × Memory × Builder :=
  if b.finished then (.error .closed, memory, b)
  else if bytes = 0 then (.ok (), memory, b)
  else if bytes > b.config.maxFragmentBytes then (.error .outOfRange, memory, b)
  else
    match b.ensureAppendable bytes with
    | .error e => (.error e, memory, b)
    | .ok () => if b.tailCapacity ≥ bytes then (.ok (), memory, b) else b.growTail memory bytes

/-- `reserve_fragments`: storage for descriptors, which holds neither bytes nor fragments. -/
def reserveFragments (b : Builder) (count : Nat) : Except Errc Unit := do
  require (b.finished = false) .closed
  require (count ≤ b.config.maxFragments) .outOfRange

/-- The loop of `share`, over the fragments with what is used of each. -/
def shareParts : List (Fragment Window × Nat) → (skip remaining : Nat) → (shared : List (Fragment Window)) →
    (retained : Nat) → Except Errc (List (Fragment Window) × Nat)
  | [], _, remaining, shared, retained =>
    if remaining ≠ 0 then .error .outOfRange else .ok (shared, retained)
  | (fragment, used) :: more, skip, remaining, shared, retained =>
    if remaining = 0 then .ok (shared, retained)
    else if skip ≥ used then shareParts more (skip - used) remaining shared retained
    else
      let take := min (used - skip) remaining
      if shared.length = maxBufferFragments then .error .resourceExhausted
      else shareParts more 0 (remaining - take) (shared ++ [fragment.share skip take])
        (retained + fragment.retainedBytes)

/-- Every fragment but the tail presents what was written to it. -/
def used (b : Builder) : List (Fragment Window × Nat) :=
  match b.fragments.getLast? with
  | none => []
  | some tail => b.fragments.dropLast.map (fun fragment => (fragment, fragment.size)) ++ [(tail, b.tailUsed)]

/-- `share`. -/
def share (b : Builder) (offset length : Nat) : Except Errc (Buffer Window) :=
  if b.finished then .error .closed
  else if offset + length > b.size then .error .outOfRange
  else if length = 0 then .ok {}
  else
    match shareParts b.used offset length [] 0 with
    | .error e => .error e
    | .ok (shared, retained) => .ok { fragments := shared, size := length, retainedBytes := retained }

/-- `drop_empty_fragments`. -/
def dropEmptyFragments (buffer : Buffer Window) : Buffer Window :=
  { buffer with
    fragments := buffer.fragments.filter fun fragment => fragment.size ≠ 0
    retainedBytes := buffer.retainedBytes
      - backing (buffer.fragments.filter fun fragment => fragment.size = 0) }

/-- `finish`. The builder holds nothing afterwards, whatever comes of it. -/
def finish (b : Builder) : Except Errc (Buffer Window) × Builder :=
  if b.finished then (.error .closed, b)
  else
    let published := dropEmptyFragments
      { fragments := b.sealTail.fragments, size := b.size, retainedBytes := b.retainedBytes }
    let closed := { b with
      fragments := [], size := 0, retainedBytes := 0, tailUsed := 0, lastAllocation := 0, finished := true }
    if sizes published.fragments ≠ b.size then (.error .malformedData, closed)
    else if published.fragments.length > maxBufferFragments then (.error .resourceExhausted, closed)
    else (.ok published, closed)

end Builder

end KwaqueStorage.Bytes
