import KwaqueStorage.Base.Types

/-!
# The sparse index of a segment

`active_sparse_index` and `rebuild_sparse_index`. An index is fed the blocks of its segment in
file order and keeps some of them as anchors; it is fed by the segment's writer while the
segment is written, and by a verification walk when the index of a sealed segment is built
again.

The table of entries is one list here. Its chunks show in two numbers only: `admitted`, the
entries whose chunks the budget admitted, and `chunks`, how many were allocated. What an
allocation answers comes with the call that makes it.
-/

namespace KwaqueStorage.Index

/-- `maximum_anchor_blocks`. -/
def maximumAnchorBlocks : Nat := 2048

/-- `sparse_index_page_entries`, which is `chunk_entries` too. -/
def pageEntries : Nat := 1024

/-- `maximum_object_entries`. -/
def maximumObjectEntries : Nat := 65536

/-- `maximum_contiguous_allocation_bytes`. -/
def maximumContiguousAllocationBytes : Nat := 131072

/-- `reservation_allocation_bound`. -/
def reservationAllocationBound : Nat := 512

/-- `sizeof(sparse_index_entry)`. -/
def entryBytes : Nat := 16

/-- `sizeof(std::vector<sparse_index_entry>)`. -/
def chunkListBytes : Nat := 24

/-- The smallest block: its envelope's prefix and fixed body around its child's prefix. -/
def smallestBlock : Nat := 2 * 32 + 144

/-- The one value that is no `range_logical_offset`. -/
def noOffset : Nat := 2 ^ 64 - 1

/-- `sparse_index_stride`. -/
structure Stride where
  bytes : Nat := 32 * 1024
  records : Nat := 0
  deriving DecidableEq

/-- `sparse_index_entry`. -/
structure Entry where
  anchor : Nat
  position : Nat
  deriving DecidableEq

/-- `sparse_index_capacity`. -/
def sparseIndexCapacity (stride : Stride) (maximumDataBytes maximumBlocks : Nat) : Nat :=
  let most := min maximumBlocks maximumObjectEntries
  if stride.records ≠ 0 ∨ stride.bytes = 0 then most
  else
    let strides := maximumDataBytes / stride.bytes
    if strides ≥ most then most
    else
      let blocks := min maximumBlocks (maximumDataBytes / smallestBlock)
      let bound := strides + 1 + blocks / maximumAnchorBlocks
      if bound < most then bound else most

/-- `sparse_index_capacity` of a sealed extent. -/
def sealedCapacity (stride : Stride) (covered : Coverage) : Nat :=
  sparseIndexCapacity stride covered.bytes.end_
    (min maximumObjectEntries covered.physical.count)

/-! ## What admits its memory -/

/-- `workload_budget`, as one admission meets it: its allocation profile, its own limit, and
    what is left of its tasks, its bytes and its workload's memory. -/
structure Budget where
  charge : Nat → Nat
  limit : Nat
  tasks : Nat
  localBytes : Nat
  workloadMemory : Nat
  closed : Bool := false

/-- `workload_reservation`. -/
structure Reservation where
  charged : Nat := 0
  retained : Nat := 0
  deriving DecidableEq

namespace Budget

/-- `allocation_charge`. -/
def allocationCharge (b : Budget) (requested : Nat) : Except Errc Nat :=
  if requested = 0 ∨ requested > maximumContiguousAllocationBytes then .error .outOfRange
  else
    let served := b.charge requested
    if served < requested ∨ served > maximumContiguousAllocationBytes then .error .outOfRange
    else .ok served

/-- `reservation_charge`. -/
def reservationCharge (b : Budget) (retained : Nat) : Except Errc Nat :=
  let cost := retained + b.charge reservationAllocationBound
  if cost > b.limit then .error .outOfRange else .ok cost

/-- `try_reserve`. -/
def tryReserve (b : Budget) (retained : Nat) : Except Errc (Reservation × Budget) :=
  if b.closed then .error .closed
  else
    match b.reservationCharge retained with
    | .error e => .error e
    | .ok cost =>
      if b.tasks = 0 ∨ b.localBytes < cost ∨ b.workloadMemory < cost then .error .queueFull
      else
        .ok (⟨cost, retained⟩, { b with
          tasks := b.tasks - 1
          localBytes := b.localBytes - cost
          workloadMemory := b.workloadMemory - cost })

end Budget

/-- `workload_reservation::adopt`: the other's allowance moves here, its task and its control
    charge go back. -/
def Reservation.adopt (held more : Reservation) (b : Budget) : Reservation × Budget :=
  let overhead := more.charged - more.retained
  (⟨held.charged + more.retained, held.retained + more.retained⟩, { b with
    tasks := b.tasks + 1
    localBytes := b.localBytes + overhead
    workloadMemory := b.workloadMemory + overhead })

/-! ## The index -/

/-- The `KWAQUE_INVARIANT`s of the index. -/
inductive IndexInvariant
  | frozen
  | order
  deriving DecidableEq

/-- `active_sparse_index`. `entries` are the anchors, then the blocks chosen that are not
    durable yet. -/
structure SparseIndex where
  held : Reservation := {}
  stride : Stride
  capacity : Nat
  entries : List Entry := []
  chunks : Nat := 0
  anchors : Nat := 0
  admitted : Nat := 0
  promised : Nat := 0
  skipped : Nat := 0
  frozen : Bool := false
  chosenBytes : Nat := 0
  offeredEnd : Nat := 0
  chosenRecords : Nat := 0
  since : Nat := 0
  fired : List IndexInvariant := []

namespace SparseIndex

/-- `KWAQUE_INVARIANT`. -/
def check (i : SparseIndex) (id : IndexInvariant) (held : Bool) : SparseIndex :=
  { i with fired := if held then i.fired else i.fired ++ [id] }

/-- `chosen_`. -/
def chosen (i : SparseIndex) : Nat := i.entries.length

/-- `admission`. -/
def admission (capacity : Nat) (b : Budget) : Except Errc Nat :=
  if capacity = 0 ∨ capacity > maximumObjectEntries then .error .invalidArgument
  else do
    let chunks := (capacity + pageEntries - 1) / pageEntries
    let list ← b.allocationCharge (chunks * chunkListBytes)
    let first ← b.allocationCharge (min capacity pageEntries * entryBytes)
    return list + first

/-- `make`: its list of chunks and its first chunk. -/
def make (stride : Stride) (capacity : Nat) (b : Budget) : Except Errc (SparseIndex × Budget) := do
  let total ← admission capacity b
  let (held, b) ← b.tryReserve total
  return ({ held, stride, capacity, chunks := 1, admitted := min capacity pageEntries }, b)

/-- The loop of `admit`: one chunk a turn, until what is wanted is admitted. -/
def admitChunks (wanted : Nat) :
    Nat → SparseIndex → Budget → Option Errc × SparseIndex × Budget
  | 0, i, b => (none, i, b)
  | fuel + 1, i, b =>
    if i.admitted < wanted then
      let entries := min pageEntries (i.capacity - i.admitted)
      match b.allocationCharge (entries * entryBytes) with
      | .error e => (some e, i, b)
      | .ok charged =>
        match b.tryReserve charged with
        | .error e => (some e, i, b)
        | .ok (more, b) =>
          let (held, b) := i.held.adopt more b
          admitChunks wanted fuel { i with held, admitted := i.admitted + entries } b
    else (none, i, b)

/-- `admit`, before a group of `blocks` blocks freezes. What it admitted before a refusal
    stays. -/
def admit_ (i : SparseIndex) (blocks : Nat) (b : Budget) : Option Errc × SparseIndex × Budget :=
  if i.frozen then (none, i, b)
  else
    let wanted := min i.capacity (i.chosen + i.promised + blocks)
    -- a chunk has at least one entry, so this many turns reach what is wanted
    match admitChunks wanted (wanted - i.admitted) i b with
    | (some e, i, b) => (some e, i, b)
    | (none, i, b) => (none, { i with promised := min i.capacity (i.promised + blocks) }, b)

/-- Whether the distances from the last chosen block leave a block out. -/
def passesOver (i : SparseIndex) (block : Coverage) : Bool :=
  i.chosen ≠ 0
    && decide (block.bytes.begin_ - i.chosenBytes < i.stride.bytes)
    && (decide (i.stride.records = 0)
      || decide (block.physical.begin_ - i.chosenRecords < i.stride.records))
    && decide (i.since < maximumAnchorBlocks)

/-- The last part of `written`: the block the stride chose takes its place in the table, if
    there is one. -/
def choose (i : SparseIndex) (block : Coverage) (allocates : Bool) : Bool × SparseIndex :=
  let i := i.check .order (i.entries.getLast?.all fun e => decide (e.anchor < block.logical.begin_))
  if i.chosen = i.capacity ∨ i.chosen = i.admitted then
    (false, { i with skipped := i.skipped + 1 })
  else if i.chosen / pageEntries = i.chunks ∧ allocates = false then
    (false, { i with skipped := i.skipped + 1 })
  else
    (true, { i with
      chunks := if i.chosen / pageEntries = i.chunks then i.chunks + 1 else i.chunks
      entries := i.entries ++ [⟨block.logical.begin_, block.bytes.begin_⟩]
      chosenBytes := block.bytes.begin_
      chosenRecords := block.physical.begin_
      since := 0 })

/-- The first part of `written`: one block of a group admitted for it was offered. -/
def offer (i : SparseIndex) (block : Coverage) : SparseIndex :=
  let i := i.check .frozen !i.frozen
  let i := { i with promised := i.promised - 1 }
  let i := i.check .order (decide (i.offeredEnd ≤ block.bytes.begin_))
  { i with offeredEnd := block.bytes.end_, since := i.since + 1 }

/-- `written`: one complete block whose bytes are written. True when it was chosen. -/
def written (i : SparseIndex) (block : Coverage) (allocates : Bool) : Bool × SparseIndex :=
  let i := i.offer block
  if block.logical.isEmpty || decide (block.logical.begin_ = noOffset) then (false, i)
  else
    let i := i.check .order
      (decide (i.chosen = 0) || decide (i.chosenRecords ≤ block.physical.begin_))
    if i.passesOver block then (false, i) else i.choose block allocates

/-- `durable`. -/
def durable (i : SparseIndex) (end_ : Nat) : SparseIndex :=
  let i := i.check .frozen !i.frozen
  { i with anchors := i.anchors
      + ((i.entries.drop i.anchors).takeWhile fun e => decide (e.position < end_)).length }

/-- `freeze`. -/
def freeze (i : SparseIndex) : SparseIndex := { i with frozen := true }

/-- What the index answers with: its durable anchors, oldest first. -/
def anchorList (i : SparseIndex) : List Entry := i.entries.take i.anchors

/-- `pages`. -/
def pages (i : SparseIndex) : Nat := (i.anchors + pageEntries - 1) / pageEntries

/-- `page`. -/
def page (i : SparseIndex) (ordinal : Nat) : List Entry :=
  let first := ordinal * pageEntries
  (i.entries.drop first).take (min pageEntries (i.anchors - first))

end SparseIndex

/-! ## Publishing it -/

/-- `validate_sparse_index_pages`, `encode_sparse_index_page` and `encode_sparse_index_root`
    under one context and its limits: whether a reader can admit an index of so many anchors,
    the bytes of a page with its reference, and the root's bytes. -/
structure IndexEncoder (Bytes Ref : Type) where
  validate : (anchors : Nat) → Except Errc Unit
  page : List Entry → (ordinal first : Nat) → Except Errc (Bytes × Ref)
  root : (count : Nat) → List Ref → (firstAnchors : List (Option Nat)) → Except Errc Bytes

/-- `publish_sparse_index`: the bundle it writes, its root and then its pages. -/
def publishSparseIndex {Bytes Ref : Type} (encoder : IndexEncoder Bytes Ref) (i : SparseIndex) :
    Except Errc (Bytes × List Bytes) :=
  if i.frozen = false ∨ i.anchors = 0 then .error .invalidArgument
  else do
    encoder.validate i.anchors
    let made ← (List.range i.pages).mapM fun o =>
      encoder.page (i.page o) o (o * pageEntries)
    let root ← encoder.root i.anchors (made.map (·.2))
      ((List.range i.pages).map fun o => (i.page o).head?.map (·.anchor))
    return (root, made.map (·.1))

/-! ## Building it again -/

/-- `sparse_index_context`: the sealed coverage and extent digest of a segment. -/
structure IndexContext where
  segment : Nat
  coverage : Coverage
  digest : Nat
  alignment : Nat
  profile : Nat
  deriving DecidableEq

/-- `segment_history_context`, as far as a rebuild reads it. -/
structure HistoryContext where
  segment : Nat
  alignment : Nat
  profile : Nat
  deriving DecidableEq

/-- One object a verification walk passed: a block with its coverage, or a footer. With it,
    whether memory for a chunk was there at that moment. -/
structure WalkedObject where
  block : Option Coverage
  allocates : Bool
  deriving DecidableEq

/-- What `verify_local_segment_extent` did: the objects it visited, and its evidence, the
    coverage and the digest of the extent, or why it has none. -/
structure ExtentWalk where
  objects : List WalkedObject
  evidence : Except Errc (Coverage × Option Nat)

/-- The visitor of the rebuild's walk. -/
def SparseIndex.visit (i : SparseIndex) (object : WalkedObject) : SparseIndex :=
  match object.block with
  | some block => (i.written block object.allocates).2
  | none => i

/-- `rebuild_sparse_index`. -/
def rebuildSparseIndex (history : HistoryContext) (expected : IndexContext) (stride : Stride)
    (budget : Budget) (walk : ExtentWalk) : Except Errc SparseIndex :=
  let covered := expected.coverage
  if covered.physical.isEmpty ∨ expected.segment ≠ history.segment
      ∨ expected.alignment ≠ history.alignment ∨ expected.profile ≠ history.profile then
    .error .invalidArgument
  else do
    let (index, _) ← SparseIndex.make stride (sealedCapacity stride covered) budget
    let index := walk.objects.foldl SparseIndex.visit index
    let (found, digest) ← walk.evidence
    if found ≠ covered ∨ digest ≠ some expected.digest then throw .corruptData
    if index.skipped ≠ 0 then throw .resourceExhausted
    return (index.durable covered.bytes.end_).freeze

end KwaqueStorage.Index
