import KwaqueStorage.Base.Types
import KwaqueStorage.Lib.Checks
import KwaqueStorage.Lib.Orders

/-!
# Putting unordered entries in order

`canonicalize_unordered` takes entries in any order and gives back the one strict arrangement of them, or
says that there is none. It does so in bounded memory and in bounded steps: the entries are cut into runs
that the allocator can serve, each run is sorted on its own, and the runs are merged through a heap of their
fronts. Two equivalent entries may lie in different runs, so they are only found where they come out next
to each other.

An entry is in one place at any time: in the input, in a cell of a run, or in the output. A cell whose entry
was moved out is empty, and stays a cell. Whatever ends the work early, the entries are drained from
wherever they are.

Between any two steps leave is asked of the environment (to go on, to allocate), and it may refuse, or throw.
-/

namespace KwaqueStorage.Collection

open Lib

variable {α κ : Type}

/-! ## What the call is given -/

/-- `errc` with the place it is reported at; what stands for the family and the field is the caller's. -/
structure CollectionError (κ : Type) where
  code : Errc
  subject : κ
  offset : Nat
  deriving DecidableEq

/-- `field_context`. -/
structure Context (κ : Type) where
  subject : κ
  origin : Nat
  deriving DecidableEq

/-- `collection_error`, at the origin. -/
def Context.error (context : Context κ) (code : Errc) : CollectionError κ :=
  ⟨code, context.subject, context.origin⟩

/-- What `sizeof` and `alignof` say of the types that are allocated. -/
structure Sizes where
  entry : Nat
  entryAlignment : Nat
  pointer : Nat := 8
  unsigned : Nat := 4
  vector : Nat := 24
  heapEntry : Nat := 24
  deriving DecidableEq

/-- `limits_config`, as far as it is read here. -/
structure Ceilings where
  maxObjectEntries : Nat := 65536
  maxAllocationBytes : Nat := 131072
  maxScratchBytes : Nat := 1048576
  maxMetadataBytes : Nat := 1048576
  maxOperationBytes : Nat := 67108864
  deriving DecidableEq

/-- `decode_budget`; `charge` says what the allocator serves for a request, and may be null. -/
structure DecodeBudget where
  metadataRemaining : Nat
  operationRemaining : Nat
  charge : Option (Nat → Nat)

/-- Where leave is asked. -/
inductive Gate
  | start
  | empty
  | probe (runSize : Nat)
  | setup
  | run (index : Nat)
  | entry (run index : Nat)
  | sorting (run : Nat)
  | sorted (run : Nat)
  | push (run : Nat)
  | merge (position : Nat)
  | grow (position : Nat)
  | finish
  deriving DecidableEq

/-- Why the work ended early: an error, or an exception. -/
inductive Stop
  | refused (code : Errc)
  | thrown
  deriving DecidableEq

/-- What one call is given beside the entries. -/
structure Task (α κ : Type) where
  order : WeakOrder α
  library : Algorithms
  sizes : Sizes
  chunkEntries : Nat
  ceilings : Ceilings
  byteQuantum : Nat
  itemQuantum : Nat
  memory : DecodeBudget
  environment : Gate → Option Stop
  context : Context κ

/-! ## Admission -/

namespace Task

variable (task : Task α κ)

/-- `collection_charge`. -/
def collectionCharge (charge : Nat → Nat) (requested : Nat) : Except Stop Nat :=
  if requested = 0 then .ok 0
  else do
    require (requested ≤ charge requested) (.refused .invalidArgument)
    pure (charge requested)

/-- `checked_add` and `checked_mul`: an amount that does not fit in 64 bits. -/
def amount (value : Nat) : Except Stop Nat :=
  if value < 2 ^ 64 then .ok value else .error (.refused .outOfRange)

/-- `collection_chunk_bytes`. -/
def chunkBytes : Nat :=
  let alignment := max task.sizes.entryAlignment task.sizes.pointer
  let bytes := task.chunkEntries * task.sizes.entry + task.sizes.pointer + 2 * task.sizes.unsigned
  (bytes + alignment - 1) / alignment * alignment

/-- `collection_allocation`. -/
inductive Allocation
  | retainedInput
  | output
  | scratch
  deriving DecidableEq

/-- What was charged so far. -/
structure Charged where
  allMetadata : Nat := 0
  scratch : Nat := 0
  deriving DecidableEq

/-- `charge_many`. -/
def chargeMany (charge : Nat → Nat) (requested allocations : Nat) (kind : Allocation)
    (charged : Charged) : Except Stop Charged := do
  let served ← collectionCharge charge requested
  require (kind = .retainedInput ∨ served ≤ task.ceilings.maxAllocationBytes)
    (.refused .resourceExhausted)
  let total ← amount (served * allocations)
  let allMetadata ← amount (charged.allMetadata + total)
  if kind = .scratch then do
    let scratch ← amount (charged.scratch + total)
    pure ⟨allMetadata, scratch⟩
  else pure ⟨allMetadata, charged.scratch⟩

/-- `limits::remaining_operation_bytes`, of decoded metadata alone. -/
def remainingOperationBytes (decodedMetadata : Nat) : Except Stop Nat := do
  require (decodedMetadata ≤ task.ceilings.maxMetadataBytes) (.refused .resourceExhausted)
  let available := min task.ceilings.maxOperationBytes task.memory.operationRemaining
  require (decodedMetadata ≤ available) (.refused .resourceExhausted)
  pure (available - decodedMetadata)

/-- `validate_collection_memory`. -/
def validateCollectionMemory (charge : Nat → Nat) (count runSize runCount : Nat) :
    Except Stop Unit := do
  let chunks := count / task.chunkEntries + (if count % task.chunkEntries ≠ 0 then 1 else 0)
  let charged ← task.chargeMany charge task.chunkBytes (chunks + 1) .retainedInput {}
  let charged ← task.chargeMany charge task.chunkBytes chunks .output charged
  let charged ← task.chargeMany charge (runSize * task.sizes.entry) (count / runSize) .scratch charged
  let charged ←
    if count % runSize ≠ 0 then
      task.chargeMany charge (count % runSize * task.sizes.entry) 1 .scratch charged
    else pure charged
  let charged ← task.chargeMany charge (runCount * task.sizes.vector) 1 .scratch charged
  let charged ← task.chargeMany charge (runCount * task.sizes.heapEntry) 1 .scratch charged
  require
    (charged.scratch ≤ task.ceilings.maxScratchBytes ∧
      charged.allMetadata ≤ min task.memory.metadataRemaining task.ceilings.maxMetadataBytes)
    (.refused .resourceExhausted)
  let _ ← task.remainingOperationBytes charged.allMetadata
  pure ()

/-- Asking for leave. -/
def ask (gate : Gate) : Except Stop Unit :=
  match task.environment gate with
  | none => .ok ()
  | some stop => .error stop

/-- The longest run that the allocator serves in one piece, from a size downwards. -/
def probe (charge : Nat → Nat) : Nat → Except Stop Nat
  | 0 => .error (.refused .resourceExhausted)
  | size + 1 => do
    task.ask (.probe (size + 1))
    let runBytes ← collectionCharge charge ((size + 1) * task.sizes.entry)
    if runBytes ≤ task.ceilings.maxAllocationBytes then pure (size + 1) else probe charge size

/-- `std::bit_width`. -/
def bitWidth (n : Nat) : Nat := if n = 0 then 0 else n.log2 + 1

/-- The steps on the heap and those of the teardown each fit in one quantum of work. -/
def quantumFits (runCount : Nat) : Prop :=
  let heapItems := 8 * bitWidth runCount + 16
  heapItems ≤ task.itemQuantum ∧
    heapItems * (task.sizes.heapEntry + 2 * task.sizes.entry) ≤ task.byteQuantum ∧
    max (2 * task.sizes.heapEntry) (2 * task.sizes.vector) ≤ task.byteQuantum

instance (runCount : Nat) : Decidable (task.quantumFits runCount) := by
  unfold quantumFits
  infer_instance

/-- What is settled before an entry moves: the length of the runs, or that there is nothing to do. -/
def plan (charge : Nat → Nat) (count : Nat) : Except Stop Nat := do
  task.ask .start
  require (count ≤ task.ceilings.maxObjectEntries) (.refused .resourceExhausted)
  if count = 0 then do
    task.ask .empty
    pure 0
  else do
    let runSize ← task.probe charge (min count (min 64 (8192 / task.sizes.entry)))
    let runCount := count / runSize + (if count % runSize ≠ 0 then 1 else 0)
    require (task.quantumFits runCount) (.refused .resourceExhausted)
    task.validateCollectionMemory charge count runSize runCount
    task.ask .setup
    pure runSize

end Task

/-! ## What is owned, and the steps -/

/-- `heap_entry`: a cell of a run, and the entry it holds. -/
structure HeapEntry (α : Type) where
  value : α
  listIndex : Nat
  at_ : Nat
  deriving DecidableEq

/-- Where the entries are. -/
structure Owned (α : Type) where
  input : List α
  runs : List (List (Option α)) := []
  heap : List (HeapEntry α) := []
  output : List α := []
  deriving DecidableEq

/-- The entries, wherever they are. -/
def Owned.entries (owned : Owned α) : List α :=
  owned.input ++ owned.runs.flatten.reduceOption ++ owned.output

/-- The owned entries with one more run, of entries that no cell has lost. -/
def Owned.withRun (owned : Owned α) (input run : List α) : Owned α :=
  { owned with input := input, runs := owned.runs ++ [run.map some] }

/-- A part of the work: what is owned after it, and why it ended early, if it did. -/
abbrev Phase (α : Type) := Owned α → Owned α × Option Stop

/-- One part after another. -/
def Phase.next (first second : Phase α) : Phase α := fun owned =>
  match first owned with
  | (after, none) => second after
  | (after, some stop) => (after, some stop)

namespace Task

variable (task : Task α κ)

/-- `heap_less`. -/
def heapOrder : WeakOrder (HeapEntry α) := task.order.dual.comap HeapEntry.value

/-- One run takes entries from the front of the input. -/
def fillRun (run : Nat) : Nat → Nat → List α → List α → List α × List α × Option Stop
  | 0, _, input, entries => (input, entries, none)
  | left + 1, index, input, entries =>
    match task.environment (.entry run index), input with
    | some stop, _ => (input, entries, some stop)
    | none, [] => (input, entries, none)
    | none, entry :: input => fillRun run left (index + 1) input (entries ++ [entry])

/-- The runs, each filled and sorted; a turn takes at least one entry, so there are no more turns than
    entries. -/
def buildRuns (runSize : Nat) : Nat → Phase α
  | 0, owned => (owned, none)
  | turns + 1, owned =>
    if owned.input = [] then (owned, none)
    else
      let run := owned.runs.length
      match task.environment (.run run) with
      | some stop => (owned, some stop)
      | none =>
        match task.fillRun run (min runSize owned.input.length) 0 owned.input [] with
        | (input, entries, some stop) => (owned.withRun input entries, some stop)
        | (input, entries, none) =>
          match task.environment (.sorting run) with
          | some stop => (owned.withRun input entries, some stop)
          | none =>
            let owned := owned.withRun input (task.library.sort task.order entries)
            match task.environment (.sorted run) with
            | some stop => (owned, some stop)
            | none => buildRuns runSize turns owned

/-- What a cell holds. -/
def cell (runs : List (List (Option α))) (run index : Nat) : Option α :=
  (runs[run]?.bind fun cells => cells[index]?).join

/-- A cell, emptied. -/
def clear (runs : List (List (Option α))) (run index : Nat) : List (List (Option α)) :=
  runs.modify run fun cells => cells.set index none

/-- The heap with the entry of one more cell, if there is one. -/
def pushCell (runs : List (List (Option α))) (run index : Nat) (heap : List (HeapEntry α)) :
    List (HeapEntry α) :=
  match cell runs run index with
  | some value => task.library.pushHeap task.heapOrder (heap ++ [⟨value, run, index⟩])
  | none => heap

/-- The front of each run goes on the heap; `left` runs are still to come. -/
def pushFronts : Nat → Nat → Phase α
  | 0, _, owned => (owned, none)
  | left + 1, run, owned =>
    match task.environment (.push run) with
    | some stop => (owned, some stop)
    | none => pushFronts left (run + 1) { owned with heap := task.pushCell owned.runs run 0 owned.heap }

/-- The merge: the least of the fronts moves to the output, unless it is not past what came before it. -/
def merge : Nat → Phase α
  | 0, owned => (owned, none)
  | turns + 1, owned =>
    if owned.heap = [] then (owned, none)
    else
      match task.environment (.merge owned.output.length) with
      | some stop => (owned, some stop)
      | none =>
        let popped := task.library.popHeap task.heapOrder owned.heap
        match popped.getLast? with
        | none => (owned, none)
        | some top =>
          let owned := { owned with heap := popped.dropLast }
          if (owned.output.getLast?.all fun last => task.order.less last top.value) = false then
            (owned, some (.refused .malformedData))
          else
            match task.environment (.grow owned.output.length) with
            | some stop => (owned, some stop)
            | none =>
              let output := owned.output ++ (cell owned.runs top.listIndex top.at_).toList
              let runs := clear owned.runs top.listIndex top.at_
              merge turns
                { owned with
                  runs := runs, output := output,
                  heap := task.pushCell runs top.listIndex (top.at_ + 1) owned.heap }

/-- Everything between taking the source and the teardown. -/
def body (charge : Nat → Nat) (source : List α) : Owned α × Option Stop :=
  match task.plan charge source.length with
  | .error stop => (⟨source, [], [], []⟩, some stop)
  | .ok runSize =>
    Phase.next (task.buildRuns runSize source.length)
      (Phase.next (fun owned => task.pushFronts owned.runs.length 0 owned) (task.merge source.length))
      ⟨source, [], [], []⟩

end Task

/-! ## The call -/

/-- How a call fails. -/
inductive Failure (κ : Type)
  | error (error : CollectionError κ)
  | exception
  deriving DecidableEq

def Stop.report (context : Context κ) : Stop → Failure κ
  | .refused code => .error (context.error code)
  | .thrown => .exception

/-- What the caller sees, and where every entry went that is not in the result: it stayed in the source,
    or was drained. -/
structure Outcome (α κ : Type) where
  result : Except (Failure κ) (List α)
  kept : List α
  drained : List α

/-- The teardown of what is left of the input and of the runs, in its order. -/
def Owned.leftovers (owned : Owned α) : List α :=
  owned.input ++ owned.runs.reverse.flatMap fun run => run.reverse.reduceOption

/-- `canonicalize_unordered`. -/
def canonicalizeUnordered (task : Task α κ) (freeChunks : Nat) (source : List α) : Outcome α κ :=
  match task.memory.charge with
  | none => ⟨.error (.error (task.context.error .invalidArgument)), source, []⟩
  | some charge =>
    if freeChunks ≠ 0 then ⟨.error (.error (task.context.error .invalidArgument)), source, []⟩
    else if source ≠ [] ∧ (task.byteQuantum < 2 * task.sizes.entry ∨ task.itemQuantum < 2) then
      ⟨.error (.error (task.context.error .resourceExhausted)), source, []⟩
    else
      let done := task.body charge source
      -- the last question is asked after the teardown, and only of work that did not end early
      match done.2.or (task.environment .finish) with
      | some stop =>
        ⟨.error (stop.report task.context), [], done.1.leftovers ++ done.1.output⟩
      | none => ⟨.ok done.1.output, [], done.1.leftovers⟩

end KwaqueStorage.Collection
