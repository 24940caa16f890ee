import KwaqueStorage.SegmentRun.Run

/-!
# A session's read

`segment_reader::read` looks for its offset in the run the cache keeps, in the run the segment's
writer feeds, and then asks the index for an anchor and has that anchor's run loaded: as the cache's
own, or for this reader alone from the file or from the writer's memory. It takes whole batches out
of each run until something stops it.

One value of `Answers` for each turn of the loop: what the cache, the feed, the index, the device and
the budget answered, and what the session's caller and owner did meanwhile. What the session notes
of its use of runs, and what it asks for ahead, change no read and are left out.
-/

namespace KwaqueStorage.SegmentRead

open Scan Extent SegmentRun

/-- `segment_read_bounds`. -/
structure Bounds where
  durable : Nat
  sealed_ : Option Nat
  visible : Nat
  shortOfVisibility : Bool
  deriving DecidableEq

/-- `segment_reader_config`, with the runs' own limit and what a batch adds to a read's table. -/
structure Config where
  fill : Bool
  outputBytes : Nat
  heldBytes : Nat
  runBytes : Nat
  tableCost : Nat → Nat

/-- `segment_read_position`. -/
structure Position where
  offset : Nat
  block : Option Nat
  deriving DecidableEq

/-- `segment_read_request`. -/
structure Request where
  from_ : Position
  limit : Nat
  atLeastOne : Bool
  deriving DecidableEq

/-- `segment_read_batch`. -/
structure Batch where
  logical : Span
  physical : Span
  bytes : List UInt8
  deriving DecidableEq

/-- `segment_read_stop`, a failure with its cause. -/
inductive Stop
  | limit
  | notYetVisible
  | endOfSegment
  | belowStart
  | shortOfVisibility
  | cancelled
  | failed (why : Errc)
  deriving DecidableEq

/-- `segment_read`. -/
structure Output where
  batches : List Batch
  next : Position
  stop : Stop
  wanted : Nat
  deriving DecidableEq

/-- `maximum_read_batches`. -/
def maximumReadBatches : Nat := 1024

/-- `unkept`: a run could not be had as the cache's own. -/
def unkept (code : Errc) : Bool := code = .queueFull ∨ code = .outOfRange

/-- `refused`: a request was turned away for want of room or of a turn. -/
def refused (code : Errc) : Bool := code = .queueFull ∨ code = .resourceExhausted

/-! ## What is in the file -/

/-- What a segment's file holds from its data start on. -/
structure File where
  dataStart : Nat
  bytes : List UInt8
  deriving DecidableEq

/-- All of a range, or nothing. -/
def File.read (file : File) (position length : Nat) : Except Errc (List UInt8) :=
  if position < file.dataStart ∨ file.bytes.length < position - file.dataStart + length then
    .error .truncatedData
  else .ok (bytesAt file.bytes (position - file.dataStart) length)

/-! ## Loading a run -/

/-- What `fetch` met: whether its segment's runs are closing, what the cache keeps under the run's
    base, whether the writer feeds it, what a load in flight came to, and what refused its own. -/
structure Fetching where
  closing : Bool := false
  hit : Option (Run × Bool) := none
  feeding : Bool := false
  joined : Option (Except Errc (Run × Bool)) := none
  /-- Before the cache was asked. -/
  refusal : Option Errc := none
  /-- By the cache, and whether the reader's budget then paid. -/
  crowded : Option Errc := none
  funded : Bool := false
  /-- What the device, or the budget of the check, answered to each load. -/
  device : Option Errc := none
  deviceAgain : Option Errc := none

/-- What an attempt at a private read met: a refusal before it and one after it, and what the device
    or the writer's memory answered in place of bytes. -/
structure Attempt where
  refusal : Option Errc := none
  device : Option Errc := none
  resized : Option Errc := none
  deriving DecidableEq

section Load

variable (codec : RunCodec) (history : History) (file : File) (config : Config)

/-- `load`. -/
def load (start : RunStart) (end_ : Nat) (device : Option Errc) : Except Errc Run :=
  match device with
  | some why => .error why
  | none =>
    (file.read start.position (end_ - start.position)).bind fun bytes =>
      (checkSegmentRun codec history start true bytes).map CheckedRun.run

/-- `fetch`; with a run, whether its reader's budget pays for it. -/
def fetch (start : RunStart) (end_ bound : Nat) (lends : Bool) (met : Fetching) :
    Except Errc (Run × Bool) :=
  if met.closing then .error .closed
  else
    match met.hit with
    | some hit => .ok hit
    | none =>
      if end_ ≤ start.position ∨ bound < end_ then .error .outOfRange
      else if config.runBytes < end_ - start.position then .error .outOfRange
      -- a run the writer is feeding is not waited for
      else if met.feeding then .error .queueFull
      else
        match met.joined with
        | some joined => joined
        | none =>
          match met.refusal with
          | some why => .error why
          | none =>
            let own : Except Errc Run :=
              match met.crowded with
              | some why => .error why
              | none => load codec history file start end_ met.device
            match own with
            | .ok run => .ok (run, false)
            | .error why =>
              if lends ∧ unkept why ∧ met.funded then
                (load codec history file start end_ met.deviceAgain).map fun run => (run, true)
              else .error why

/-- The attempts `read_alone` and `read_held` have in common: once with one read's worth, and once
    more for a first block that does not fit it. -/
def attempts (start : RunStart) (end_ : Nat) (met : Nat → Attempt) : Nat → Nat → Except Errc Run
  | 0, _ => .error .malformedData
  | left + 1, wanted =>
    match (met left).refusal with
    | some why => .error why
    | none =>
      match (met left).device with
      | some why => .error why
      | none =>
        (file.read start.position wanted).bind fun bytes =>
          (checkSegmentRun codec history start false bytes).bind fun checked =>
            if checked.run.end_ = start.position then
              let whole := checked.cut.getD 0
              if left = 0 ∨ whole ≤ wanted ∨ end_ - start.position < whole then
                .error .malformedData
              else attempts start end_ met left whole
            else
              match (met left).resized with
              | some why => .error why
              | none => .ok checked.run

/-- `read_alone`: `turned` says the segment's runs are closing, or the caller left. -/
def readAlone (start : RunStart) (end_ bound : Nat) (turned : Option Errc) (met : Nat → Attempt) :
    Except Errc Run :=
  match turned with
  | some why => .error why
  | none =>
    if end_ ≤ start.position ∨ bound < end_ then .error .outOfRange
    else
      attempts codec history file start end_ met 2 (min (end_ - start.position) config.runBytes)

/-- `read_held`: the writer's memory holds the same bytes, or no longer does. -/
def readHeld (start : RunStart) (end_ : Nat) (turned : Option Errc) (met : Nat → Attempt) :
    Except Errc Run :=
  match turned with
  | some why => .error why
  | none =>
    if end_ ≤ start.position then .error .outOfRange
    else
      attempts codec history file start end_ met 2 (min (end_ - start.position) config.runBytes)

end Load

/-! ## Taking batches -/

/-- What a turn's environment answered. -/
structure Answers where
  /-- The caller left, or the owner ended the session, before the turn. -/
  aborted : Bool := false
  revoked : Bool := false
  /-- An allocation of the turn's own failed. -/
  thrown : Bool := false
  /-- The cache's run with the greatest base at or below the cursor, and whether a reader's budget
      pays for it. -/
  kept : Option (Run × Bool) := none
  /-- The fed run with the greatest base at or below the cursor, and how far it may be read. -/
  fed : Option (Run × Nat) := none
  /-- The feed took groups that waited. -/
  caughtUp : Bool := false
  /-- The index's answer: an anchor's base and position, and where its run ends. -/
  located : Except Errc (Option (Nat × Nat × Nat)) := .ok none
  /-- The caller left while something was waited for. -/
  left : Bool := false
  /-- Where the file's bytes end as the turn decides whether to fetch, as it reads, and after. -/
  written : Nat := 0
  writtenThen : Nat := 0
  writtenAfter : Nat := 0
  fetched : Fetching := {}
  fetchedAgain : Fetching := {}
  turned : Option Errc := none
  attempt : Nat → Attempt := fun _ => {}
  /-- What keeping a run costs, and what the reader's budget says to it. -/
  pinned : Nat := 0
  charge : Option Errc := none
  /-- Whether the table of batches can grow. -/
  grows : Nat → Bool := fun _ => true

/-- `step`: why a run is left. -/
inductive Step
  | on
  | limit
  | durable
  | visible
  deriving DecidableEq

/-- What a read carries from turn to turn. -/
structure Loop where
  cursor : Nat
  hint : Option Nat
  batches : List Batch := []
  next : Position
  wanted : Nat := 0
  spent : Nat := 0
  keptBytes : Nat := 0
  charged : Option Nat := none
  resume : Option RunStart := none
  resumeEnd : Nat := 0
  barren : Option Nat := none
  reported : Bool := false
  deriving DecidableEq

namespace Loop

/-- The encoded bytes of the batches together. -/
def bytes (l : Loop) : Nat := (l.batches.map fun batch => batch.bytes.length).sum

/-- `forget_hint`. -/
def forgetHint (l : Loop) : Loop :=
  { l with
    hint := none
    next := if l.batches = [] then { l.next with block := none } else l.next }

section Take

variable (config : Config) (bound : Bounds) (request : Request) (answers : Answers) (run : Run)
  (readable : Nat) (cached : Bool)

/-- The reader's budget takes the run on, or the read ends here: with what it has, or, having
    nothing, with the refusal. -/
def pin (l : Loop) : Loop × Option (Except Errc Step) :=
  if cached = false ∨ l.charged = some run.begin_ then (l, none)
  else if l.batches ≠ [] ∧ config.heldBytes - l.keptBytes < answers.pinned then
    (l, some (.ok .limit))
  else
    match answers.charge with
    | some why => (l, some (if l.batches = [] then .error why else .ok .limit))
    | none =>
      ({ l with
        charged := some run.begin_
        keptBytes := l.keptBytes + min answers.pinned (config.heldBytes - l.keptBytes) }, none)

/-- What stops the read at a block, if anything does. -/
def offer (block : RunBlock) (l : Loop) : Loop × Option (Except Errc Step) :=
  -- what its caller may not see yet is not what this copy lacks
  if bound.visible < block.logical.end_ then (l, some (.ok .visible))
  else if readable < run.begin_ + block.offset + block.bytes then (l, some (.ok .durable))
  else if l.batches = [] ∧ request.atLeastOne = false ∧ request.limit < block.batchBytes then
    ({ l with wanted := block.batchBytes }, some (.ok .limit))
  else if l.batches ≠ [] ∧ (request.limit < l.bytes + block.batchBytes
      ∨ l.batches.length = maximumReadBatches
      ∨ config.outputBytes < l.spent + config.tableCost block.batchBytes) then
    (l, some (.ok .limit))
  else l.pin config answers run cached

/-- A batch is taken. -/
def push (at_ : Nat) (block : RunBlock) (bytes : List UInt8) (l : Loop) : Loop :=
  { l with
    batches := l.batches ++ [⟨block.logical, block.physical, bytes⟩]
    next := ⟨block.logical.end_, (run.after at_).map RunStart.position⟩
    spent := l.spent + config.tableCost block.batchBytes
    cursor := block.logical.end_
    hint := none }

/-- The loop of `take`, over the blocks that are left. -/
def takeFrom : List RunBlock → Nat → Loop → Loop × Except Errc Step
  | [], _, l => (l, .ok .on)
  | block :: rest, at_, l =>
    match l.offer config bound request answers run readable cached block with
    | (l, some why) => (l, why)
    | (l, none) =>
      match run.batch at_ with
      | none => (l, .error .outOfRange)
      | some bytes =>
        if answers.grows l.batches.length = false then (l, .error .resourceExhausted)
        else
          let l := l.push config run at_ block bytes
          -- enough: the run after this one is not read to find that out
          if request.limit ≤ l.bytes then (l, .ok .limit) else takeFrom rest (at_ + 1) l

/-- `take`. -/
def take (l : Loop) : Loop × Except Errc Step :=
  let first := run.seek l.cursor
  takeFrom config bound request answers run readable cached (run.blocks.drop first) first l

end Take

end Loop

/-! ## A turn -/

/-- How a turn ends: with the next one, or with the read's end. No reason is the one that is
    settled where the read returns. -/
inductive Turned
  | goes (l : Loop)
  | ends (l : Loop) (why : Option Stop)

/-- What the memory answered: a run that was taken from, that there is nothing to read, or
    nothing. -/
inductive Found
  | stepped (l : Loop) (why : Except Errc Step) (exhausted : Bool)
  | over
  | nothing

section Turn

variable (codec : RunCodec) (history : History) (file : File) (config : Config) (bound : Bounds)
  (request : Request) (answers : Answers)

/-- What a read stops for at the end of a sealed copy. -/
def sealedEnd : Stop :=
  match bound.sealed_ with
  | some records =>
    if bound.shortOfVisibility ∧ bound.visible ≤ records then .shortOfVisibility else .endOfSegment
  | none => .endOfSegment

/-- And when the next offset is past what its caller may see. -/
def unseen : Stop := if bound.shortOfVisibility then .shortOfVisibility else .notYetVisible

/-- `fail`. -/
def failure (why : Errc) : Stop :=
  if why = .aborted ∧ answers.left then .cancelled
  else .failed (if why = .aborted then .closed else why)

/-- `stopped`, where a run was left for a reason. -/
def stopped (l : Loop) : Step → Turned
  | .limit => .ends l (some .limit)
  | .visible => .ends l (some (unseen bound))
  | _ => .ends l none

/-- A run in memory, read as far as it may be. -/
def fromRun (run : Run) (readable : Nat) (cached : Bool) (l : Loop) : Option Found :=
  if run.seek l.cursor < run.blocks.length then
    let taken := l.take config bound request answers run readable cached
    some (.stepped taken.1 taken.2 (bound.durable ≤ run.end_))
  else if bound.durable ≤ run.end_ then some .over
  else none

/-- What the cache keeps, and then what the writer fed. -/
def fromMemory (l : Loop) : Found :=
  let kept := answers.kept.bind fun kept =>
    fromRun config bound request answers kept.1 bound.durable (!kept.2) l
  let fed := answers.fed.bind fun fed =>
    fromRun config bound request answers fed.1 (min bound.durable fed.2) true l
  (kept.orElse fun _ => fed).getD .nothing

/-- `in_file`. -/
def inFile (written : Nat) : Nat := min bound.durable written

/-- The start a place handed in names. -/
def placedStart (hint cursor : Nat) : Option RunStart :=
  let physical := history.physicalOrigin + (cursor - history.logicalOrigin)
  if u64Max < physical then none else some ⟨hint, cursor, physical⟩

/-- The run of a start: what was loaded, whether its budget pays for it, whether it is the cache's,
    and, when it was read for this reader alone, from where. -/
structure Loaded where
  result : Except Errc (Run × Bool)
  start : RunStart
  alone : Bool
  hinted : Bool
  heldFrom : Option Nat

/-- Loads the run of `start` up to `end_`; `answered` says the index named it. -/
def loadRun (l : Loop) (start : RunStart) (end_ : Nat) (answered whole : Bool) : Loaded :=
  let until_ := min end_ bound.durable
  let placed := l.hint.filter fun hint =>
    answered && decide (start.position < hint) && decide (hint < until_)
  let shared : Except Errc (Run × Bool) :=
    if whole ∧ config.fill ∧ end_ ≤ inFile bound answers.written then
      match fetch codec history file config start end_ end_ false answers.fetched with
      | .ok run => .ok run
      | .error why =>
        if unkept why ∧ placed = none then
          fetch codec history file config start end_ end_ true answers.fetchedAgain
        else .error why
    else .error .queueFull
  match shared with
  | .ok run => ⟨.ok run, start, false, false, none⟩
  | .error why =>
    if unkept why = false then ⟨.error why, start, true, false, none⟩
    else
      let hinted := placed.bind fun hint => placedStart history hint l.cursor
      let from_ := hinted.getD start
      let device := inFile bound answers.writtenThen
      if from_.position < device then
        ⟨(readAlone codec history file config from_ (min until_ device) device answers.turned
          answers.attempt).map fun run => (run, false), from_, true, hinted.isSome, none⟩
      else
        ⟨(readHeld codec history file config from_ until_ answers.turned answers.attempt).map
          fun run => (run, false), from_, true, hinted.isSome, some from_.position⟩

/-- A run that could not be loaded. -/
def refuse (l : Loop) (loaded : Loaded) (answered : Bool) (code : Errc) : Turned :=
  -- its writer wrote what this read went to its memory for, and let go of it
  if code = .outOfRange ∧ loaded.heldFrom.any (fun from_ => decide (from_ < answers.writtenAfter))
    then .goes l
  else if loaded.hinted ∧ code ≠ .aborted ∧ code ≠ .closed ∧ refused code = false then
    .goes l.forgetHint
  else if answered ∧ code = .wrongContext ∧ l.reported = false then
    .goes { l with reported := true }
  else if l.batches ≠ [] ∧ refused code then .ends l (some .limit)
  else .ends l (some (failure answers code))

/-- What follows a run that stopped short of its stretch's end. -/
def goOn (l : Loop) (run : Run) (start : RunStart) (until_ : Nat) : Loop :=
  if run.end_ < until_ then
    match run.blocks.getLast? with
    | none =>
      { l with
        resume := some ⟨run.end_, start.base, start.physical⟩, resumeEnd := until_, barren := none }
    | some last =>
      let resume := run.after (run.blocks.length - 1)
      { l with
        resume
        cursor := max l.cursor last.logical.end_
        resumeEnd := until_
        barren := if resume.isSome then none else l.barren }
  else l

/-- A run that was loaded is taken from. -/
def takeLoaded (l : Loop) (loaded : Loaded) (run : Run) (funded : Bool) (until_ : Nat) : Turned :=
  -- a place that led to no block at all was not the block's place
  if loaded.hinted ∧ run.blocks = [] then .goes l.forgetHint
  else
    let taken := l.take config bound request answers run bound.durable (!loaded.alone && !funded)
    match taken.2 with
    | .error why => .ends taken.1 (some (failure answers why))
    | .ok .on =>
      if bound.durable ≤ run.end_ then .ends taken.1 none
      else
        let barren :=
          if taken.1.batches.length = l.batches.length then some loaded.start.position
          else taken.1.barren
        .goes (goOn { taken.1 with barren } run loaded.start until_)
    | .ok why => stopped bound taken.1 why

/-- The run of a start, loaded and taken from. -/
def enter (l : Loop) (start : RunStart) (end_ : Nat) (answered whole : Bool) : Turned :=
  if bound.durable ≤ start.position then .ends l none
  else if l.barren = some start.position then .ends l (some (failure answers .malformedData))
  else
    let loaded := loadRun codec history file config bound answers l start end_ answered whole
    match loaded.result with
    | .error code => refuse answers l loaded answered code
    | .ok run =>
      takeLoaded config bound request answers l loaded run.1 run.2 (min end_ bound.durable)

/-- The index is asked for an anchor. -/
def locate (l : Loop) : Turned :=
  if answers.left then .ends l (some .cancelled)
  else
    match answers.located with
    | .error why =>
      if l.batches ≠ [] ∧ refused why then .ends l (some .limit)
      else .ends l (some (failure answers why))
    | .ok none => .ends l none
    | .ok (some (base, position, end_)) =>
      match segmentRunAt history base position with
      | none => .ends l (some (failure answers .wrongContext))
      | some start =>
        let whole := decide (end_ < bound.durable)
          || (decide (end_ = bound.durable) && bound.sealed_.isSome)
        enter codec history file config bound request answers l start end_ true whole

/-- One turn of the loop. -/
def turn (l : Loop) : Turned :=
  if answers.thrown then .ends l (some (failure answers .resourceExhausted))
  else if answers.aborted then .ends l (some .cancelled)
  else if answers.revoked then
    .ends l (some (if l.batches = [] then failure answers .closed else .limit))
  else if bound.sealed_.any (fun records => decide (records ≤ l.cursor)) then
    .ends l (some (sealedEnd bound))
  else if bound.visible ≤ l.cursor then .ends l (some (unseen bound))
  else if l.cursor = noOffset then .ends l none
  else
    match l.resume with
    | some start =>
      enter codec history file config bound request answers { l with resume := none } start
        l.resumeEnd false false
    | none =>
      match fromMemory config bound request answers l with
      | .over => .ends l none
      | .stepped l why exhausted =>
        match why with
        | .error why => .ends l (some (failure answers why))
        | .ok .on => if exhausted then .ends l none else .goes l
        | .ok why => stopped bound l why
      | .nothing =>
        if answers.caughtUp then .goes l
        else locate codec history file config bound request answers l

end Turn

/-! ## A read -/

section Read

variable (codec : RunCodec) (history : History) (file : File) (config : Config) (bound : Bounds)
  (request : Request)

/-- What the read returns. Nothing more lay below the durable bound: that is the end of a sealed
    segment only where its records end. -/
def output (l : Loop) (why : Option Stop) : Output :=
  { batches := l.batches
    next := l.next
    wanted := l.wanted
    stop := why.getD
      (if bound.sealed_.any (fun records => decide (records ≤ l.cursor)) then sealedEnd bound
        else .shortOfVisibility) }

/-- The loop, for as long as there are answers: nothing for a read that still waits. -/
def readLoop : List Answers → Loop → Option Output
  | [], _ => none
  | answers :: more, l =>
    match turn codec history file config bound request answers l with
    | .goes l => readLoop more l
    | .ends l why => some (output bound l why)

/-- What a read meets before its loop: the session revoked or reading, and no budget for its
    table. -/
structure Entry where
  revoked : Bool := false
  reading : Bool := false
  table : Option Errc := none
  deriving DecidableEq

/-- Where a read begins; a place no block can begin at is not followed. -/
def Loop.begin_ : Loop :=
  let l : Loop := { cursor := request.from_.offset, hint := request.from_.block, next := request.from_ }
  if request.from_.block.any (fun hint => decide (hint < history.dataStart)) then l.forgetHint else l

/-- `segment_reader::read`. -/
def read (entry : Entry) (answers : List Answers) : Option Output :=
  let nothing (stop : Stop) : Output := ⟨[], request.from_, stop, 0⟩
  if entry.revoked then some (nothing (.failed .closed))
  else if entry.reading then some (nothing (.failed .invalidArgument))
  else if request.from_.offset < history.logicalOrigin then some (nothing .belowStart)
  else if bound.sealed_.any (fun records => decide (records ≤ request.from_.offset)) then
    some (nothing (sealedEnd bound))
  else if bound.visible ≤ request.from_.offset then some (nothing (unseen bound))
  else
    match entry.table with
    | some why => some (nothing (failure {} why))
    | none => readLoop codec history file config bound request answers (Loop.begin_ history request)

end Read

end KwaqueStorage.SegmentRead
