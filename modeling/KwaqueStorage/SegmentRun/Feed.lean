import KwaqueStorage.SegmentRun.Content
import KwaqueStorage.Lib.Runs

/-!
# The feed of a segment's runs

While something reads a segment its writer's observer hands each group over as its bytes are made:
first its blocks (`note`), then a share of its bytes (`feed`). The feed's own work, or a reader that
cannot wait for it, takes the groups in order into the run that is filling, which ends where the
index chooses the next anchor. A run that is complete is published once what may be read has passed
it. A group that was not kept leaves a gap, and the run across the gap is given up.

One step for each call. What an allocation or the cache answered, how long a reader was away and how
far a reader's own catching up went are the environment's and part of the event.
-/

namespace KwaqueStorage.SegmentRun

open Scan Extent

/-- `maximum_fed_groups` and `maximum_fed_runs`. -/
def maximumFedGroups : Nat := 64

def maximumFedRuns : Nat := 64

/-- `noted_block`. -/
structure Noted where
  records : Coverage
  headerBytes : Nat
  bodyBytes : Nat
  paddingBytes : Nat
  chosen : Bool
  deriving DecidableEq

/-- `fed_group`. -/
structure Group where
  begin_ : Nat
  bytes : List UInt8
  blocks : List Noted
  /-- A group before this one was not kept. -/
  afterGap : Bool
  deriving DecidableEq

/-- `fed_run`. -/
structure FedRun where
  base : Nat
  building : Run
  closed : Bool := false
  deriving DecidableEq

/-- A run handed to the cache, and how far could be read then. -/
structure Published where
  base : Nat
  run : Run
  readable : Nat
  deriving DecidableEq

/-- `segment_runs_config`, as the feed reads it. -/
structure Config where
  runBytes : Nat
  feedBytes : Nat
  /-- A clock was configured. -/
  now : Bool
  deriving DecidableEq

/-- What an allocation, the budget or the cache answered. -/
inductive Answer
  | granted
  | refused
  | thrown
  deriving DecidableEq

/-- The feed of `segment_runs`. -/
structure Feed where
  wanted : Bool := false
  closing : Bool := false
  sealed_ : Bool := false
  finished : Bool := false
  skipping : Bool := true
  gap : Bool := false
  torn : Bool := false
  notedGroup : Bool := false
  lapsed : Bool := false
  established : Nat := 0
  durable : Nat := 0
  reported : Nat := 0
  readable : Nat := 0
  noted : List Noted := []
  waiting : List Group := []
  /-- Oldest first; only the last may still be filling. -/
  pending : List FedRun := []
  published : List Published := []
  deriving DecidableEq

/-- A noted block's row in a run that begins at `begin_`. -/
def Noted.row (begin_ : Nat) (block : Noted) : RunBlock :=
  { logical := block.records.logical
    physical := block.records.physical
    offset := block.records.bytes.begin_ - begin_
    bytes := block.records.bytes.end_ - block.records.bytes.begin_
    batchOffset := block.headerBytes + segmentBlockFixedBytes
    batchBytes := block.bodyBytes - segmentBlockFixedBytes - block.paddingBytes
    part := 0 }

namespace Feed

/-! ## The writer's observer -/

/-- `note`. What was noted of a group that could not be noted whole is never used. -/
def note (f : Feed) (blocks : List Noted) (torn : Bool) : Feed :=
  { f with
    noted := if f.wanted && !torn then blocks else []
    torn := f.wanted && torn
    notedGroup := true }

/-- `drop`. -/
def drop (f : Feed) : Feed := { f with gap := true, noted := [], notedGroup := false }

/-- The bytes of the groups that wait. -/
def waitingBytes (f : Feed) : Nat := (f.waiting.map fun group => group.bytes.length).sum

/-- `feed`: `idle` says the segment was not read for the configured time, and `kept` that the group
    could be shared. -/
def feed (config : Config) (f : Feed) (begin_ : Nat) (bytes : List UInt8) (idle kept : Bool) :
    Feed :=
  if f.established = 0 ∧ (config.now = false ∨ idle) then
    { f with wanted := false, lapsed := true }.drop
  else if f.torn ∨ f.notedGroup = false ∨ maximumFedGroups ≤ f.waiting.length
      ∨ config.runBytes < bytes.length ∨ config.feedBytes - f.waitingBytes < bytes.length then
    f.drop
  else if kept = false then f.drop
  else
    { f with
      waiting := f.waiting ++ [⟨begin_, bytes, f.noted, f.gap⟩]
      noted := []
      notedGroup := false
      gap := false }

/-- `readable`, after either of the two ends it follows moved. -/
def reach (f : Feed) : Feed := { f with readable := max f.readable (max f.durable f.reported) }

/-! ## The feed's own work -/

/-- `abandon`: gives up the run that is filling. -/
def abandon (f : Feed) : Feed :=
  { f with
    skipping := true
    pending :=
      match f.pending.getLast? with
      | some last => if last.closed then f.pending else f.pending.dropLast
      | none => f.pending }

/-- The runs that are complete and readable, and those left. -/
def publishable (readable : Nat) : List FedRun → List Published × List FedRun
  | [] => ([], [])
  | oldest :: rest =>
    if oldest.closed = false ∨ readable < oldest.building.end_ then ([], oldest :: rest)
    else
      let (done, left) := publishable readable rest
      (⟨oldest.base, oldest.building, readable⟩ :: done, left)

/-- `publish`. -/
def publish (f : Feed) : Feed :=
  { f with
    published := f.published ++ (publishable f.readable f.pending).1
    pending := (publishable f.readable f.pending).2 }

/-- The run that is filling ends where it is. -/
def closeFilling (f : Feed) : Feed :=
  match f.pending.getLast? with
  | none => f
  | some last => { f with pending := f.pending.dropLast ++ [{ last with closed := true }] }

/-- `begin_run`. -/
def beginRun (f : Feed) (block : Noted) (answer : Answer) : Feed :=
  let f := { f with skipping := true }
  if block.records.logical.begin_ = noOffset ∨ maximumFedRuns ≤ f.pending.length
      ∨ answer ≠ .granted then f
  else
    { f with
      pending := f.pending ++
        [{ base := block.records.logical.begin_
           building := { begin_ := block.records.bytes.begin_ } }]
      skipping := false }

/-- `append`: takes `[from_, until_)` of a group, which holds `held` of its blocks, into the run that
    is filling. -/
def append (config : Config) (f : Feed) (group : Group) (held : List Noted) (from_ until_ : Nat)
    (answer : Answer) : Option Feed :=
  match f.pending.getLast? with
  | none => none
  | some filling =>
    let run := filling.building
    if config.runBytes < run.end_ - run.begin_ + (until_ - from_) then none
    else if answer ≠ .granted then none
    else
      ((run.addPart (bytesAt group.bytes from_ (until_ - from_))).bind
        (·.addBlocks (held.map (Noted.row run.begin_)))).map fun building =>
          { f with pending := f.pending.dropLast ++ [{ filling with building }] }

/-- `take` at a block the index chose: the run before it ends where this block begins. The flag says
    an exception ended it. -/
def endRun (config : Config) (f : Feed) (group : Group) (held : List Noted) (from_ begins : Nat)
    (answer : Answer) : Feed × Bool :=
  if f.skipping then (f, false)
  else if from_ < begins then
    if answer = .thrown then (f, true)
    else
      match f.append config group held from_ begins answer with
      | none => (f.abandon, false)
      | some f => (f.closeFilling, false)
  else (f.closeFilling, false)

/-- `take`, from a block of the group on: `held` are the blocks, and `from_` the first byte, that go
    to the run that is filling. -/
def takeBlocks (config : Config) (group : Group) :
    List Noted → List Noted → Nat → List Answer → Feed → Feed × Bool
  | [], held, from_, answers, f =>
    let answer := answers.headD .granted
    if f.skipping then (f, false)
    else if answer = .thrown then (f, true)
    else ((f.append config group held from_ group.bytes.length answer).getD f.abandon, false)
  | block :: rest, held, from_, answers, f =>
    if block.chosen = false then takeBlocks config group rest (held ++ [block]) from_ answers f
    else
      let begins := block.records.bytes.begin_ - group.begin_
      let ended := f.endRun config group held from_ begins (answers.headD .granted)
      let answer := answers.tail.headD .granted
      if ended.2 then ended
      else if answer = .thrown then ({ ended.1 with skipping := true }, true)
      else
        -- and the next begins with it
        takeBlocks config group rest [block] begins answers.tail.tail (ended.1.beginRun block answer)

/-- `take_front`. -/
def takeFront (config : Config) (answers : List Answer) (f : Feed) : Feed :=
  match f.waiting with
  | [] => f
  | group :: rest =>
    let f := { f with waiting := rest }
    let f := if group.afterGap then f.abandon else f
    let taken := takeBlocks config group group.blocks [] 0 answers f
    (if taken.2 then taken.1.abandon else taken.1).publish

/-- One turn of `copy`. -/
def copy (config : Config) (answers : List Answer) (f : Feed) : Feed :=
  let f := if f.lapsed then { f with lapsed := false }.abandon else f
  if f.waiting = [] then
    if f.sealed_ ∧ f.finished = false then
      -- the run that was filling is whole, or is given up
      let f := { f with finished := true }
      (if f.gap ∨ f.skipping then f.abandon else f.closeFilling).publish
    else f.publish
  else f.takeFront config answers

/-- The loop of `catch_up`: as many groups as there are answers for, up to one after a gap. -/
def catchUpLoop (config : Config) : Nat → List (List Answer) → Feed → Feed
  | left + 1, answers :: more, f =>
    match f.waiting with
    | [] => f
    | front :: _ =>
      if front.afterGap ∨ f.lapsed then f
      else catchUpLoop config left more (f.takeFront config answers)
  | _, _, f => f

/-- `catch_up`: `answers` has one list for each group taken before as much was copied as one run
    holds. -/
def catchUp (config : Config) (target : Nat) (answers : List (List Answer)) (f : Feed) : Feed :=
  if f.closing ∨ f.finished ∨ f.lapsed then f
  else
    let holder := f.waiting.findIdx fun group =>
      group.blocks.getLast?.any fun last => decide (target < last.records.logical.end_)
    match f.waiting[holder]? with
    | none => f
    | some group =>
      if group.blocks.head?.any fun first => decide (target < first.records.logical.begin_) then f
      else catchUpLoop config (holder + 1) answers f

end Feed

/-! ## A segment and its feed -/

/-- A block as the observer is told of it. -/
def Laid.noted {codec : RunCodec} {history : History} (laid : Laid codec history) (chosen : Bool) :
    Noted :=
  { laid with chosen := chosen }

/-- What the segment's writer, its readers and its owner do. -/
inductive Event (codec : RunCodec) (history : History)
  /-- The writer makes a group: its blocks, with whether the index chose each, and its footer. -/
  | made (blocks : List (Laid codec history × Bool)) (footer : Option (LaidFooter codec))
      (torn idle kept : Bool)
  | durable (end_ : Nat)
  | reported (end_ : Nat)
  | touch
  | establish (readers : Nat)
  | copy (answers : List Answer)
  | catchUp (target : Nat) (answers : List (List Answer))
  | seal_
  | close

/-- A segment's file as its writer makes it, and the feed of its runs. -/
structure Segment (codec : RunCodec) (history : History) where
  objs : List (Obj codec history) := []
  feed : Feed := {}

namespace Segment

variable {codec : RunCodec} {history : History}

/-- Where the next object will lie. -/
def end_ (s : Segment codec history) : Nat := history.dataStart + (flat s.objs).length

/-- What the file holds at a position, once it is written. -/
def read (s : Segment codec history) (position length : Nat) : List UInt8 :=
  bytesAt (flat s.objs) (position - history.dataStart) length

instance decidableContinues : ∀ (logical physical position : Nat)
    (objs : List (Obj codec history)), Decidable (Continues logical physical position objs)
  | _, _, _, [] => .isTrue trivial
  | _, _, position, .block laid :: rest =>
    have := decidableContinues laid.records.logical.end_ laid.records.physical.end_
      (position + laid.bytes.length) rest
    inferInstanceAs (Decidable (_ ∧ _ ∧ _ ∧ _ ∧ _ ∧ _ ∧ _))
  | logical, physical, position, .footer laid :: rest =>
    decidableContinues logical physical (position + laid.bytes.length) rest

/-- The objects of a group. -/
def groupObjs (blocks : List (Laid codec history × Bool)) (footer : Option (LaidFooter codec)) :
    List (Obj codec history) :=
  blocks.map (fun b => .block b.1) ++ footer.toList.map .footer

/-- One step. After a drain nothing of the feed moves. -/
def step (config : Config) (s : Segment codec history) : Event codec history →
    Option (Segment codec history)
  | .made blocks footer torn idle kept =>
    let objs := groupObjs blocks footer
    if s.feed.sealed_ then none
    else if Continues (logicalEnd history.logicalOrigin s.objs)
        (physicalEnd history.physicalOrigin s.objs) s.end_ objs then
      let noted := s.feed.note (blocks.map fun b => b.1.noted b.2) torn
      -- `assemble_group` looks at what is wanted after it told of the blocks
      let feed := if noted.wanted then noted.feed config s.end_ (flat objs) idle kept else noted
      some { objs := s.objs ++ objs, feed }
    else none
  | .durable end_ => some { s with feed := { s.feed with durable := end_ }.reach }
  | .reported end_ => some { s with feed := { s.feed with reported := end_ }.reach }
  | .touch =>
    if s.feed.closing ∨ s.feed.sealed_ ∨ config.now = false then some s
    else some { s with feed := { s.feed with wanted := true } }
  | .establish readers =>
    let feed := { s.feed with established := readers }
    if feed.closing ∨ feed.sealed_ then some { s with feed }
    else if readers ≠ 0 then some { s with feed := { feed with wanted := true } }
    else if config.now = false ∧ feed.wanted then
      some { s with feed := { feed with wanted := false, gap := true, lapsed := true } }
    else some { s with feed }
  | .copy answers =>
    if s.feed.closing then none else some { s with feed := s.feed.copy config answers }
  | .catchUp target answers => some { s with feed := s.feed.catchUp config target answers }
  | .seal_ =>
    if s.feed.closing ∨ s.feed.sealed_ then some s
    else some { s with feed := { s.feed with sealed_ := true, wanted := false } }
  | .close =>
    if s.feed.closing then none
    else
      let feed := { s.feed with closing := true, wanted := false }.publish
      some { s with feed := { feed with pending := [], waiting := [] } }

/-- The runs of a segment's feed. -/
def system (codec : RunCodec) (history : History) (config : Config) :
    Lib.System (Segment codec history) (Event codec history) :=
  ⟨fun s => s = {}, step config⟩

end Segment

end KwaqueStorage.SegmentRun
