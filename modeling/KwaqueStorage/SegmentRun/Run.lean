import KwaqueStorage.Extent.Format
import KwaqueStorage.Scan.Reader

/-!
# Runs of a segment

A `segment_run` is the complete blocks of a segment from one block start to another, with the
footers between them: the bytes, in the parts they came in, and a table of the blocks. It is made
in two ways. `check_segment_run` walks bytes that were read back and checks each object where it
lies; `segment_run_builder` is also handed parts and blocks by the feed, which has them from the
segment's own writer.

The envelope and block codecs are a parameter. What a run costs, and the allocations and budgets
that can refuse it at any point, are left out of the walk.
-/

namespace KwaqueStorage.SegmentRun

open Scan Extent

/-- `maximum_run_blocks`. -/
def maximumRunBlocks : Nat := 2048

/-- `maximum_run_parts`. -/
def maximumRunParts : Nat := 64

/-- `segment_block_fixed_bytes`. -/
def segmentBlockFixedBytes : Nat := 144

/-- The greatest value is no `range_logical_offset`, only an end of one. -/
def noOffset : Nat := u64Max

/-- `segment_run_block`. -/
structure RunBlock where
  logical : Span
  physical : Span
  offset : Nat
  bytes : Nat
  batchOffset : Nat
  batchBytes : Nat
  part : Nat
  deriving DecidableEq

/-- `segment_run::part`. -/
structure Part where
  offset : Nat
  bytes : List UInt8
  deriving DecidableEq

/-- `segment_run`, less what it is charged. -/
structure Run where
  begin_ : Nat
  size : Nat := 0
  parts : List Part := []
  blocks : List RunBlock := []
  deriving DecidableEq

/-- `segment_run_start`. -/
structure RunStart where
  position : Nat
  base : Nat
  physical : Nat
  deriving DecidableEq

/-- `segment_run_at`: the start an anchor names in an appended extent. -/
def segmentRunAt (history : History) (base position : Nat) : Option RunStart :=
  if base < history.logicalOrigin then none
  else
    let physical := history.physicalOrigin + (base - history.logicalOrigin)
    if u64Max < physical then none else some ⟨position, base, physical⟩

namespace Run

/-- `segment_run::end`. -/
def end_ (run : Run) : Nat := run.begin_ + run.size

/-- The bytes of all its parts. -/
def bytes (run : Run) : List UInt8 := (run.parts.map Part.bytes).flatten

/-- `segment_run::seek`: the first block that does not end at or before the target. -/
def seek (run : Run) (target : Nat) : Nat :=
  run.blocks.findIdx fun block => decide (target < block.logical.end_)

/-- `segment_run::after`: where whatever follows a block begins. -/
def after (run : Run) (at_ : Nat) : Option RunStart :=
  match run.blocks[at_ + 1]? with
  | some next => some ⟨run.begin_ + next.offset, next.logical.begin_, next.physical.begin_⟩
  | none =>
    match run.blocks[at_]? with
    | none => none
    | some last =>
      if last.logical.end_ = noOffset then none
      else some ⟨run.end_, last.logical.end_, last.physical.end_⟩

/-- `segment_run::batch`: the encoded batch of one block. -/
def batch (run : Run) (at_ : Nat) : Option (List UInt8) :=
  match run.blocks[at_]? with
  | none => none
  | some block =>
    match run.parts[block.part]? with
    | none => none
    | some held =>
      let offset := block.offset - held.offset + block.batchOffset
      if offset + block.batchBytes ≤ held.bytes.length then
        some ((held.bytes.drop offset).take block.batchBytes)
      else none

/-! ## The builder -/

/-- `segment_run_builder::part`. -/
def addPart (run : Run) (bytes : List UInt8) : Option Run :=
  if run.parts.length = maximumRunParts then none
  else
    let offset := (run.parts.getLast?.map fun last => last.offset + last.bytes.length).getD 0
    some { run with parts := run.parts ++ [⟨offset, bytes⟩], size := offset + bytes.length }

/-- `segment_run_builder::block`. -/
def addBlock (run : Run) (described : RunBlock) : Option Run :=
  if run.parts = [] ∨ run.blocks.length = maximumRunBlocks then none
  else some { run with blocks := run.blocks ++ [{ described with part := run.parts.length - 1 }] }

/-- Each block of a table in turn. -/
def addBlocks (run : Run) : List RunBlock → Option Run
  | [] => some run
  | block :: rest => (run.addBlock block).bind fun run => run.addBlocks rest

end Run

/-! ## Checking bytes that were read back -/

/-- `checked_segment_block`, less its stamps. -/
structure CheckedBlock where
  coverage : Coverage
  childOffset : Nat
  childBytes : Nat
  deriving DecidableEq

/-- What a check of a run asks of the codecs. -/
structure RunCodec extends Envelope where
  /-- The family an object's fixed prefix names. -/
  family : List UInt8 → Nat
  /-- `check_segment_block` of exactly one object's bytes. -/
  checkBlock : List UInt8 → BlockExpectation → Except Errc CheckedBlock

/-- `checked_segment_run`. -/
structure CheckedRun where
  run : Run
  cut : Option Nat
  deriving DecidableEq

/-- `object_error`: what a failed check of one object means for the run. -/
def objectError (code : Errc) (first : Bool) : Errc :=
  match code with
  | .aborted | .closed | .queueFull | .resourceExhausted | .invariantViolation | .corruptData
  | .unsupportedFormat => code
  | .wrongContext => if first then .wrongContext else .malformedData
  | _ => .malformedData

/-- What the walk has taken: the table, and where the next object begins. -/
structure Walked where
  blocks : List RunBlock
  offset : Nat
  logical : Nat
  physical : Nat
  deriving DecidableEq

/-- What the walk makes of the object it stands at. -/
inductive Object
  /-- The walk stops here; the bytes may end inside an object of this length. -/
  | stop (cut : Option Nat)
  | footer (length : Nat)
  | block (length : Nat) (checked : CheckedBlock)
  deriving DecidableEq

section Check

variable (codec : RunCodec) (history : History) (start : RunStart) (whole : Bool)
  (bytes : List UInt8)

/-- Where the start names a block, or where the block before it ends. -/
def blockExpectation (w : Walked) : BlockExpectation :=
  ⟨⟨history.segment, history.alignment, w.physical, start.position + w.offset⟩, history.dataStart,
    { topic := history.segment.topic, range := history.segment.range }, history.profile⟩

/-- What the header's own checksum must bear out: a refusal, or a footer to be passed over. -/
def headed (w : Walked) (refusal : Option Errc) (length : Nat) : Except Errc Object :=
  let first := w.blocks.isEmpty
  let remaining := bytes.length - w.offset
  let header := headerBytes (bytesAt bytes w.offset envelopePrefixBytes)
  if header > remaining then .error .malformedData
  else if codec.headerCrc (bytesAt bytes w.offset header) = false then .error .corruptData
  else
    match refusal with
    | some why => .error (objectError why first)
    | none => if first && whole then .error .wrongContext else .ok (.footer length)

/-- The object at the walk's offset. -/
def objectAt (w : Walked) : Except Errc Object :=
  let first := w.blocks.isEmpty
  let remaining := bytes.length - w.offset
  if remaining < envelopePrefixBytes then .error .malformedData
  else
    let raw := bytesAt bytes w.offset envelopePrefixBytes
    -- zeroes below a durable position are bytes nobody wrote there
    if raw.all (· = 0) then .error .malformedData
    else
      match codec.peekPrefix raw with
      | .error why =>
        if why.bodyExtent = false then .error .malformedData
        else headed codec whole bytes w (some why.code) 0
      | .ok length =>
        if length > remaining then
          if whole then headed codec whole bytes w (some .malformedData) 0
          else .ok (.stop (some length))
        else if codec.family raw = footerFamily then headed codec whole bytes w none length
        else if codec.family raw ≠ blockFamily then
          headed codec whole bytes w (some .wrongContext) 0
        else if w.blocks.length = maximumRunBlocks then
          if whole then .error .outOfRange else .ok (.stop none)
        else
          match codec.checkBlock (bytesAt bytes w.offset length)
            (blockExpectation history start w) with
          | .error why => .error (objectError why first)
          | .ok checked =>
            let begins := checked.coverage.logical.begin_
            -- the first block is the one the start names; a later one does not go back
            if (if first then begins ≠ w.logical else begins < w.logical) then
              .error (objectError .wrongContext first)
            else .ok (.block length checked)

/-- The table's row of a checked block. -/
def rowOf (offset length : Nat) (checked : CheckedBlock) : RunBlock :=
  ⟨checked.coverage.logical, checked.coverage.physical, offset, length, checked.childOffset,
    checked.childBytes, 0⟩

/-- The walk. Each object is as long as its header at least, so a turn for each byte is enough. -/
def walkRun : Nat → Walked → Except Errc (Walked × Option Nat)
  | 0, w => .ok (w, none)
  | left + 1, w =>
    if bytes.length ≤ w.offset then .ok (w, none)
    else
      match objectAt codec history start whole bytes w with
      | .error why => .error why
      | .ok (.stop cut) => .ok (w, cut)
      | .ok (.footer length) => walkRun left { w with offset := w.offset + length }
      | .ok (.block length checked) =>
        walkRun left
          { blocks := w.blocks ++ [rowOf w.offset length checked]
            offset := w.offset + length
            logical := checked.coverage.logical.end_
            physical := checked.coverage.physical.end_ }

/-- `check_segment_run`. -/
def checkSegmentRun : Except Errc CheckedRun :=
  if bytes = [] ∨ start.position < history.dataStart then .error .invalidArgument
  else
    match walkRun codec history start whole bytes (bytes.length + 1)
      ⟨[], 0, start.base, start.physical⟩ with
    | .error why => .error why
    | .ok (w, cut) =>
      match (({ begin_ := start.position } : Run).addPart bytes).bind (·.addBlocks w.blocks) with
      | none => .error .outOfRange
      | some run => .ok ⟨{ run with size := w.offset }, cut⟩

end Check

end KwaqueStorage.SegmentRun
