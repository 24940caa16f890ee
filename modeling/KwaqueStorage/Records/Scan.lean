import KwaqueStorage.Records.Codec

/-!
# Scanning a region of records

`record_region_scanner` walks a region record by record. Each step names the bytes of one record without
sharing them and checks the region's own rules as it goes: the order of the records, their number, the
number of their headers, and that nothing lies behind the last. A step that fails ends the scanner for
good. A record that was stepped to can be materialized: it is decoded again, from its own bytes.
-/

namespace KwaqueStorage.Records

open Extent (u64Max)
open Layout Lib

/-- `record_region_kind`. -/
inductive RegionKind
  | denseOriginal
  | sparse
  deriving DecidableEq

/-- `record_region_context`. -/
structure RegionContext where
  timestampBase : Int64
  originalCount : Nat
  retainedCount : Nat
  headerCount : Nat
  kind : RegionKind
  deriving DecidableEq

/-- What a record of a region is decoded against, with so many headers spent. -/
def RegionContext.record (expected : RegionContext) (headers : Nat) : DecodeContext :=
  ⟨expected.timestampBase, expected.originalCount, expected.headerCount - headers⟩

/-- `record_layout`. -/
structure RecordLayout where
  shape : Shape ByteRange
  encoded : ByteRange
  deriving DecidableEq

/-- `sizeof(record_layout)`: the fields, four ranges and a count, and sixty-four headers of forty bytes. -/
def layoutBytes : Nat := 24 + 16 + 24 + 24 + 64 * 40 + 8

/-- `limits::validate_batch_counts`. -/
def validateBatchCounts (policy : Limits) (original retained headers : Nat) : Except Errc Unit := do
  require (original ≠ 0 ∧ retained ≠ 0 ∧ retained ≤ original) .invalidArgument
  require (original ≤ policy.config.maxOriginalRecords ∧ headers ≤ policy.config.maxBatchHeaders)
    .resourceExhausted
  require (headers ≤ retained * policy.config.maxRecordHeaders) .resourceExhausted

/-- `record_region_scanner`. -/
structure Scanner where
  region : Buffer
  parser : Parser
  expected : RegionContext
  policy : Limits
  context : FieldContext
  current : Option RecordLayout := none
  index : Nat := 0
  headers : Nat := 0
  previousDelta : Nat := 0
  terminal : Bool := false
  complete : Bool := false

namespace Scanner

/-- `record_region_scanner::make`. -/
def make (env : Environment) (policy : Limits) (expected : RegionContext) (region : Buffer)
    (context : FieldContext) : Except CodecError Scanner := do
  let parser := Parser.start region
  pass env ⟨.enter, .bodyBytes, context.origin⟩ context context.origin
  let _ ← readStart parser context
  (validateBatchCounts policy expected.originalCount expected.retainedCount expected.headerCount).mapError
    fun code => context.error code context.origin
  require (expected.kind = .denseOriginal → expected.retainedCount = expected.originalCount)
    (context.error .invalidArgument context.origin)
  require (parser.total ≤ policy.config.maxExpandedBatchBytes ∧ 4 * layoutBytes ≤ policy.config.maxWorkBytes
      ∧ 64 ≤ policy.config.maxWorkItems)
    (context.error .resourceExhausted context.origin)
  require (expected.retainedCount ≤ parser.total / 7)
    (context.error .malformedData (context.origin + parser.total))
  pass env ⟨.share, .bodyBytes, context.origin⟩ context context.origin
  require (region.fragmentCount ≤ policy.config.maxBufferFragments)
    (context.error .resourceExhausted context.origin)
  pass env ⟨.leave, .bodyBytes, context.origin⟩ context context.origin
  pure { region, parser, expected, policy, context }

/-- `scan_record`. -/
def scanRecord (env : Environment) (policy : Limits) (expected : DecodeContext) (input : Parser)
    (origin : Nat) : Except CodecError RecordLayout × Parser :=
  let decoded := decodeRecordImpl env Mode.ranges policy expected input origin .complete
  (decoded.1.map fun shape => ⟨shape, ⟨input.consumed, decoded.2.consumed - input.consumed⟩⟩, decoded.2)

/-- The record stands where the kind of the region wants it, behind those before it. -/
def Ordered (s : Scanner) (fields : RecordFields) : Prop :=
  (s.expected.kind = .denseOriginal →
    fields.logicalDelta.toNat = s.index ∧ (s.index = 0 → fields.timestampDelta = 0))
  ∧ (s.expected.kind = .sparse → s.index ≠ 0 → s.previousDelta < fields.logicalDelta.toNat)

instance (s : Scanner) (fields : RecordFields) : Decidable (s.Ordered fields) :=
  inferInstanceAs (Decidable (_ ∧ _))

/-- Whether the record about to be stepped to is the last. -/
def last (s : Scanner) : Prop := s.index + 1 = s.expected.retainedCount

instance (s : Scanner) : Decidable s.last := inferInstanceAs (Decidable (_ = _))

/-- The rules of the region, for a record and the cursor behind it. -/
def checkRecord (env : Environment) (s : Scanner) (behind : Parser) (layout : RecordLayout) :
    Except CodecError RecordLayout := do
  let place := s.context.origin + s.parser.consumed
  pass env ⟨.leave, .attributes, place⟩ s.context place
  require (s.Ordered layout.shape.fields)
    (s.context.error .malformedData (s.context.origin + layout.encoded.offset))
  require ((s.last → behind.remaining = 0
        ∧ s.headers + layout.shape.headers.length = s.expected.headerCount)
      ∧ (¬s.last → behind.remaining ≠ 0))
    (s.context.error .malformedData (s.context.origin + behind.consumed))
  pure layout

/-- The record that is stepped to, and what becomes of the cursor. -/
def scanNext (env : Environment) (s : Scanner) : Except CodecError RecordLayout × Parser :=
  let place := s.context.origin + s.parser.consumed
  match pass env ⟨.enter, .logicalDelta, place⟩ s.context place with
  | .error e => (.error e, s.parser)
  | .ok () =>
    let scanned := scanRecord env s.policy (s.expected.record s.headers) s.parser s.context.origin
    (scanned.1 >>= s.checkRecord env scanned.2, scanned.2)

/-- What is asked before anything is read. -/
def admitNext (env : Environment) (work : Limits) (s : Scanner) : Except CodecError Unit := do
  let place := s.context.origin + s.parser.consumed
  require (work = s.policy) (s.context.error .invalidArgument s.context.origin)
  pass env ⟨.enter, .timestampDelta, place⟩ s.context place

/-- `record_region_scanner::next`. It is terminal until it succeeds. -/
def next (env : Environment) (work : Limits) (s : Scanner) : Except CodecError Bool × Scanner :=
  if s.terminal then
    (.error (s.context.error .closed (s.context.origin + s.parser.consumed)), s)
  else
    let closed := { s with current := none, terminal := true }
    match s.admitNext env work with
    | .error e => (.error e, closed)
    | .ok () =>
      if s.complete then (.ok false, { closed with terminal := false })
      else
        match s.scanNext env with
        | (.error e, parser) => (.error e, { closed with parser })
        | (.ok layout, parser) =>
          (.ok true,
            { closed with
              parser
              current := some layout
              index := s.index + 1
              headers := s.headers + layout.shape.headers.length
              previousDelta := layout.shape.fields.logicalDelta.toNat
              complete := decide s.last
              terminal := false })

/-- The bytes of a record of the region, as a buffer of their own. -/
def extent (s : Scanner) (range : ByteRange) : Buffer :=
  ((Parser.start s.region).advance range.offset).slice range.length

/-- `record_region_scanner::materialize_current`. -/
def materializeCurrent (env : Environment) (work : Limits) (s : Scanner) : Except CodecError Record := do
  let layout ← expect (if s.terminal then none else s.current)
    (s.context.error .invalidArgument s.context.origin)
  require (work = s.policy) (s.context.error .invalidArgument s.context.origin)
  let start := s.context.origin + layout.encoded.offset
  pass env ⟨.share, .value, start⟩ s.context s.context.origin
  require (layout.encoded.length ≤ s.policy.config.maxRecordBytes
      ∧ (s.extent layout.encoded).fragmentCount ≤ s.policy.config.maxBufferFragments)
    (s.context.error .resourceExhausted start)
  let decoded ← (decodeRecord env s.policy
    ⟨s.expected.timestampBase, s.expected.originalCount, layout.shape.headers.length⟩
    (Parser.start (s.extent layout.encoded)) start .complete).1
  pass env ⟨.leave, .value, start⟩ s.context s.context.origin
  pure decoded

/-- Steps, one environment each, until one fails or there is nothing more: the layouts stepped to. -/
def steps (work : Limits) : List Environment → Scanner → Except CodecError (List RecordLayout × Scanner)
  | [], s => .ok ([], s)
  | env :: rest, s =>
    match s.next env work with
    | (.error e, _) => .error e
    | (.ok _, s') => do
      let (layouts, s'') ← steps work rest s'
      pure (s'.current.toList ++ layouts, s'')

end Scanner

end KwaqueStorage.Records
