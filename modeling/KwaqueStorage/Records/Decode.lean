import KwaqueStorage.Records.Wire

/-!
# Decoding a record

`decode_record_impl` is one template with two uses: it returns a record whose payloads share the bytes of
the input, or a layout, which names the bytes of each payload without sharing them. Here the two uses are
two `Mode`s of one decoder.

Between any two steps the decoder asks for leave: that work may go on, that memory is granted. What is
answered is no part of the format, so it is an `Environment` that may refuse anywhere.

The decoder works inside a transaction on its input: a checkpoint is pushed first, the length moves the
cursor, and whatever fails after that rolls the cursor back.
-/

namespace KwaqueStorage.Records

open Extent (u64Max)
open Layout Lib

/-! ## What may be refused -/

/-- Where leave is asked: before a field is read, before its bytes are shared, after it is done. -/
inductive Stage
  | enter
  | share
  | leave
  deriving DecidableEq

/-- One place where leave is asked. -/
structure Gate where
  stage : Stage
  field : RecordField
  offset : Nat
  deriving DecidableEq

/-- What is answered at each place: an error, or nothing. -/
abbrev Environment := Gate → Option Errc

/-- Work is never cancelled and memory always granted. -/
def Environment.free : Environment := fun _ => none

/-- Asking for leave; a refusal is reported at an anchor. -/
def pass (env : Environment) (gate : Gate) (context : FieldContext) (offset : Nat) :
    Except CodecError Unit :=
  match env gate with
  | none => .ok ()
  | some code => .error (context.error code offset)

/-! ## The two uses -/

/-- `record_byte_range`. -/
structure ByteRange where
  offset : Nat
  length : Nat
  deriving DecidableEq

/-- How a payload is taken from the input: what it becomes, and the fragments it is charged. -/
structure Mode (α : Type) where
  /-- Payloads own what they share, so headers need an array of their own. -/
  shares : Bool
  value : Parser → Nat → α
  cost : Parser → Nat → Nat
  size : α → Nat
  size_value : ∀ {p : Parser} {length : Nat}, length ≤ p.rest.length → size (value p length) = length

/-- `record_decoder<false>`: a payload is a buffer that shares its bytes. -/
def Mode.buffers : Mode Buffer where
  shares := true
  value := Parser.slice
  cost p length := (p.slice length).fragmentCount
  size := Buffer.size
  size_value := by
    intro p length h
    unfold Buffer.size
    rw [Parser.slice_bytes, List.length_take_of_le h]

/-- `record_decoder<true>`: a payload is a range of the input that the body was taken from. -/
def Mode.ranges (bodyOffset : Nat) : Mode ByteRange where
  shares := false
  value p length := ⟨bodyOffset + p.consumed, length⟩
  cost _ _ := 0
  size := ByteRange.length
  size_value _ := rfl

/-- `record_decode_context`. -/
structure DecodeContext where
  timestampBase : Int64
  originalCount : Nat
  headersRemaining : Nat
  deriving DecidableEq

/-- `checked_timestamp_from_delta` has a value. -/
def Representable (base delta : Int64) : Prop :=
  -9223372036854775808 ≤ base.toInt + delta.toInt ∧ base.toInt + delta.toInt ≤ 9223372036854775807

instance (base delta : Int64) : Decidable (Representable base delta) :=
  inferInstanceAs (Decidable (_ ∧ _))

/-- The body being read, and the fragments its payloads were charged so far. -/
structure Reading where
  parser : Parser
  fragments : Nat := 0

/-! ## The body of a record -/

section Body

variable {α : Type} (env : Environment) (mode : Mode α) (policy : Limits)

/-- `materialize`. -/
def materialize (length : Nat) (r : Reading) (context : FieldContext) :
    Except CodecError (α × Reading) := do
  let start := context.origin + r.parser.consumed
  pass env ⟨.share, context.field, start⟩ context start
  let fragments := r.fragments + mode.cost r.parser length
  require (fragments ≤ policy.config.maxBufferFragments) (context.error .resourceExhausted start)
  pure (mode.value r.parser length, ⟨r.parser.advance length, fragments⟩)

/-- What follows a length: its payload, if there is one. -/
def readPayload (valueField : RecordField) (length : Option Nat) (r : Reading) (context : FieldContext) :
    Except CodecError (Option α × Reading) :=
  match length with
  | none => .ok (none, r)
  | some length => do
    let (payload, r) ← materialize env mode policy length r (context.as valueField)
    pure (some payload, r)

/-- `read_nullable`. -/
def readNullable (most : Nat) (lengthField valueField : RecordField) (r : Reading)
    (context : FieldContext) : Except CodecError (Option α × Reading) := do
  let start := context.origin + r.parser.consumed
  pass env ⟨.enter, lengthField, start⟩ (context.as lengthField) start
  let (length, p) ← readNullableLength most r.parser (context.as lengthField) .complete
  readPayload env mode policy valueField length ⟨p, r.fragments⟩ context

/-- One turn of the loop over headers, with so many bytes left for them. -/
def readHeader (left : Nat) (r : Reading) (context : FieldContext) :
    Except CodecError ((α × Option α) × Nat × Reading) := do
  let nameAt := context.origin + r.parser.consumed
  pass env ⟨.enter, .headerNameLength, nameAt⟩ context context.origin
  let (length, p) ← readVaruint 32 r.parser (context.as .headerNameLength) .complete
  require (length ≤ min policy.config.maxHeaderNameBytes left)
    ((context.as .headerNameLength).error .resourceExhausted nameAt)
  require (length ≤ p.remaining)
    ((context.as .headerName).error .malformedData (context.origin + p.total))
  let (name, r) ← materialize env mode policy length ⟨p, r.fragments⟩ (context.as .headerName)
  pass env ⟨.leave, .headerName, nameAt⟩ context context.origin
  let (value, r) ← readNullable env mode policy (left - length) .headerValueLength .headerValue r context
  pass env ⟨.leave, .headerValue, nameAt⟩ context context.origin
  pure ((name, value), left - length - value.elim 0 mode.size, r)

/-- The loop over headers. -/
def readHeaders : Nat → Nat → Reading → FieldContext → Except CodecError (List (α × Option α) × Reading)
  | 0, _, r, _ => .ok ([], r)
  | count + 1, left, r, context => do
    let (header, left, r) ← readHeader env mode policy left r context
    let (headers, r) ← readHeaders count left r context
    pure (header :: headers, r)

/-- The array of headers, where payloads own what they share. -/
def reserveHeaders (count : Nat) (context : FieldContext) (countAt : Nat) : Except CodecError Unit :=
  if mode.shares ∧ count ≠ 0 then
    pass env ⟨.share, .headerCount, countAt⟩ (context.as .headerCount) countAt
  else .ok ()

/-- The fields of fixed place at the start of a body. -/
def readFields (expected : DecodeContext) (p : Parser) (context : FieldContext) :
    Except CodecError (RecordFields × Parser) := do
  pass env ⟨.enter, .attributes, context.origin⟩ context context.origin
  let (attributes, p) ← readByte p (context.as .attributes) .complete
  require (attributes = 0) ((context.as .attributes).error .unsupportedFormat context.origin)
  let timestampAt := context.origin + p.consumed
  let (timestamp, p) ← readVarint p (context.as .timestampDelta) .complete
  require (Representable expected.timestampBase timestamp)
    ((context.as .timestampDelta).error .malformedData timestampAt)
  let logicalAt := context.origin + p.consumed
  let (logical, p) ← readVaruint 64 p (context.as .logicalDelta) .complete
  require (logical < expected.originalCount) ((context.as .logicalDelta).error .malformedData logicalAt)
  pure (⟨attributes, timestamp, UInt64.ofNat logical⟩, p)

/-- The headers behind their count, to the end of the body. -/
def readCounted (expected : DecodeContext) (r : Reading) (context : FieldContext) :
    Except CodecError (List (α × Option α)) := do
  let countAt := context.origin + r.parser.consumed
  pass env ⟨.enter, .headerCount, countAt⟩ context context.origin
  let (count, p) ← readVaruint 32 r.parser (context.as .headerCount) .complete
  require (count ≤ min policy.config.maxRecordHeaders
      (min policy.config.maxBatchHeaders expected.headersRemaining))
    ((context.as .headerCount).error .resourceExhausted countAt)
  require (count ≤ p.remaining / 2)
    ((context.as .headerCount).error .malformedData (context.origin + p.total))
  reserveHeaders env mode count context countAt
  let (headers, r) ← readHeaders env mode policy count policy.config.maxRecordHeaderBytes
    ⟨p, r.fragments⟩ context
  require (r.parser.remaining = 0)
    ((context.as .bodyBytes).error .malformedData (context.origin + r.parser.consumed))
  pass env ⟨.leave, .headerCount, countAt⟩ context context.origin
  pure headers

/-- `record_decoder::read`. -/
def readBody (expected : DecodeContext) (p : Parser) (context : FieldContext) :
    Except CodecError (Shape α) := do
  let (fields, p) ← readFields env expected p context
  let (key, r) ← readNullable env mode policy policy.config.maxRecordBytes .keyLength .key ⟨p, 0⟩ context
  let (value, r) ← readNullable env mode policy policy.config.maxRecordBytes .valueLength .value r context
  let headers ← readCounted env mode policy expected r context
  pure ⟨fields, key, value, headers⟩

end Body

/-! ## The transaction -/

section Transaction

variable {α : Type} (env : Environment) (mode : Nat → Mode α) (policy : Limits)

/-- What is checked before the input is touched, and the checkpoint. -/
def admitDecode (expected : DecodeContext) (input : Parser) (context : FieldContext) :
    Except CodecError (Nat × Parser) := do
  let start ← readStart input context
  pass env ⟨.enter, .bodyBytes, start⟩ context start
  require (expected.originalCount ≠ 0) (context.error .invalidArgument start)
  require (expected.originalCount ≤ policy.config.maxOriginalRecords
      ∧ 128 ≤ policy.config.maxWorkBytes ∧ 64 ≤ policy.config.maxWorkItems)
    (context.error .resourceExhausted start)
  let marked ← input.pushCheckpoint.mapError fun code => context.error code start
  pure (start, marked)

/-- The length of the body. -/
def readBodyLength (start : Nat) (p : Parser) (context : FieldContext) (boundary : InputBoundary) :
    Except CodecError (Nat × Parser) := do
  pass env ⟨.enter, .attributes, start⟩ context start
  readVaruint 32 p context boundary

/-- The body, from a cursor behind its length that started at another. -/
def readExtent (expected : DecodeContext) (start length : Nat) (entry p : Parser)
    (context : FieldContext) (boundary : InputBoundary) : Except CodecError (Shape α) := do
  let lead := p.consumed - entry.consumed
  require (6 ≤ length ∧ start + (lead + length) ≤ u64Max) (context.error .malformedData start)
  require (lead + length ≤ policy.config.maxRecordBytes) (context.error .resourceExhausted start)
  require (length ≤ p.remaining) (shortage p context boundary)
  pass env ⟨.share, .bodyBytes, start⟩ context start
  require ((p.slice length).fragmentCount ≤ policy.config.maxBufferFragments)
    (context.error .resourceExhausted (context.origin + p.consumed))
  let shape ← readBody env (mode p.consumed) policy expected (Parser.start (p.slice length))
    ⟨start + lead, .bodyBytes⟩
  pass env ⟨.leave, .bodyBytes, start⟩ context start
  pure shape

/-- What happens between the checkpoint and its commit or rollback, to the cursor too. -/
def decodeMarked (expected : DecodeContext) (start : Nat) (p : Parser) (context : FieldContext)
    (boundary : InputBoundary) : Except CodecError (Shape α) × Parser :=
  match readBodyLength env start p context boundary with
  | .error e => (.error e, p)
  | .ok (length, q) =>
    match readExtent env mode policy expected start length p q context boundary with
    | .error e => (.error e, q)
    | .ok shape => (.ok shape, q.advance length)

/-- `decode_record_impl`. -/
def decodeRecordImpl (expected : DecodeContext) (input : Parser) (origin : Nat)
    (boundary : InputBoundary) : Except CodecError (Shape α) × Parser :=
  match admitDecode env policy expected input ⟨origin, .bodyBytes⟩ with
  | .error e => (.error e, input)
  | .ok (start, marked) =>
    match decodeMarked env mode policy expected start marked ⟨origin, .bodyBytes⟩ boundary with
    | (.error e, p) => (.error e, p.rollback)
    | (.ok shape, p) => (.ok shape, p.commit)

end Transaction

/-- `decode_record`: a record and what becomes of the parser. -/
def decodeRecord (env : Environment) (policy : Limits) (expected : DecodeContext) (input : Parser)
    (origin : Nat) (boundary : InputBoundary) : Except CodecError Record × Parser :=
  let decoded := decodeRecordImpl env (fun _ => Mode.buffers) policy expected input origin boundary
  (decoded.1.map Shape.record, decoded.2)

end KwaqueStorage.Records
