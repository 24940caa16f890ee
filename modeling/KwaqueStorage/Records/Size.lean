import KwaqueStorage.Layout.Envelope
import KwaqueStorage.Lib.Base128

/-!
# Records and their sizes

A record is relative to its batch: a timestamp and a place in the range as differences, a key and a value
that may be absent, and headers. What it takes on the wire is counted before anything is written, by an
accounting of its own: the encoder then writes exactly so many bytes or fails.

Payloads are buffers of fragments. How a payload is cut into fragments is no part of what it says, so two
records are equal when their fields are and their payloads hold the same bytes.
-/

namespace KwaqueStorage.Records

open Extent (u64Max)
open Layout Lib

/-- `fragmented_buffer`, as what it presents: fragments, none of them empty. -/
structure Buffer where
  fragments : List (List UInt8)
  nonempty : ∀ fragment ∈ fragments, fragment ≠ []
  deriving DecidableEq

/-- The bytes a buffer presents. -/
def Buffer.bytes (buffer : Buffer) : List UInt8 := buffer.fragments.flatten

/-- `fragmented_buffer::size`. -/
def Buffer.size (buffer : Buffer) : Nat := buffer.bytes.length

/-- `fragment_count`. -/
def Buffer.fragmentCount (buffer : Buffer) : Nat := buffer.fragments.length

/-- The empty buffer. -/
def Buffer.empty : Buffer := ⟨[], nofun⟩

/-- `record_fields`. -/
structure RecordFields where
  attributes : UInt8 := 0
  timestampDelta : Int64 := 0
  logicalDelta : UInt64 := 0
  deriving DecidableEq

/-- `record_header`. -/
structure RecordHeader where
  name : Buffer
  value : Option Buffer
  deriving DecidableEq

/-- `record`. -/
structure Record where
  fields : RecordFields
  key : Option Buffer
  value : Option Buffer
  headers : List RecordHeader
  deriving DecidableEq

/-- `record_sizes`. -/
structure RecordSizes where
  bodyBytes : Nat
  encodedBytes : Nat := 0
  headerPayloadBytes : Nat := 0
  deriving DecidableEq

/-- `encode_zigzag`: small magnitudes of either sign become small numbers. -/
def encodeZigzag (value : Int) : Nat := if 0 ≤ value then 2 * value.toNat else 2 * (-value).toNat - 1

/-- `unsigned_size`, of a 64-bit number. -/
def unsignedSize (value : Nat) : Nat := Base128.width 10 value

/-- The size of a payload that may be absent. -/
def visibleSize (value : Option Buffer) : Nat := value.elim 0 Buffer.size

/-- The length that stands for a payload: of one that is absent, minus one. -/
def lengthOf (value : Option Buffer) : Int := value.elim (-1) fun buffer => buffer.size

/-- `nullable_encoded_size`. -/
def nullableEncodedSize (value : Option Buffer) : Except Errc Nat := do
  require (visibleSize value ≤ 2147483647) .outOfRange
  pure (unsignedSize (encodeZigzag (lengthOf value)) + visibleSize value)

/-- `header_payload_size`. -/
def headerPayloadSize (name : Buffer) (value : Option Buffer) (policy : Limits) : Except Errc Nat := do
  require (name.size ≤ policy.config.maxHeaderNameBytes) .resourceExhausted
  let total ← addOr name.size (visibleSize value)
  require (total ≤ policy.config.maxRecordHeaderBytes) .resourceExhausted
  pure total

/-- `initial_size`. -/
def initialSize (fields : RecordFields) (key value : Option Buffer) (headers : Nat) (policy : Limits) :
    Except Errc RecordSizes := do
  require (fields.attributes = 0) .unsupportedFormat
  require (headers ≤ policy.config.maxRecordHeaders) .resourceExhausted
  let keyBytes ← nullableEncodedSize key
  let valueBytes ← nullableEncodedSize value
  let scalars := 1 + unsignedSize (encodeZigzag fields.timestampDelta.toInt)
    + unsignedSize fields.logicalDelta.toNat + unsignedSize headers
  let withKey ← addOr scalars keyBytes
  let body ← addOr withKey valueBytes
  pure { bodyBytes := body }

/-- `add_header_size`. The length of a name is unsigned; only that of a value is signed. -/
def addHeaderSize (size : RecordSizes) (header : RecordHeader) (policy : Limits) :
    Except Errc RecordSizes := do
  let payload ← headerPayloadSize header.name header.value policy
  let payloads ← addOr size.headerPayloadBytes payload
  require (payloads ≤ policy.config.maxRecordHeaderBytes) .resourceExhausted
  let value ← nullableEncodedSize header.value
  let withLength ← addOr size.bodyBytes (unsignedSize header.name.size)
  let withName ← addOr withLength header.name.size
  let body ← addOr withName value
  pure { size with bodyBytes := body, headerPayloadBytes := payloads }

/-- The sizes of headers, in order. -/
def addHeaderSizes (policy : Limits) : RecordSizes → List RecordHeader → Except Errc RecordSizes
  | size, [] => .ok size
  | size, header :: rest => do
    let size ← addHeaderSize size header policy
    addHeaderSizes policy size rest

/-- `finish_size`. -/
def finishSize (size : RecordSizes) (policy : Limits) : Except Errc RecordSizes := do
  require (size.bodyBytes ≤ 4294967295) .outOfRange
  let total ← addOr size.bodyBytes (unsignedSize size.bodyBytes)
  require (total ≤ policy.config.maxRecordBytes) .resourceExhausted
  pure { size with encodedBytes := total }

/-- `record_encoded_size`. -/
def recordEncodedSize (record : Record) (policy : Limits) : Except Errc RecordSizes := do
  let size ← initialSize record.fields record.key record.value record.headers.length policy
  let size ← addHeaderSizes policy size record.headers
  finishSize size policy

/-- The fragments of a payload that may be absent. -/
def fragmentsIn (value : Option Buffer) : Nat := value.elim 0 Buffer.fragmentCount

/-- The fragments of a record's payloads. -/
def Record.fragments (record : Record) : Nat :=
  fragmentsIn record.key + fragmentsIn record.value
    + (record.headers.map fun header => header.name.fragmentCount + fragmentsIn header.value).sum

/-- `make_record`: whether a policy admits a record. -/
def makeRecord (record : Record) (policy : Limits) : Except Errc Record := do
  let _ ← recordEncodedSize record policy
  require (record.fragments ≤ policy.config.maxBufferFragments) .resourceExhausted
  pure record

end KwaqueStorage.Records
