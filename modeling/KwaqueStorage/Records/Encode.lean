import KwaqueStorage.Records.Accept

/-!
# Encoding a record

The encoder counts first, asks for memory for exactly so many bytes, and then writes field by field into a
private output that takes no more than was counted. `encodeRecord_bytes` says that whatever comes out is
the record as it is spelled, and `encodeRecord_succeeds` that nothing but leave and memory stands in the
way of a record within the policy.
-/

namespace KwaqueStorage.Records

open Extent (u64Max)
open Layout Lib

/-- `fragmented_buffer_builder`, as far as an encoder sees it: what was written, and the most it takes. -/
structure Output where
  bytes : List UInt8 := []
  maxTotalBytes : Nat
  deriving DecidableEq

/-- More bytes behind those written. -/
def Output.push (output : Output) (octets : List UInt8) : Output :=
  { output with bytes := output.bytes ++ octets }

/-- `fragmented_buffer_builder::append`. -/
def Output.append (output : Output) (octets : List UInt8) : Except Errc Output :=
  if output.bytes.length + octets.length ≤ output.maxTotalBytes then .ok (output.push octets)
  else .error .resourceExhausted

/-- `append_integer`. -/
def appendInteger (output : Output) (encoded : List UInt8) (context : FieldContext) :
    Except CodecError Output := do
  require (context.origin + output.bytes.length ≤ u64Max) (context.error .invalidArgument context.origin)
  let start := context.origin + output.bytes.length
  require (start + encoded.length ≤ u64Max) (context.error .invalidArgument start)
  (output.append encoded).mapError fun code => context.error code start

/-- `write_varuint`. -/
def writeVaruint (output : Output) (value : Nat) (context : FieldContext) : Except CodecError Output :=
  appendInteger output (spellVaruint value) context

/-- `write_varint`. -/
def writeVarint (output : Output) (value : Int) (context : FieldContext) : Except CodecError Output :=
  appendInteger output (spellVarint value) context

/-- `write_nullable_length`. -/
def writeNullableLength (output : Output) (length : Option Nat) (most : Nat) (context : FieldContext) :
    Except CodecError Output := do
  require (context.origin + output.bytes.length ≤ u64Max) (context.error .invalidArgument context.origin)
  let start := context.origin + output.bytes.length
  require (length.getD 0 ≤ 2147483647) (context.error .invalidArgument start)
  require (start + (spellLength length).length ≤ u64Max) (context.error .invalidArgument start)
  require (length.getD 0 ≤ most) (context.error .resourceExhausted start)
  appendInteger output (spellLength length) context

/-- Pieces appended one after the other. -/
def appendPieces (context : FieldContext) : Output → List (List UInt8) → Except CodecError Output
  | output, [] => .ok output
  | output, piece :: rest => do
    let output ← (output.append piece).mapError fun code =>
      context.error code (context.origin + output.bytes.length)
    appendPieces context output rest

section Append

variable (env : Environment) (policy : Limits)

/-- `append_payload`: each fragment in pieces of half a quantum. -/
def appendPayload (input : Buffer) (output : Output) (context : FieldContext) :
    Except CodecError Output := do
  pass env ⟨.share, context.field, output.bytes.length⟩ context context.origin
  appendPieces context output (input.fragments.flatMap (Fragments.chunks (policy.config.maxWorkBytes / 2)))

/-- A payload behind its length, if there is one. -/
def appendPresent (value : Option Buffer) (output : Output) (context : FieldContext) :
    Except CodecError Output :=
  match value with
  | none => .ok output
  | some buffer => appendPayload env policy buffer output context

/-- A payload that may be absent: its length, and its bytes. -/
def appendNullable (value : Option Buffer) (most : Nat) (lengthField valueField : RecordField)
    (output : Output) (context : FieldContext) : Except CodecError Output := do
  let output ← writeNullableLength output (value.map Buffer.size) most (context.as lengthField)
  appendPresent env policy value output (context.as valueField)

/-- One turn of the loop over headers. -/
def appendHeader (header : RecordHeader) (output : Output) (context : FieldContext) :
    Except CodecError Output := do
  pass env ⟨.enter, .headerNameLength, output.bytes.length⟩ context context.origin
  let output ← writeVaruint output header.name.size (context.as .headerNameLength)
  let output ← appendPayload env policy header.name output (context.as .headerName)
  pass env ⟨.enter, .headerValueLength, output.bytes.length⟩ context context.origin
  appendNullable env policy header.value policy.config.maxRecordHeaderBytes .headerValueLength .headerValue
    output context

/-- The loop over headers. -/
def appendHeaders : List RecordHeader → Output → FieldContext → Except CodecError Output
  | [], output, _ => .ok output
  | header :: rest, output, context => do
    let output ← appendHeader env policy header output context
    appendHeaders rest output context

/-- `append_record`. -/
def appendRecord (record : Record) (size : RecordSizes) (output : Output) (context : FieldContext) :
    Except CodecError Output := do
  pass env ⟨.enter, .bodyBytes, output.bytes.length⟩ context context.origin
  let output ← writeVaruint output size.bodyBytes context
  let output ← appendInteger output [record.fields.attributes] (context.as .attributes)
  let output ← writeVarint output record.fields.timestampDelta.toInt (context.as .timestampDelta)
  let output ← writeVaruint output record.fields.logicalDelta.toNat (context.as .logicalDelta)
  let output ← appendNullable env policy record.key policy.config.maxRecordBytes .keyLength .key output
    context
  pass env ⟨.enter, .valueLength, output.bytes.length⟩ context context.origin
  let output ← appendNullable env policy record.value policy.config.maxRecordBytes .valueLength .value
    output context
  pass env ⟨.enter, .headerCount, output.bytes.length⟩ context context.origin
  let output ← writeVaruint output record.headers.length (context.as .headerCount)
  appendHeaders env policy record.headers output context

end Append

/-! ## Memory for the output -/

/-- What an encoder is granted: leave to go on, what is left of the operation's memory, and whether it
    affords fragments of a width, so many of them. -/
structure EncodeEnvironment where
  leave : Environment
  remaining : Nat
  affords : Nat → Nat → Bool

/-- The loop of `choose_shape`: narrower fragments until memory affords them or there are too many. -/
def narrowShape (env : EncodeEnvironment) (policy : Limits) (total : Nat) (context : FieldContext) :
    Nat → Nat → Except CodecError Nat
  | 0, _ => .error (context.error .resourceExhausted context.origin)
  | fuel + 1, width =>
    if width = 0 then .error (context.error .resourceExhausted context.origin)
    else do
      pass env.leave ⟨.share, .bodyBytes, width⟩ context context.origin
      let count := 1 + (total - 1) / width
      require (count ≤ policy.config.maxBufferFragments) (context.error .resourceExhausted context.origin)
      if env.affords width count then pure width
      else narrowShape env policy total context fuel (width / 2)

/-- `choose_shape`, as the width of the fragments: a width is at most 64 KiB, and is halved each time. -/
def chooseShape (env : EncodeEnvironment) (policy : Limits) (total : Nat) (context : FieldContext) :
    Except CodecError Nat :=
  narrowShape env policy total context 17
    (min total (min 65536 (min policy.config.maxAllocationBytes env.remaining)))

/-- Bytes in fragments of a width. -/
def fragmented (width : Nat) (bytes : List UInt8) : Buffer :=
  if h : 0 < width then ⟨Fragments.chunks width bytes, Fragments.chunks_nonempty h⟩ else Buffer.empty

/-- `encode_record`. -/
def encodeRecord (env : EncodeEnvironment) (policy : Limits) (record : Record) (origin : Nat) :
    Except CodecError Buffer := do
  let context : FieldContext := ⟨origin, .bodyBytes⟩
  pass env.leave ⟨.enter, .attributes, 0⟩ context origin
  require (128 ≤ policy.config.maxWorkBytes ∧ 64 ≤ policy.config.maxWorkItems)
    (context.error .resourceExhausted origin)
  let size ← (recordEncodedSize record policy).mapError fun code => context.error code origin
  require (origin + size.encodedBytes ≤ u64Max) (context.error .invalidArgument origin)
  let width ← chooseShape env policy size.encodedBytes context
  let output ← appendRecord env.leave policy record size { maxTotalBytes := size.encodedBytes } context
  pass env.leave ⟨.leave, .bodyBytes, 0⟩ context origin
  pure (fragmented width output.bytes)

/-! ## What is written -/

variable {env : Environment} {policy : Limits} {context : FieldContext} {output output' : Output}
  {octets : List UInt8}

theorem Output.push_push {first second : List UInt8} :
    (output.push first).push second = output.push (first ++ second) := by
  unfold push
  rw [List.append_assoc]

theorem Output.push_nil : output.push [] = output := by
  unfold push
  rw [List.append_nil]

theorem Output.append_eq_ok : output.append octets = .ok output'
    ↔ output.bytes.length + octets.length ≤ output.maxTotalBytes ∧ output' = output.push octets := by
  unfold append
  split
  next h =>
    constructor
    · intro heq
      exact ⟨h, (Except.ok.inj heq).symm⟩
    · rintro ⟨_, rfl⟩
      rfl
  next h =>
    refine iff_of_false nofun ?_
    rintro ⟨hle, _⟩
    exact h hle

/-- There is room behind what was written, in the output and in the coordinates. -/
def Room (output : Output) (origin : Nat) (octets : List UInt8) : Prop :=
  output.bytes.length + octets.length ≤ output.maxTotalBytes
    ∧ origin + (output.bytes.length + octets.length) ≤ u64Max

theorem Room.append {origin : Nat} {first second : List UInt8}
    (h : Room output origin (first ++ second)) :
    Room output origin first ∧ Room (output.push first) origin second := by
  unfold Room Output.push at *
  dsimp only
  rw [List.length_append] at *
  omega

theorem appendInteger_bytes (h : appendInteger output octets context = .ok output') :
    output' = output.push octets := by
  unfold appendInteger at h
  simp only [bind_eq_ok, require_eq_ok, exists_const, mapError_eq_ok, Output.append_eq_ok] at h
  exact h.2.2.2

theorem appendInteger_succeeds (h : Room output context.origin octets) :
    appendInteger output octets context = .ok (output.push octets) := by
  unfold Room at h
  unfold appendInteger
  simp only [bind_eq_ok, require_eq_ok, exists_const, mapError_eq_ok, Output.append_eq_ok]
  exact ⟨by omega, by omega, h.1, trivial⟩

theorem writeNullableLength_bytes {length : Option Nat} {most : Nat}
    (h : writeNullableLength output length most context = .ok output') :
    output' = output.push (spellLength length) := by
  unfold writeNullableLength at h
  simp only [bind_eq_ok, require_eq_ok, exists_const] at h
  exact appendInteger_bytes h.2.2.2.2

theorem writeNullableLength_succeeds {length : Option Nat} {most : Nat}
    (h : Room output context.origin (spellLength length)) (hsmall : length.getD 0 ≤ 2147483647)
    (hmost : length.getD 0 ≤ most) :
    writeNullableLength output length most context = .ok (output.push (spellLength length)) := by
  have hroom := h
  unfold Room at hroom
  unfold writeNullableLength
  simp only [bind_eq_ok, require_eq_ok, exists_const]
  exact ⟨by omega, hsmall, by omega, hmost, appendInteger_succeeds h⟩

theorem appendPieces_bytes {pieces : List (List UInt8)}
    (h : appendPieces context output pieces = .ok output') : output' = output.push pieces.flatten := by
  induction pieces generalizing output with
  | nil =>
    cases h
    exact Output.push_nil.symm
  | cons piece rest ih =>
    unfold appendPieces at h
    simp only [bind_eq_ok, mapError_eq_ok, Output.append_eq_ok] at h
    obtain ⟨_, ⟨_, rfl⟩, h⟩ := h
    rw [ih h, Output.push_push, List.flatten_cons]

theorem appendPieces_succeeds {pieces : List (List UInt8)}
    (h : Room output context.origin pieces.flatten) :
    appendPieces context output pieces = .ok (output.push pieces.flatten) := by
  induction pieces generalizing output with
  | nil =>
    rw [List.flatten_nil, Output.push_nil]
    rfl
  | cons piece rest ih =>
    rw [List.flatten_cons] at h ⊢
    obtain ⟨hpiece, hrest⟩ := h.append
    unfold appendPieces
    simp only [bind_eq_ok, mapError_eq_ok, Output.append_eq_ok]
    refine ⟨_, ⟨hpiece.1, rfl⟩, ?_⟩
    rw [ih hrest, Output.push_push]

/-- Pieces of fragments hold what the fragments do. -/
theorem flatMap_chunks {width : Nat} {input : Buffer} (hwidth : 0 < width) :
    (input.fragments.flatMap (Fragments.chunks width)).flatten = input.bytes := by
  unfold Buffer.bytes
  induction input.fragments with
  | nil => rfl
  | cons fragment rest ih =>
    rw [List.flatMap_cons, List.flatten_append, ih, Fragments.chunks_flatten hwidth, List.flatten_cons]

theorem appendPayload_bytes {input : Buffer} (hwork : 128 ≤ policy.config.maxWorkBytes)
    (h : appendPayload env policy input output context = .ok output') :
    output' = output.push input.bytes := by
  unfold appendPayload at h
  simp only [bind_eq_ok, pass_eq_ok, exists_const] at h
  rw [appendPieces_bytes h.2, flatMap_chunks (by omega)]

theorem appendPayload_succeeds {input : Buffer} (hwork : 128 ≤ policy.config.maxWorkBytes)
    (h : Room output context.origin input.bytes) :
    appendPayload .free policy input output context = .ok (output.push input.bytes) := by
  unfold appendPayload
  simp only [bind_eq_ok, pass_eq_ok, exists_const]
  refine ⟨rfl, ?_⟩
  rw [← @flatMap_chunks (policy.config.maxWorkBytes / 2) input (by omega)] at h ⊢
  exact appendPieces_succeeds h

theorem spellNullable_map {value : Option Buffer} : spellNullable (value.map Buffer.bytes)
    = spellLength (value.map Buffer.size) ++ (value.map Buffer.bytes).getD [] := by
  unfold spellNullable
  rw [Option.map_map]
  rfl

theorem appendNullable_bytes {value : Option Buffer} {most : Nat} {lengthField valueField : RecordField}
    (hwork : 128 ≤ policy.config.maxWorkBytes)
    (h : appendNullable env policy value most lengthField valueField output context = .ok output') :
    output' = output.push (spellNullable (value.map Buffer.bytes)) := by
  unfold appendNullable at h
  simp only [bind_eq_ok] at h
  obtain ⟨_, hlength, h⟩ := h
  rw [spellNullable_map, ← Output.push_push, ← writeNullableLength_bytes hlength]
  cases value with
  | none =>
    cases h
    exact Output.push_nil.symm
  | some buffer => exact appendPayload_bytes hwork h

theorem appendNullable_succeeds {value : Option Buffer} {most : Nat} {lengthField valueField : RecordField}
    (hwork : 128 ≤ policy.config.maxWorkBytes) (hsmall : visibleSize value ≤ 2147483647)
    (hmost : visibleSize value ≤ most)
    (h : Room output context.origin (spellNullable (value.map Buffer.bytes))) :
    appendNullable .free policy value most lengthField valueField output context
      = .ok (output.push (spellNullable (value.map Buffer.bytes))) := by
  have hvisible : (value.map Buffer.size).getD 0 = visibleSize value := by
    cases value with
    | none => rfl
    | some buffer => rfl
  rw [spellNullable_map] at h ⊢
  obtain ⟨hlength, hpayload⟩ := h.append
  unfold appendNullable
  simp only [bind_eq_ok]
  refine ⟨_, writeNullableLength_succeeds hlength (hvisible ▸ hsmall) (hvisible ▸ hmost), ?_⟩
  rw [← Output.push_push]
  cases value with
  | none =>
    rw [show (Option.map Buffer.bytes none).getD [] = [] from rfl, Output.push_nil]
    rfl
  | some buffer => exact appendPayload_succeeds hwork hpayload

theorem appendHeader_bytes {header : RecordHeader} (hwork : 128 ≤ policy.config.maxWorkBytes)
    (h : appendHeader env policy header output context = .ok output') :
    output' = output.push (spellHeader header.content) := by
  unfold appendHeader writeVaruint at h
  simp only [bind_eq_ok, pass_eq_ok, exists_const] at h
  obtain ⟨_, _, hlength, _, hname, _, hvalue⟩ := h
  rw [appendNullable_bytes hwork hvalue, appendPayload_bytes hwork hname, appendInteger_bytes hlength,
    Output.push_push, Output.push_push]
  rfl

theorem appendHeader_succeeds {header : RecordHeader} (hwork : 128 ≤ policy.config.maxWorkBytes)
    (hvalue : headerBytes header.content ≤ policy.config.maxRecordHeaderBytes)
    (h : Room output context.origin (spellHeader header.content)) :
    appendHeader .free policy header output context = .ok (output.push (spellHeader header.content)) := by
  have hmost := policy.maxRecordHeaderBytes_le
  have hpart : visibleSize header.value ≤ headerBytes header.content := by
    rw [visibleSize_eq]
    exact Nat.le_add_left _ _
  obtain ⟨hlength, hrest⟩ := h.append
  obtain ⟨hname, hrest⟩ := hrest.append
  unfold appendHeader writeVaruint
  simp only [bind_eq_ok, pass_eq_ok, exists_const]
  refine ⟨rfl, _, appendInteger_succeeds hlength, _, appendPayload_succeeds hwork hname, rfl, ?_⟩
  refine (appendNullable_succeeds hwork (by omega) (by omega) hrest).trans ?_
  rw [Output.push_push, Output.push_push]
  rfl

theorem appendHeaders_bytes {headers : List RecordHeader} (hwork : 128 ≤ policy.config.maxWorkBytes)
    (h : appendHeaders env policy headers output context = .ok output') :
    output' = output.push (spellHeaders (headers.map RecordHeader.content)) := by
  induction headers generalizing output with
  | nil =>
    cases h
    exact Output.push_nil.symm
  | cons header rest ih =>
    unfold appendHeaders at h
    simp only [bind_eq_ok] at h
    obtain ⟨_, hheader, h⟩ := h
    rw [ih h, appendHeader_bytes hwork hheader, Output.push_push]
    rfl

theorem appendHeaders_succeeds {headers : List RecordHeader} (hwork : 128 ≤ policy.config.maxWorkBytes)
    (hbytes : headersBytes (headers.map RecordHeader.content) ≤ policy.config.maxRecordHeaderBytes)
    (h : Room output context.origin (spellHeaders (headers.map RecordHeader.content))) :
    appendHeaders .free policy headers output context
      = .ok (output.push (spellHeaders (headers.map RecordHeader.content))) := by
  induction headers generalizing output with
  | nil =>
    rw [show spellHeaders (List.map RecordHeader.content []) = [] from rfl, Output.push_nil]
    rfl
  | cons header rest ih =>
    have hsum : headerBytes header.content + headersBytes (rest.map RecordHeader.content)
        ≤ policy.config.maxRecordHeaderBytes := hbytes
    obtain ⟨hheader, hrest⟩ := Room.append h
    unfold appendHeaders
    simp only [bind_eq_ok]
    refine ⟨_, appendHeader_succeeds hwork (by omega) hheader, ?_⟩
    rw [ih (by omega) hrest, Output.push_push]
    rfl

theorem spell_eq {record : Record} : spell record.content
    = spellVaruint (spellBody record.content).length ++ ([record.fields.attributes]
      ++ (spellVarint record.fields.timestampDelta.toInt ++ (spellVaruint record.fields.logicalDelta.toNat
        ++ (spellNullable (record.key.map Buffer.bytes) ++ (spellNullable (record.value.map Buffer.bytes)
          ++ (spellVaruint record.headers.length
            ++ spellHeaders (record.headers.map RecordHeader.content))))))) := by
  unfold spell
  congr 1
  unfold spellBody
  rw [record.content_headers, List.length_map]
  rfl

theorem appendRecord_bytes {record : Record} {size : RecordSizes}
    (hwork : 128 ≤ policy.config.maxWorkBytes) (hsize : recordEncodedSize record policy = .ok size)
    (h : appendRecord env policy record size output context = .ok output') :
    output' = output.push (spell record.content) := by
  obtain ⟨_, rfl⟩ := recordEncodedSize_eq_ok.mp hsize
  unfold appendRecord writeVaruint writeVarint at h
  simp only [bind_eq_ok, pass_eq_ok, exists_const] at h
  obtain ⟨_, _, hbody, _, hattributes, _, htimestamp, _, hlogical, _, hkey, _, _, hvalue, _, _, hcount,
    hheaders⟩ := h
  rw [appendHeaders_bytes hwork hheaders, appendInteger_bytes hcount, appendNullable_bytes hwork hvalue,
    appendNullable_bytes hwork hkey, appendInteger_bytes hlogical, appendInteger_bytes htimestamp,
    appendInteger_bytes hattributes, appendInteger_bytes hbody, spell_eq]
  simp only [Output.push_push, List.append_assoc]

theorem appendRecord_succeeds {record : Record} {size : RecordSizes}
    (hwork : 128 ≤ policy.config.maxWorkBytes) (hsize : recordEncodedSize record policy = .ok size)
    (h : Room output context.origin (spell record.content)) :
    appendRecord .free policy record size output context = .ok (output.push (spell record.content)) := by
  obtain ⟨hwithin, rfl⟩ := recordEncodedSize_eq_ok.mp hsize
  have hmost := policy.maxRecordBytes_le
  have htotal := hwithin.total
  have hpayload := hwithin.payload
  have hkeyle := @spellNullable_le (record.key.map Buffer.bytes)
  have hvaluele := @spellNullable_le (record.value.map Buffer.bytes)
  rw [← visibleSize_eq] at hkeyle hvaluele
  rw [record.content_headers] at hpayload
  rw [spell_eq] at h htotal ⊢
  simp only [List.length_append] at htotal
  obtain ⟨hbody, h⟩ := h.append
  obtain ⟨hattributes, h⟩ := h.append
  obtain ⟨htimestamp, h⟩ := h.append
  obtain ⟨hlogical, h⟩ := h.append
  obtain ⟨hkey, h⟩ := h.append
  obtain ⟨hvalue, h⟩ := h.append
  obtain ⟨hcount, hheaders⟩ := h.append
  unfold appendRecord writeVaruint writeVarint
  simp only [bind_eq_ok, pass_eq_ok, exists_const]
  refine ⟨rfl, _, appendInteger_succeeds hbody, _, appendInteger_succeeds hattributes, _,
    appendInteger_succeeds htimestamp, _, appendInteger_succeeds hlogical, _,
    appendNullable_succeeds hwork (by omega) (by omega) hkey, rfl, _,
    appendNullable_succeeds hwork (by omega) (by omega) hvalue, rfl, _, appendInteger_succeeds hcount, ?_⟩
  rw [appendHeaders_succeeds hwork hpayload hheaders]
  simp only [Output.push_push, List.append_assoc]

/-- A shape is a width of at least one byte. -/
theorem narrowShape_pos {env : EncodeEnvironment} {total fuel width found : Nat}
    (h : narrowShape env policy total context fuel width = .ok found) : 0 < found := by
  induction fuel generalizing width with
  | zero => cases h
  | succ fuel ih =>
    unfold narrowShape at h
    split at h
    next => cases h
    next hwidth =>
      simp only [bind_eq_ok, pass_eq_ok, require_eq_ok, exists_const] at h
      obtain ⟨_, _, h⟩ := h
      split at h
      next =>
        obtain rfl := pure_eq_ok.mp h
        exact Nat.pos_of_ne_zero hwidth
      next => exact ih h

/-- **Whatever is encoded is spelled.** -/
theorem encodeRecord_bytes {env : EncodeEnvironment} {record : Record} {origin : Nat} {buffer : Buffer}
    (h : encodeRecord env policy record origin = .ok buffer) :
    recordEncodedSize record policy
        = .ok ⟨(spellBody record.content).length, (spell record.content).length,
            headersBytes record.content.headers⟩
      ∧ buffer.bytes = spell record.content := by
  unfold encodeRecord at h
  simp only [bind_eq_ok, pass_eq_ok, require_eq_ok, exists_const, mapError_eq_ok, pure_eq_ok] at h
  obtain ⟨_, ⟨hwork, _⟩, size, hsize, _, width, hwidth, output, houtput, _, rfl⟩ := h
  have hpos := narrowShape_pos hwidth
  obtain rfl := appendRecord_bytes hwork hsize houtput
  obtain ⟨_, rfl⟩ := recordEncodedSize_eq_ok.mp hsize
  refine ⟨hsize, ?_⟩
  unfold fragmented
  rw [dif_pos hpos]
  exact Fragments.chunks_flatten hpos

/-- **Nothing but leave and memory stands in the way** of a record within the policy. -/
theorem encodeRecord_succeeds {env : EncodeEnvironment} {record : Record} {origin width : Nat}
    (hleave : env.leave = .free) (hwork : 128 ≤ policy.config.maxWorkBytes ∧ 64 ≤ policy.config.maxWorkItems)
    (hwithin : Within policy record.content) (hfits : origin + (spell record.content).length ≤ u64Max)
    (hshape : chooseShape env policy (spell record.content).length ⟨origin, .bodyBytes⟩ = .ok width) :
    ∃ buffer, encodeRecord env policy record origin = .ok buffer := by
  have hsize := recordEncodedSize_eq_ok.mpr ⟨hwithin, rfl⟩
  refine ⟨fragmented width (spell record.content), ?_⟩
  unfold encodeRecord
  simp only [bind_eq_ok, pass_eq_ok, require_eq_ok, exists_const, mapError_eq_ok, pure_eq_ok, hleave]
  refine ⟨rfl, hwork, _, hsize, hfits, width, hshape, _, appendRecord_succeeds hwork.1 hsize ?_, rfl, rfl⟩
  unfold Room
  exact ⟨(Nat.zero_add _).le, by rwa [List.length_nil, Nat.zero_add]⟩

end KwaqueStorage.Records
