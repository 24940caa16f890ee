import KwaqueStorage.Codec.Fields

/-!
# The envelope around a stored object

Every stored object begins with a header of at least 32 octets: a magic, the family of its body, the
version that wrote it and the least version that may read it, the sizes of header and body, the features a
reader must know, and two checksums. The body's checksum is part of what the header's covers; the header's
own slot counts as zeros. A writer emits the header without extensions; a reader also takes later ones,
whose extensions it skips unless they are mandatory.

The checksum itself is a parameter. Memory and aborts, which can fail a read at any point, are left out,
and so is the place of an object in its file, which only labels errors.
-/

namespace KwaqueStorage.Codec

open Layout Lib RetryPages

/-- `codec::limits`, with the one ceiling of envelope headers that the layouts do not read. -/
structure CodecLimits extends Limits where
  maxExtensions : Nat := 64
  extensions_pos : 0 < maxExtensions := by decide
  extensions_most : maxExtensions ≤ 64 := by decide

instance : DecidableEq CodecLimits := fun a b =>
  decidable_of_iff (a.toLimits = b.toLimits ∧ a.maxExtensions = b.maxExtensions)
    (by cases a; cases b; simp)

/-- The checksum of an envelope and the digest that pins an object. -/
structure Digests where
  /-- `crc32c` of octets from a zero seed. -/
  crc32c : List UInt8 → Fin (2 ^ 32)
  /-- `hash_exact`: the 128-bit digest of octets. -/
  hashExact : List UInt8 → Fin (2 ^ 128)

/-- `cooperative_work::admit`: one piece of work is refused when it exceeds the quantum. -/
def admitWork (policy : Limits) (bytes items : Nat) : Except Errc Unit :=
  require (bytes ≤ policy.config.maxWorkBytes ∧ items ≤ policy.config.maxWorkItems) .resourceExhausted

/-! ## Families -/

/-- `format_family`. -/
inductive FormatFamily
  | submittedBatch
  | assignedBatch
  | segmentHeader
  | segmentBatchBlock
  | walPrepare
  | durableBoundaryFooter
  | sealedExtent
  | sparseIndex
  | rangeManifest
  | readCheckpoint
  | localStorage
  deriving DecidableEq

/-- The number of a family on the wire. -/
def FormatFamily.code : FormatFamily → Nat
  | submittedBatch => 1
  | assignedBatch => 2
  | segmentHeader => 3
  | segmentBatchBlock => 4
  | walPrepare => 5
  | durableBoundaryFooter => 6
  | sealedExtent => 7
  | sparseIndex => 8
  | rangeManifest => 9
  | readCheckpoint => 10
  | localStorage => 11

/-- `format_descriptor`. -/
structure FormatDescriptor where
  family : FormatFamily
  current : Nat
  oldestReadable : Nat
  writer : Nat
  minimumReader : Nat
  supportedFeatures : Nat
  deriving DecidableEq

/-- `format_registry`. -/
def formatRegistry : List FormatDescriptor :=
  [⟨.submittedBatch, 1, 1, 1, 1, 0⟩, ⟨.assignedBatch, 1, 1, 1, 1, 0⟩,
    ⟨.segmentHeader, 1, 1, 1, 1, 0⟩, ⟨.segmentBatchBlock, 1, 1, 1, 1, 0⟩,
    ⟨.walPrepare, 1, 1, 1, 1, 0⟩, ⟨.durableBoundaryFooter, 1, 1, 1, 1, 0⟩,
    ⟨.sealedExtent, 1, 1, 1, 1, 0⟩, ⟨.sparseIndex, 1, 1, 1, 1, 0⟩,
    ⟨.rangeManifest, 1, 1, 1, 1, 0⟩, ⟨.readCheckpoint, 1, 1, 1, 1, 0⟩,
    ⟨.localStorage, 1, 1, 1, 1, 0⟩]

/-- `lookup_format`. -/
def lookupFormat (raw : Nat) : Except Errc FormatDescriptor := do
  require (raw ≠ 0) .malformedData
  expect (formatRegistry.find? fun descriptor => decide (descriptor.family.code = raw)) .unsupportedFormat

/-- `validate_sender_version_values`. -/
def validateSenderVersionValues (writer minimumReader : Nat) : Except Errc Unit := do
  require (minimumReader ≤ writer) .malformedData
  require (writer ≠ 0) .unsupportedFormat
  require (minimumReader ≠ 0) .unsupportedFormat

/-- `validate_sender_versions`. -/
def validateSenderVersions (writer minimumReader : Nat) (reader : FormatDescriptor) :
    Except Errc Unit := do
  validateSenderVersionValues writer minimumReader
  require (minimumReader ≤ reader.current) .unsupportedFormat
  require (reader.oldestReadable ≤ writer) .unsupportedFormat

/-- `validate_required_features`: no feature outside those the reader knows. -/
def validateRequiredFeatures (required : Nat) (reader : FormatDescriptor) : Except Errc Unit :=
  require (required &&& (2 ^ 64 - 1 - reader.supportedFeatures) = 0) .unsupportedFormat

/-! ## The header -/

/-- `envelope_magic`. -/
def envelopeMagic : Nat := 0x4642514b

/-- `unverified_envelope_prefix`. -/
structure EnvelopePrefix where
  family : Nat
  writerVersion : Nat
  minimumReaderVersion : Nat
  headerBytes : Nat
  bodyBytes : Nat
  requiredFeatures : Nat
  bodyCrc32c : Nat
  headerCrc32c : Nat
  deriving DecidableEq

/-- `validate_prefix_work`. -/
def validatePrefixWork (policy : Limits) : Except Errc Unit := admitWork policy 128 64

/-- `validate_prefix_extents`. -/
def validatePrefixExtents (headerBytes bodyBytes : Nat) (policy : Limits) (owner : ExtentLimits) :
    Except Errc Unit := do
  require (envelopePrefixBytes ≤ headerBytes) .malformedData
  require (headerBytes ≤ policy.config.maxHeaderBytes) .resourceExhausted
  require (bodyBytes ≤ bodyLimit policy owner) .resourceExhausted
  require (headerBytes + bodyBytes ≤ min policy.config.maxRetainedBytes owner.maxEncodedBytes)
    .resourceExhausted

/-- The fields of a header without extensions. -/
def prefixFields (descriptor : FormatDescriptor) (bodyBytes bodyCrc headerCrc : Nat) : List Field :=
  [⟨0, 4, envelopeMagic, false⟩, ⟨4, 2, descriptor.family.code, false⟩, ⟨6, 2, descriptor.writer, false⟩,
    ⟨8, 2, descriptor.minimumReader, false⟩, ⟨10, 2, envelopePrefixBytes, false⟩,
    ⟨12, 4, bodyBytes, false⟩, ⟨16, 8, 0, false⟩, ⟨24, 4, bodyCrc, false⟩, ⟨28, 4, headerCrc, false⟩]

/-- `encode_envelope_prefix`. -/
def encodeEnvelopePrefix (family : FormatFamily) (bodyBytes bodyCrc headerCrc : Nat) (policy : Limits)
    (owner : ExtentLimits) : Except Errc (List UInt8) := do
  validatePrefixWork policy
  let descriptor ← lookupFormat family.code
  require (bodyBytes < 2 ^ 32) .invalidArgument
  validatePrefixExtents envelopePrefixBytes bodyBytes policy owner
  pure (writeFields envelopePrefixBytes (prefixFields descriptor bodyBytes bodyCrc headerCrc))

/-- `encode_padded`: the fixed fields, the tail and zero padding, in an envelope. -/
def encodePadded (digests : Digests) (family : FormatFamily) (fixed tail : List UInt8)
    (layout : AlignedLayout) (policy : Limits) : Except Errc (List UInt8) := do
  let body := fixed ++ tail ++ List.replicate layout.paddingBytes 0
  require (fixed ≠ [] ∧ fixed.length ≤ 320 ∧ layout.headerBytes = envelopePrefixBytes
    ∧ layout.bodyBytes = body.length) .invalidArgument
  let header ← encodeEnvelopePrefix family layout.bodyBytes (digests.crc32c body) 0 policy
    ⟨layout.bodyBytes, layout.encodedBytes⟩
  pure (store header 28 (lowOctets 4 (digests.crc32c header)) ++ body)

/-! ## Reading an envelope -/

/-- `input_boundary`: whether more input may follow what was supplied. -/
inductive InputBoundary
  | open_
  | complete
  deriving DecidableEq

/-- What is missing is a truncation only where more may follow. -/
def InputBoundary.shortage : InputBoundary → Errc
  | open_ => .truncatedData
  | complete => .malformedData

/-- `peek_envelope_prefix`. -/
def peekEnvelopePrefix (input : List UInt8) (policy : Limits) (owner : ExtentLimits)
    (boundary : InputBoundary) : Except Errc EnvelopePrefix := do
  validatePrefixWork policy
  require (envelopePrefixBytes ≤ input.length) boundary.shortage
  require (load input 0 4 = envelopeMagic) .malformedData
  validatePrefixExtents (load input 10 2) (load input 12 4) policy owner
  pure { family := load input 4 2, writerVersion := load input 6 2,
         minimumReaderVersion := load input 8 2, headerBytes := load input 10 2,
         bodyBytes := load input 12 4, requiredFeatures := load input 16 8,
         bodyCrc32c := load input 24 4, headerCrc32c := load input 28 4 }

/-- `verify_header_crc`: the checksum's own slot counts as zeros. -/
def verifyHeaderCrc (digests : Digests) (header : List UInt8) : Except Errc Unit :=
  require (digests.crc32c (store header 28 (List.replicate 4 0)) = load header 28 4) .corruptData

/-- `header_extension_prefix_bytes`. -/
def headerExtensionPrefixBytes : Nat := 8

/-- `scan_header_extensions`: tags rise, no flag but the first is known, and a mandatory extension is
    one the reader does not have. Answers how many there are. -/
def scanHeaderExtensions (maxExtensions : Nat) (region : List UInt8) (previousTag count : Nat) :
    Except Errc Nat :=
  if h : region = [] then .ok count
  else if hshort : region.length < headerExtensionPrefixBytes then .error .malformedData
  else do
    require (count ≠ maxExtensions) .resourceExhausted
    let tag := load region 0 2
    let flags := load region 2 2
    let valueLength := load region 4 4
    require (tag ≠ 0 ∧ previousTag < tag) .malformedData
    require (flags &&& 0xfffe = 0) .unsupportedFormat
    require (valueLength ≤ region.length - headerExtensionPrefixBytes) .malformedData
    require (flags &&& 1 = 0) .unsupportedFormat
    scanHeaderExtensions maxExtensions (region.drop (headerExtensionPrefixBytes + valueLength)) tag
      (count + 1)
  termination_by region.length
  decreasing_by
    rw [List.length_drop]
    have : 0 < headerExtensionPrefixBytes := by decide
    omega

/-- `inspect_envelope_in_transaction`: the header's octets and the body of an envelope at the front of
    the input. -/
def inspectEnvelope (digests : Digests) (family : FormatFamily) (policy : CodecLimits)
    (owner : ExtentLimits) (boundary : InputBoundary) (input : List UInt8) :
    Except Errc (Nat × List UInt8) := do
  let found ← peekEnvelopePrefix input policy.toLimits owner boundary
  require (found.headerBytes ≤ input.length) boundary.shortage
  let header := input.take found.headerBytes
  verifyHeaderCrc digests header
  -- only now may the family and the versions be looked at
  validateSenderVersionValues found.writerVersion found.minimumReaderVersion
  let descriptor ← lookupFormat found.family
  validateSenderVersions found.writerVersion found.minimumReaderVersion descriptor
  validateRequiredFeatures found.requiredFeatures descriptor
  let _ ← scanHeaderExtensions policy.maxExtensions (header.drop envelopePrefixBytes) 0 0
  require (found.headerBytes + found.bodyBytes ≤ input.length) boundary.shortage
  let body := (input.drop found.headerBytes).take found.bodyBytes
  require (digests.crc32c body = found.bodyCrc32c) .corruptData
  require (found.family = family.code) .wrongContext
  pure (found.headerBytes, body)

/-! ## What is written is read -/

section RoundTrip

variable {digests : Digests} {family : FormatFamily} {policy : CodecLimits} {fixed tail bytes : List UInt8}
  {layout : AlignedLayout} {boundary : InputBoundary}

theorem lookupFormat_code : ∃ descriptor, lookupFormat family.code = .ok descriptor
    ∧ descriptor = ⟨family, 1, 1, 1, 1, 0⟩ := by
  cases family <;> exact ⟨_, rfl, rfl⟩

theorem prefixFields_laidOut {descriptor : FormatDescriptor} {bodyBytes bodyCrc headerCrc : Nat} :
    laidOut envelopePrefixBytes
      ((prefixFields descriptor bodyBytes bodyCrc headerCrc).map Field.place) = true := by
  change laidOut 32 [(0, 4), (4, 2), (6, 2), (8, 2), (10, 2), (12, 4), (16, 8), (24, 4), (28, 4)] = true
  decide

theorem FormatFamily.code_lt : family.code < 12 := by
  cases family <;> decide

/-- The last field stored is the header's own checksum. -/
theorem store_prefixFields {descriptor : FormatDescriptor} {bodyBytes bodyCrc old new : Nat} :
    store (writeFields envelopePrefixBytes (prefixFields descriptor bodyBytes bodyCrc old)) 28
        (lowOctets 4 new)
      = writeFields envelopePrefixBytes (prefixFields descriptor bodyBytes bodyCrc new) := by
  have hsplit : ∀ crc, prefixFields descriptor bodyBytes bodyCrc crc
      = (prefixFields descriptor bodyBytes bodyCrc crc).take 8 ++ [⟨28, 4, crc, false⟩] := fun _ => rfl
  have hlaid := @prefixFields_laidOut descriptor bodyBytes bodyCrc old
  rw [hsplit old] at hlaid ⊢
  rw [hsplit new, writeFields_append, writeFields_append]
  have hlen := length_writeFields (laidOut_append hlaid).1
  refine store_store ?_ rfl
  rw [hlen, Field.length_octets]
  exact Nat.le_refl _

/-- **What `encode_padded` writes**: the header of the family with both checksums, and the body. -/
theorem encodePadded_eq_ok
    (h : encodePadded digests family fixed tail layout policy.toLimits = .ok bytes) :
    let body := fixed ++ tail ++ List.replicate layout.paddingBytes 0
    let fields := prefixFields ⟨family, 1, 1, 1, 1, 0⟩ layout.bodyBytes (digests.crc32c body)
    bytes = writeFields envelopePrefixBytes
        (fields (digests.crc32c (writeFields envelopePrefixBytes (fields 0)))) ++ body
      ∧ layout.bodyBytes = body.length ∧ layout.headerBytes = envelopePrefixBytes
      ∧ layout.bodyBytes < 2 ^ 32 ∧ validatePrefixWork policy.toLimits = .ok ()
      ∧ validatePrefixExtents envelopePrefixBytes layout.bodyBytes policy.toLimits
          ⟨layout.bodyBytes, layout.encodedBytes⟩ = .ok () := by
  unfold encodePadded encodeEnvelopePrefix at h
  simp only [bind_eq_ok, require_eq_ok, pure_eq_ok] at h
  obtain ⟨_, ⟨_, _, hheader, hbody⟩, _, ⟨_, hwork, descriptor, hlookup, _, hfits, _, hextents, rfl⟩, rfl⟩ := h
  obtain ⟨_, hfound, rfl⟩ := @lookupFormat_code family
  rw [hfound] at hlookup
  cases hlookup
  refine ⟨?_, hbody, hheader, hfits, hwork, hextents⟩
  rw [store_prefixFields]

theorem validatePrefixExtents_eq_ok {headerBytes bodyBytes : Nat} {owner : ExtentLimits} {u : Unit} :
    validatePrefixExtents headerBytes bodyBytes policy.toLimits owner = .ok u
      ↔ headerFits headerBytes policy.toLimits ∧ bodyBytes ≤ bodyLimit policy.toLimits owner
        ∧ headerBytes + bodyBytes ≤ min policy.config.maxRetainedBytes owner.maxEncodedBytes := by
  unfold validatePrefixExtents headerFits
  simp only [bind_eq_ok, require_eq_ok, exists_const, and_assoc]

/-- A wider owner accepts what a narrower one does. -/
theorem validatePrefixExtents_mono {headerBytes bodyBytes : Nat} {narrow wide : ExtentLimits}
    (h : validatePrefixExtents headerBytes bodyBytes policy.toLimits narrow = .ok ())
    (hbody : narrow.maxBodyBytes ≤ wide.maxBodyBytes)
    (hencoded : narrow.maxEncodedBytes ≤ wide.maxEncodedBytes) :
    validatePrefixExtents headerBytes bodyBytes policy.toLimits wide = .ok () := by
  rw [validatePrefixExtents_eq_ok] at h ⊢
  obtain ⟨hheader, hfits, htotal⟩ := h
  refine ⟨hheader, hfits.trans ?_, htotal.trans ?_⟩
  · exact le_min (min_le_left _ _) ((min_le_right _ _).trans hbody)
  · exact le_min (min_le_left _ _) ((min_le_right _ _).trans hencoded)

/-- **An envelope is read as it was written**: at the front of any input, its header is the prefix alone
    and its body the fixed fields, the tail and the padding. -/
theorem inspectEnvelope_encodePadded {owner : ExtentLimits} {rest : List UInt8}
    (h : encodePadded digests family fixed tail layout policy.toLimits = .ok bytes)
    (hbody : layout.bodyBytes ≤ owner.maxBodyBytes) (hencoded : layout.encodedBytes ≤ owner.maxEncodedBytes) :
    inspectEnvelope digests family policy owner boundary (bytes ++ rest)
      = .ok (envelopePrefixBytes, fixed ++ tail ++ List.replicate layout.paddingBytes 0) := by
  obtain ⟨hbytes, hlength, _, hfits, hwork, hextents⟩ := encodePadded_eq_ok h
  generalize hB : fixed ++ tail ++ List.replicate layout.paddingBytes 0 = body at *
  generalize hcrc : digests.crc32c body = crc at *
  generalize hsum : digests.crc32c (writeFields envelopePrefixBytes
    (prefixFields ⟨family, 1, 1, 1, 1, 0⟩ layout.bodyBytes crc 0)) = sum at *
  have hlaid := @prefixFields_laidOut ⟨family, 1, 1, 1, 1, 0⟩ layout.bodyBytes crc sum
  have hlen := length_writeFields hlaid
  set header := writeFields envelopePrefixBytes
    (prefixFields ⟨family, 1, 1, 1, 1, 0⟩ layout.bodyBytes crc sum) with hheader
  have hwhole : bytes ++ rest = header ++ (body ++ rest) := by rw [hbytes, List.append_assoc]
  -- each field of the input is that of the header
  have hload : ∀ offset width value, offset + width ≤ 32 → value < 256 ^ width
      → ⟨offset, width, value, false⟩ ∈ prefixFields ⟨family, 1, 1, 1, 1, 0⟩ layout.bodyBytes crc sum
      → load (bytes ++ rest) offset width = value := by
    intro offset width value hplace hvalue hmem
    rw [hwhole, load_append (by rw [hlen]; exact hplace)]
    exact load_writeFields hlaid hmem hvalue
  have hmagic := hload 0 4 envelopeMagic (by decide) (by decide) (by simp [prefixFields])
  have hfamily := hload 4 2 family.code (by decide) (FormatFamily.code_lt.trans (by decide))
    (by simp [prefixFields])
  have hwriter := hload 6 2 1 (by decide) (by decide) (by simp [prefixFields])
  have hreader := hload 8 2 1 (by decide) (by decide) (by simp [prefixFields])
  have hsize := hload 10 2 envelopePrefixBytes (by decide) (by decide) (by simp [prefixFields])
  have hextent := hload 12 4 layout.bodyBytes (by decide) hfits (by simp [prefixFields])
  have hfeatures := hload 16 8 0 (by decide) (by decide) (by simp [prefixFields])
  have hbodyCrc := hload 24 4 crc (by decide) crc.isLt (by simp [prefixFields])
  have hheaderCrc := hload 28 4 sum (by decide) sum.isLt (by simp [prefixFields])
  have htake : (bytes ++ rest).take envelopePrefixBytes = header := by
    rw [hwhole, ← hlen, List.take_left]
  have hdrop : (bytes ++ rest).drop envelopePrefixBytes = body ++ rest := by
    rw [hwhole, ← hlen, List.drop_left]
  have hroom : (bytes ++ rest).length = envelopePrefixBytes + layout.bodyBytes + rest.length := by
    rw [hwhole, List.length_append, List.length_append, hlen, hlength]
    omega
  have hverified : verifyHeaderCrc digests header = .ok () := by
    refine require_eq_ok.mpr ?_
    have hzero : List.replicate 4 0 = lowOctets 4 0 := rfl
    rw [hzero, hheader, store_prefixFields, hsum, ← hheader]
    have hown : load header 28 4 = load (bytes ++ rest) 28 4 := by
      rw [hwhole, load_append (by rw [hlen]; decide)]
    rw [hown, hheaderCrc]
  obtain ⟨_, hlookup, rfl⟩ := @lookupFormat_code family
  have hpeek := validatePrefixExtents_mono hextents hbody hencoded
  unfold inspectEnvelope peekEnvelopePrefix
  simp only [bind_eq_ok, require_eq_ok, exists_const, pure_eq_ok]
  refine ⟨_, ⟨(), hwork, by omega, hmagic, (), ?_, rfl⟩, ?_⟩
  · rw [hsize, hextent]
    exact hpeek
  · simp only [hsize, hextent, hfamily, hwriter, hreader, hfeatures, hbodyCrc, htake, hdrop]
    refine ⟨by omega, (), hverified, (), rfl, _, hlookup, (), rfl, (), ?_, 0, ?_, by omega, ?_, trivial,
      ?_⟩
    · exact require_eq_ok.mpr (Nat.zero_and _)
    · rw [← hlen, List.drop_length, scanHeaderExtensions, dif_pos rfl]
    · rw [hlength, List.take_left, hcrc]
    · rw [hlength, List.take_left]

end RoundTrip

/-! ## The checksum as it is -/

/-- One octet of CRC-32C, low bit first. -/
def crcOctet (crc : Nat) (octet : UInt8) : Nat :=
  (List.range 8).foldl (fun crc _ => if crc % 2 = 1 then crc / 2 ^^^ 0x82f63b78 else crc / 2)
    (crc ^^^ octet.toNat)

/-- CRC-32C of octets from a zero seed. -/
def castagnoli (octets : List UInt8) : Fin (2 ^ 32) :=
  Fin.ofNat (2 ^ 32) (octets.foldl crcOctet 0xffffffff ^^^ 0xffffffff)

example : castagnoli [49, 50, 51, 52, 53, 54, 55, 56, 57] = 0xe3069283 := by decide +kernel

/-- The checksum as it is, with a digest that nothing here asks for. -/
def castagnoliDigests : Digests := ⟨castagnoli, fun _ => 0⟩

end KwaqueStorage.Codec
