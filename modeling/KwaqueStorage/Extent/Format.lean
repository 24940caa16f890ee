import KwaqueStorage.Base.Types

/-!
# Blocks and footers of a segment file

What a segment file holds after its header: batch blocks, back to back, and durable footers,
each naming the blocks before it. Here are the values the block and footer codecs hand to their
callers, and what the callers may rely on.

The codecs themselves are a parameter. A block's decode is given the placement its caller
expects and answers a descriptor of exactly that placement; asked again under another
expectation that the descriptor meets, it answers the same. A footer's decode names the place it
was asked for. Memory, aborts and work quanta, which can fail a decode at any point, are left out.
-/

namespace KwaqueStorage.Extent

/-- `codec::error`, less the byte offset it points at. -/
structure CodecError where
  code : Errc
  family : Nat := 0
  field : Nat := 0
  deriving DecidableEq

/-- `format_family::segment_batch_block`. -/
def blockFamily : Nat := 4

/-- `format_family::durable_boundary_footer`. -/
def footerFamily : Nat := 6

/-- `segment_context`. -/
structure SegmentContext where
  cluster : Nat
  topic : Nat
  range : Nat
  segment : Nat
  generation : Nat
  deriving DecidableEq

/-- `storage_profile`. -/
inductive StorageProfile
  | v1
  deriving DecidableEq

/-- The greatest `std::uint64_t`. -/
def u64Max : Nat := 18446744073709551615

/-- `segment_history_context`. An alignment is a power of two and never zero; the origins are
    64-bit. -/
structure History where
  segment : SegmentContext
  alignment : Nat
  dataStart : Nat
  logicalOrigin : Nat
  physicalOrigin : Nat
  profile : StorageProfile := .v1
  alignment_pos : 0 < alignment := by decide
  logical_fits : logicalOrigin ≤ u64Max := by decide
  physical_fits : physicalOrigin ≤ u64Max := by decide
  deriving DecidableEq

/-- `storage_alignment::aligned`. -/
def History.aligned (history : History) (position : Nat) : Bool :=
  position % history.alignment = 0

/-- `segment_write_context`. -/
structure WriteContext where
  segment : SegmentContext
  alignment : Nat
  physicalBegin : Nat
  position : Nat
  deriving DecidableEq

/-- `producer_stream_binding`: where a batch was first submitted to, and by which stream. -/
structure Binding where
  topic : Nat
  range : Nat
  segment : Nat
  generation : Nat
  stream : Nat
  deriving DecidableEq

/-- `assigned_batch_info`, with the context it carries. -/
structure BatchInfo where
  id : Nat
  binding : Binding
  originalCount : Nat
  retainedCount : Nat
  logical : Span
  fingerprint : Nat
  maxRecordTime : Int
  deriving DecidableEq

/-- `batch_decode_expectation`. -/
structure BatchExpectation where
  topic : Nat
  range : Nat
  id : Option Nat := none
  originalBinding : Option Binding := none
  fingerprint : Option Nat := none
  deriving DecidableEq

/-- `segment_block_stamps`. -/
structure Stamps where
  appendTime : Int
  certifiedEnd : Nat
  deriving DecidableEq

/-- `complete_block_descriptor`. -/
structure Descriptor where
  context : SegmentContext
  physical : Span
  bytes : Span
  batch : BatchInfo
  stamps : Stamps
  deriving DecidableEq

/-- `complete_block_descriptor::coverage`. -/
def Descriptor.coverage (d : Descriptor) : Coverage := ⟨d.batch.logical, d.physical, d.bytes⟩

/-- `segment_block_expectation`. -/
structure BlockExpectation where
  location : WriteContext
  dataStart : Nat
  batch : BatchExpectation
  profile : StorageProfile
  deriving DecidableEq

/-- Whether a block's batch is one its caller expects. -/
def BatchExpectation.meets (expected : BatchExpectation) (info : BatchInfo) : Bool :=
  decide (info.binding.topic = expected.topic) && decide (info.binding.range = expected.range)
    && expected.id.all (· = info.id)
    && expected.originalBinding.all (· = info.binding)
    && expected.fingerprint.all (· = info.fingerprint)

/-- What a decode under an expectation says of the descriptor it answers: the block lies where it
    was expected, its retained records follow the physical begin, and its logical span is the one
    of the original batch. -/
structure Descriptor.Placed (d : Descriptor) (expected : BlockExpectation) : Prop where
  context : d.context = expected.location.segment
  bytes_begin : d.bytes.begin_ = expected.location.position
  physical_begin : d.physical.begin_ = expected.location.physicalBegin
  physical_end : d.physical.end_ = d.physical.begin_ + d.batch.retainedCount
  logical_end : d.batch.logical.end_ = d.batch.logical.begin_ + d.batch.originalCount
  retained_pos : 0 < d.batch.retainedCount
  certified_from : expected.dataStart ≤ d.stamps.certifiedEnd
  certified_to : d.stamps.certifiedEnd ≤ expected.location.position
  meets : expected.batch.meets d.batch = true

/-- `boundary_times`, in nanoseconds; all zero over no block. -/
structure Times where
  firstAppend : Int := 0
  maxAppend : Int := 0
  maxRecord : Int := 0
  deriving DecidableEq

/-- `boundary_fields`. -/
structure BoundaryFields where
  coverage : Coverage
  blockCount : Nat
  lastBlock : Option Coverage
  times : Times
  dataCrc : UInt32
  deriving DecidableEq

/-- `footer_expectation`. -/
structure FooterExpectation where
  history : History
  position : Nat
  deriving DecidableEq

/-- `durable_footer`. -/
structure Footer where
  location : FooterExpectation
  boundary : BoundaryFields
  extent : Span
  deriving DecidableEq

/-- `verified_extent`. -/
structure VerifiedExtent where
  context : History
  boundary : BoundaryFields
  digest : Option Nat := none
  deriving DecidableEq

/-- The bounds a footer's envelope keeps: an envelope prefix at least and `footer_limits` at most. -/
def footerBytesMin : Nat := 32

/-- The bounds a footer's envelope keeps: an envelope prefix at least and `footer_limits` at most. -/
def footerBytesMax : Nat := 65536

/-- The block and footer codecs, the CRC of stored bytes and the two digests, with what their
    callers rely on. -/
structure Codec (Policy : Type) where
  /-- `decode_segment_block`, to the descriptor of the block. -/
  decodeBlock : Policy → List UInt8 → BlockExpectation → Except CodecError Descriptor
  /-- `decode_durable_footer`. -/
  decodeFooter : Policy → List UInt8 → FooterExpectation → Except CodecError Footer
  /-- CRC32C of bytes, continued from a seed. -/
  crc : UInt32 → List UInt8 → UInt32
  /-- `hash_exact`: the identity of an immutable object. -/
  objectDigest : List UInt8 → Nat
  /-- The XXH3 of a stream of bytes. -/
  extentDigest : List UInt8 → Nat
  block_placed : ∀ policy bytes expected d,
    decodeBlock policy bytes expected = .ok d → d.Placed expected
  block_again : ∀ policy bytes (expected other : BlockExpectation) d,
    decodeBlock policy bytes expected = .ok d → other.location = expected.location →
    other.dataStart = expected.dataStart → other.profile = expected.profile →
    other.batch.meets d.batch = true → decodeBlock policy bytes other = .ok d
  footer_located : ∀ policy bytes expected f,
    decodeFooter policy bytes expected = .ok f → f.location = expected
  /-- A footer ends its write on an alignment boundary, within the limits of its envelope. -/
  footer_extent : ∀ policy bytes expected f, decodeFooter policy bytes expected = .ok f →
    f.extent.begin_ = expected.position ∧ expected.history.aligned f.extent.end_ = true
      ∧ expected.position + footerBytesMin ≤ f.extent.end_
      ∧ f.extent.end_ ≤ expected.position + footerBytesMax
  crc_nil : ∀ seed, crc seed [] = seed
  crc_append : ∀ seed a b, crc seed (a ++ b) = crc (crc seed a) b

/-- `validate_history`. -/
def validateHistory (history : History) : Except CodecError Unit :=
  if history.dataStart = 0 ∨ history.aligned history.dataStart = false then
    .error { code := .invalidArgument, field := 224 }
  else .ok ()

/-- `validate_footer_location`. -/
def validateFooterLocation (expected : FooterExpectation) : Except CodecError Unit := do
  validateHistory expected.history
  if expected.position < expected.history.dataStart then
    .error { code := .invalidArgument, family := footerFamily, field := 230 }

/-- `validate_durable_footer`: a footer against evidence for the history it names. -/
def validateDurableFooter (footer : Footer) (evidence : VerifiedExtent) : Except CodecError Unit :=
  let refuse (code : Errc) (field : Nat) : Except CodecError Unit :=
    .error { code, family := footerFamily, field }
  let actual := footer.boundary
  let expected := evidence.boundary
  if footer.location.history ≠ evidence.context then refuse .wrongContext 224
  else if actual.coverage ≠ expected.coverage then refuse .malformedData 231
  else if actual.blockCount ≠ expected.blockCount then refuse .malformedData 232
  else if actual.lastBlock ≠ expected.lastBlock then refuse .malformedData 235
  else if actual.times ≠ expected.times then refuse .malformedData 238
  else if actual.dataCrc ≠ expected.dataCrc then refuse .corruptData 236
  else .ok ()

/-- **A footer passes exactly where it names the evidence's own history and boundary.** -/
theorem validateDurableFooter_ok {footer : Footer} {evidence : VerifiedExtent} :
    validateDurableFooter footer evidence = .ok () ↔
      footer.location.history = evidence.context ∧ footer.boundary = evidence.boundary := by
  constructor
  · intro h
    simp only [validateDurableFooter] at h
    split at h
    · cases h
    next hcontext =>
    split at h
    · cases h
    next hcoverage =>
    split at h
    · cases h
    next hcount =>
    split at h
    · cases h
    next hlast =>
    split at h
    · cases h
    next htimes =>
    split at h
    · cases h
    next hcrc =>
    refine ⟨of_not_not hcontext, ?_⟩
    cases hb : footer.boundary
    cases he : evidence.boundary
    simp_all
  · rintro ⟨hcontext, hboundary⟩
    simp [validateDurableFooter, hcontext, hboundary]

/-! ## Codec-owned values -/

/-- `segment_block`: exact bytes and the descriptor they were validated to. No constructor attaches
    a descriptor to other bytes, so the decode is part of the value. -/
structure SegmentBlock {Policy : Type} (codec : Codec Policy) where
  bytes : List UInt8
  descriptor : Descriptor
  alignment : Nat
  dataStart : Nat
  profile : StorageProfile
  validated : Policy
  decoded : ∃ batch, codec.decodeBlock validated bytes
    ⟨⟨descriptor.context, alignment, descriptor.physical.begin_, descriptor.bytes.begin_⟩,
      dataStart, batch, profile⟩ = .ok descriptor

/-- `encoded_durable_footer`: bytes and the descriptor that produced them. -/
structure EncodedFooter {Policy : Type} (codec : Codec Policy) where
  bytes : List UInt8
  descriptor : Footer
  validated : Policy
  decoded : codec.decodeFooter validated bytes descriptor.location = .ok descriptor
  extent : descriptor.extent.end_ = descriptor.location.position + bytes.length

end KwaqueStorage.Extent
