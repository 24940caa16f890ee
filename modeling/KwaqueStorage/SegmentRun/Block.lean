import KwaqueStorage.Codec.Envelope
import KwaqueStorage.Manifest.Entry
import KwaqueStorage.SegmentRun.Run

/-!
# The check of one block

`check_segment_block` takes the bytes of one object and the place it is expected at. The envelope comes
first: the header's checksum, the versions, the body's checksum, and only then the family. Of the body it
reads the block's own fixed part and the fixed part of the batch inside it, and holds the one against the
other; the records themselves are covered by the body's checksum and are not decoded.

A block that is not the one expected is answered with `wrong_context`, and every such answer is given
after both checksums held. That, and where a block that passed lies, is what the walk of a run needs.
-/

namespace KwaqueStorage.SegmentRun

open Scan Extent Layout Codec Lib
open RetryPages (load readId readCounter readPadding)

/-! ## The codec -/

/-- `model::assigned_batch_fixed_bytes`. -/
def assignedBatchFixedBytes : Nat := 184

/-- `block_limits`: as much as an envelope may be. -/
def blockLimits (policy : Limits) : ExtentLimits :=
  ⟨policy.config.maxEncodedBodyBytes, policy.config.maxEncodedBodyBytes + policy.config.maxHeaderBytes⟩

/-- `from_wire`: what a value's own constructor refuses is malformed, unless it is unknown or too much. -/
def fromWire {α : Type} : Except Errc α → Except Errc α
  | .ok value => .ok value
  | .error .unsupportedFormat => .error .unsupportedFormat
  | .error .resourceExhausted => .error .resourceExhausted
  | .error _ => .error .malformedData

/-- `check_context`: each identity is read and held against the one expected before the next is. -/
def checkContext (fixed : List UInt8) (expected : SegmentContext) : Except Errc Unit := do
  let cluster ← readId fixed 0
  require (cluster = expected.cluster) .wrongContext
  let topic ← readId fixed 16
  require (topic = expected.topic) .wrongContext
  let range ← readId fixed 32
  require (range = expected.range) .wrongContext
  let segment ← readId fixed 48
  require (segment = expected.segment) .wrongContext
  let generation ← readCounter fixed 64
  require (generation = expected.generation) .wrongContext

/-- `check_expectation`. The one profile there is parses. -/
def checkExpectation (expected : BlockExpectation) : Except Errc Unit :=
  require (expected.dataStart ≠ 0 ∧ expected.dataStart % expected.location.alignment = 0
    ∧ expected.dataStart ≤ expected.location.position
    ∧ expected.batch.topic = expected.location.segment.topic
    ∧ expected.batch.range = expected.location.segment.range
    ∧ ∀ binding ∈ expected.batch.originalBinding,
      binding.topic = expected.batch.topic ∧ binding.range = expected.batch.range) .invalidArgument

/-- `read_stamps`, as far as it refuses: an append time of at least one, and a certified end from the data
    start to the block's own position, on a boundary. -/
def readStamps (fixed : List UInt8) (expected : BlockExpectation) : Except Errc Unit := do
  require (1 ≤ Manifest.loadTime fixed 112) .malformedData
  let certified := load fixed 128 8
  require (expected.dataStart ≤ certified ∧ certified ≤ expected.location.position
    ∧ certified % expected.location.alignment = 0) .malformedData

/-- `segment_relative_span::from_count`. -/
def spanFromCount (begin_ count : Nat) : Except Errc Span := do
  let end_ ← addOr begin_ count
  pure ⟨begin_, end_⟩

/-- `range_logical_span::make`. -/
def makeSpan (begin_ end_ : Nat) : Except Errc Span := do
  require (begin_ ≤ end_) .invalidArgument
  pure ⟨begin_, end_⟩

/-- The fixed part of the batch in a block, and what follows it: the batch's prefix names an assigned
    batch of exactly the stated length. -/
def readChild (policy : Limits) (childBytes : Nat) (input : List UInt8) :
    Except Errc (List UInt8 × List UInt8) := do
  let found ← peekEnvelopePrefix input policy ⟨childBytes, childBytes⟩ .open_
  require (found.family = FormatFamily.assignedBatch.code
    ∧ found.headerBytes + found.bodyBytes = childBytes
    ∧ assignedBatchFixedBytes ≤ found.bodyBytes) .malformedData
  require (found.headerBytes ≤ input.length) .malformedData
  let body := input.drop found.headerBytes
  require (assignedBatchFixedBytes ≤ body.length) .malformedData
  let rest := body.drop assignedBatchFixedBytes
  pure (body.take assignedBatchFixedBytes,
    rest.drop (childBytes - (found.headerBytes + assignedBatchFixedBytes)))

/-- The records a block says it holds, against what its batch says. -/
def readRecords (expected : BlockExpectation) (fixed child : List UInt8) :
    Except Errc (Span × Span) := do
  let topic ← readId child 40
  let range ← readId child 56
  require (topic = expected.batch.topic ∧ range = expected.batch.range) .wrongContext
  let physical ← fromWire (spanFromCount expected.location.physicalBegin (load child 148 4))
  require (load fixed 88 8 = physical.end_) .malformedData
  require (load fixed 96 8 = load child 168 8) .malformedData
  require (load fixed 104 8 = load child 176 8) .malformedData
  let logical ← fromWire (makeSpan (load fixed 96 8) (load fixed 104 8))
  -- a block holds at least one record
  require (logical.isEmpty = false ∧ physical.isEmpty = false) .malformedData
  pure (logical, physical)

/-- `block_checker`: the body of a block. -/
def readBlock (policy : Limits) (expected : BlockExpectation) (headerBytes : Nat) (body : List UInt8) :
    Except Errc CheckedBlock := do
  require (segmentBlockFixedBytes ≤ body.length) .malformedData
  admitWork policy 1024 64
  let fixed := body.take segmentBlockFixedBytes
  checkContext fixed expected.location.segment
  require (load fixed 72 8 = expected.location.position) .wrongContext
  require (load fixed 80 8 = expected.location.physicalBegin) .wrongContext
  readStamps fixed expected
  let childBytes := load fixed 136 4
  require (childBytes ≠ 0) .malformedData
  let layout ← fromWire (AlignedLayout.place ⟨headerBytes, segmentBlockFixedBytes, childBytes⟩
    expected.location.position .continues expected.location.alignment policy (blockLimits policy))
  require (layout.bodyBytes = body.length ∧ load fixed 140 4 = layout.paddingBytes) .malformedData
  let extent ← fromWire (layout.spanAt expected.location.position)
  let (child, rest) ← readChild policy childBytes (body.drop segmentBlockFixedBytes)
  let (logical, physical) ← readRecords expected fixed child
  readPadding rest layout.paddingBytes
  pure ⟨⟨logical, physical, extent⟩, headerBytes + segmentBlockFixedBytes, childBytes⟩

/-- What `decode_envelope` makes of a body that ends early: no more of it can follow. -/
def untruncated : Errc → Errc
  | .truncatedData => .malformedData
  | code => code

/-- `check_segment_block` of exactly one object's bytes. -/
def checkSegmentBlock (digests : Digests) (policy : CodecLimits) (bytes : List UInt8)
    (expected : BlockExpectation) : Except Errc CheckedBlock := do
  checkExpectation expected
  let (headerBytes, body) ← inspectEnvelope digests .segmentBatchBlock policy
    (blockLimits policy.toLimits) .complete bytes
  (readBlock policy.toLimits expected headerBytes body).mapError untruncated

/-- `body_extent_field`: the error names the body's size or the encoded one, so every check before those
    passed. -/
def bodyExtentField (policy : Limits) (raw : List UInt8) : Bool :=
  decide (validatePrefixWork policy = .ok () ∧ Layout.envelopePrefixBytes ≤ raw.length
    ∧ load raw 0 4 = envelopeMagic ∧ Layout.envelopePrefixBytes ≤ load raw 10 2
    ∧ load raw 10 2 ≤ policy.config.maxHeaderBytes)

/-- `peek_envelope_prefix` as a walk asks it: the length of the object. -/
def peekLength (policy : Limits) (raw : List UInt8) : Except PrefixError Nat :=
  match peekEnvelopePrefix raw policy (blockLimits policy) .complete with
  | .ok found => .ok (found.headerBytes + found.bodyBytes)
  | .error code => .error ⟨code, bodyExtentField policy raw⟩

theorem headerBytes_eq_load {raw : List UInt8} (h : Layout.envelopePrefixBytes ≤ raw.length) :
    Scan.headerBytes raw = load raw 10 2 := by
  have hfixed : Layout.envelopePrefixBytes = 32 := rfl
  have hfirst : 10 < raw.length := by omega
  have hsecond : 11 < raw.length := by omega
  have hfield : RetryPages.field raw 10 2 = [raw[10], raw[11]] := by
    unfold RetryPages.field
    rw [List.drop_eq_getElem_cons hfirst, List.take_succ_cons, List.drop_eq_getElem_cons hsecond,
      List.take_succ_cons, List.take_zero]
  unfold Scan.headerBytes load
  rw [hfield, getElem!_pos raw 10 hfirst, getElem!_pos raw 11 hsecond]
  simp [RetryPages.littleEndian]

theorem peekLength_extents {policy : CodecLimits} {raw : List UInt8} {length : Nat}
    (h : peekLength policy.toLimits raw = .ok length) :
    Scan.envelopePrefixBytes ≤ Scan.headerBytes raw ∧ Scan.headerBytes raw ≤ length := by
  unfold peekLength at h
  cases hpeek : peekEnvelopePrefix raw policy.toLimits (blockLimits policy.toLimits) .complete with
  | error code =>
    rw [hpeek] at h
    cases h
  | ok found =>
    rw [hpeek] at h
    cases h
    unfold peekEnvelopePrefix at hpeek
    simp only [bind_eq_ok, require_eq_ok, pure_eq_ok, validatePrefixExtents_eq_ok] at hpeek
    obtain ⟨_, _, _, hlen, _, _, _, ⟨hheader, _⟩, rfl⟩ := hpeek
    rw [headerBytes_eq_load hlen]
    exact ⟨hheader.1, Nat.le_add_right _ _⟩

/-- The codecs a walk asks, over a checksum. -/
def runCodec (digests : Digests) (policy : CodecLimits) : RunCodec where
  peekPrefix := peekLength policy.toLimits
  headerCrc header := decide (verifyHeaderCrc digests header = .ok ())
  family raw := load raw 4 2
  checkBlock := checkSegmentBlock digests policy
  extents _ _ h := peekLength_extents h

/-! ## What an answer says -/

/-- The header's checksum of an object holds. -/
def HeaderIntact (digests : Digests) (bytes : List UInt8) : Prop :=
  verifyHeaderCrc digests (bytes.take (load bytes 10 2)) = .ok ()

/-- The body's checksum of an object holds. -/
def BodyIntact (digests : Digests) (bytes : List UInt8) : Prop :=
  digests.crc32c ((bytes.drop (load bytes 10 2)).take (load bytes 12 4)) = load bytes 24 4

instance {digests : Digests} {bytes : List UInt8} : Decidable (HeaderIntact digests bytes) :=
  inferInstanceAs (Decidable (_ = _))

instance {digests : Digests} {bytes : List UInt8} : Decidable (BodyIntact digests bytes) :=
  inferInstanceAs (Decidable (_ = _))

section Answers

variable {digests : Digests} {policy : CodecLimits} {bytes : List UInt8} {expected : BlockExpectation}

/-- A check that says nothing of the context. -/
def Plain {α : Type} (x : Except Errc α) : Prop := ∀ code, x = .error code → code ≠ .wrongContext

theorem Plain.require {p : Prop} [Decidable p] {code : Errc} (h : code ≠ .wrongContext) :
    Plain (require p code) := by
  intro found hfound
  unfold Lib.require at hfound
  split at hfound
  next => cases hfound
  next =>
    cases hfound
    exact h

theorem Plain.bind {α β : Type} {x : Except Errc α} {f : α → Except Errc β} (h : Plain x)
    (hrest : ∀ a, Plain (f a)) : Plain (x >>= f) := by
  intro code hcode
  cases x with
  | error found =>
    cases hcode
    exact h _ rfl
  | ok a => exact hrest a code hcode

theorem Plain.pure {α : Type} {a : α} : Plain (pure a : Except Errc α) := fun _ h => nomatch h

/-- A plain check is settled by what it checked. -/
theorem Plain.settles {α : Type} {x : Except Errc α} {held : Prop} (h : Plain x) :
    Settles x (fun a => x = .ok a) (fun code => code = .wrongContext → held) := by
  cases x with
  | error code => exact fun hcode => absurd hcode (h code rfl)
  | ok a => exact rfl

theorem plain_peek {input : List UInt8} {limits : Limits} {owner : ExtentLimits}
    {boundary : InputBoundary} : Plain (peekEnvelopePrefix input limits owner boundary) := by
  have hshort : boundary.shortage ≠ .wrongContext := by cases boundary <;> decide
  unfold peekEnvelopePrefix validatePrefixWork admitWork validatePrefixExtents
  refine Plain.bind (Plain.require (by decide)) fun _ => ?_
  refine Plain.bind (Plain.require hshort) fun _ => ?_
  refine Plain.bind (Plain.require (by decide)) fun _ => ?_
  refine Plain.bind ?_ fun _ => Plain.pure
  refine Plain.bind (Plain.require (by decide)) fun _ => ?_
  refine Plain.bind (Plain.require (by decide)) fun _ => ?_
  exact Plain.bind (Plain.require (by decide)) fun _ => Plain.require (by decide)

theorem plain_senderVersionValues {writer minimumReader : Nat} :
    Plain (validateSenderVersionValues writer minimumReader) := by
  unfold validateSenderVersionValues
  refine Plain.bind (Plain.require (by decide)) fun _ => ?_
  exact Plain.bind (Plain.require (by decide)) fun _ => Plain.require (by decide)

theorem plain_lookupFormat {raw : Nat} : Plain (lookupFormat raw) := by
  unfold lookupFormat
  refine Plain.bind (Plain.require (by decide)) fun _ => ?_
  intro code hcode
  unfold expect at hcode
  split at hcode
  next => cases hcode
  next =>
    cases hcode
    decide

theorem plain_scanHeaderExtensions {maxExtensions : Nat} {region : List UInt8} {previousTag count : Nat} :
    Plain (scanHeaderExtensions maxExtensions region previousTag count) := by
  induction region, previousTag, count using scanHeaderExtensions.induct with
  | case1 previousTag count =>
    rw [scanHeaderExtensions, dif_pos rfl]
    exact fun _ hcode => by cases hcode
  | case2 region previousTag count h hshort =>
    rw [scanHeaderExtensions, dif_neg h, dif_pos hshort]
    intro code hcode
    cases hcode
    decide
  | case3 region previousTag count h hshort ih =>
    rw [scanHeaderExtensions, dif_neg h, dif_neg hshort]
    refine Plain.bind (Plain.require (by decide)) fun _ => ?_
    refine Plain.bind (Plain.require (by decide)) fun _ => ?_
    refine Plain.bind (Plain.require (by decide)) fun _ => ?_
    refine Plain.bind (Plain.require (by decide)) fun _ => ?_
    exact Plain.bind (Plain.require (by decide)) fun _ => ih

/-- **The context is looked at last**: an envelope that is refused for it, and one that is accepted, has
    both checksums right. -/
theorem inspectEnvelope_settles {owner : ExtentLimits} {family : FormatFamily} :
    Settles (inspectEnvelope digests family policy owner .complete bytes)
      (fun found => (HeaderIntact digests bytes ∧ BodyIntact digests bytes)
        ∧ load bytes 4 2 = family.code ∧ found.1 = load bytes 10 2
        ∧ found.2 = (bytes.drop (load bytes 10 2)).take (load bytes 12 4)
        ∧ load bytes 10 2 + load bytes 12 4 ≤ bytes.length)
      (fun code => code = .wrongContext → HeaderIntact digests bytes ∧ BodyIntact digests bytes) := by
  unfold inspectEnvelope
  refine Settles.bind plain_peek.settles fun found hfound => ?_
  have hfields : found = ⟨load bytes 4 2, load bytes 6 2, load bytes 8 2, load bytes 10 2,
      load bytes 12 4, load bytes 16 8, load bytes 24 4, load bytes 28 4⟩ := by
    unfold peekEnvelopePrefix at hfound
    simp only [bind_eq_ok, pure_eq_ok] at hfound
    obtain ⟨_, _, _, _, _, _, _, _, rfl⟩ := hfound
    rfl
  subst hfields
  refine Settles.bind (Plain.settles (Plain.require (by decide))) fun _ _ => ?_
  refine Settles.bind (Plain.settles (Plain.require (by decide))) fun _ hheader => ?_
  refine Settles.bind plain_senderVersionValues.settles fun _ _ => ?_
  refine Settles.bind plain_lookupFormat.settles fun descriptor _ => ?_
  have hversions : Plain (validateSenderVersions (load bytes 6 2) (load bytes 8 2) descriptor) := by
    unfold validateSenderVersions
    refine Plain.bind plain_senderVersionValues fun _ => ?_
    exact Plain.bind (Plain.require (by decide)) fun _ => Plain.require (by decide)
  refine Settles.bind hversions.settles fun _ _ => ?_
  refine Settles.bind (Plain.settles (Plain.require (by decide))) fun _ _ => ?_
  refine Settles.bind plain_scanHeaderExtensions.settles fun _ _ => ?_
  refine Settles.bind (Plain.settles (Plain.require (by decide))) fun _ hwhole => ?_
  refine Settles.bind (Plain.settles (Plain.require (by decide))) fun _ hbody => ?_
  -- from here on both checksums hold, whatever the answer is
  have hintact : HeaderIntact digests bytes ∧ BodyIntact digests bytes :=
    ⟨hheader, require_eq_ok.mp hbody⟩
  refine Settles.bind (Settles.require fun _ _ => hintact) fun _ hfamily => ?_
  exact ⟨hintact, hfamily, rfl, rfl, require_eq_ok.mp hwhole⟩

theorem fromWire_eq_ok {α : Type} {x : Except Errc α} {a : α} : fromWire x = .ok a ↔ x = .ok a := by
  cases x with
  | ok value => exact Iff.rfl
  | error code =>
    refine iff_of_false ?_ nofun
    cases code <;> exact nofun

/-- **Where a block that passed lies**: its records begin where they were expected to, it is as long as
    its layout, and it holds some. -/
theorem readBlock_ok {limits : Limits} {headerBytes : Nat} {body : List UInt8} {checked : CheckedBlock}
    (h : readBlock limits expected headerBytes body = .ok checked) :
    checked.coverage.physical.begin_ = expected.location.physicalBegin
      ∧ checked.coverage.bytes
        = ⟨expected.location.position, expected.location.position + (headerBytes + body.length)⟩
      ∧ checked.coverage.logical.begin_ < checked.coverage.logical.end_
      ∧ checked.coverage.physical.begin_ < checked.coverage.physical.end_ := by
  unfold readBlock at h
  simp only [bind_eq_ok, require_eq_ok, pure_eq_ok, fromWire_eq_ok, Prod.exists] at h
  obtain ⟨_, _, _, _, _, _, _, _, _, _, _, _, _, _, layout, hlayout, _, ⟨hbody, _⟩, extent, hextent, child,
    rest, _, logical, physical, hrecords, _, _, rfl⟩ := h
  have hheader : layout.headerBytes = headerBytes := by
    unfold AlignedLayout.place checked at hlayout
    simp only [bind_eq_ok, require_eq_ok, pure_eq_ok] at hlayout
    obtain ⟨_, _, _, _, _, _, _, _, _, _, rfl⟩ := hlayout
    rfl
  unfold AlignedLayout.spanAt at hextent
  simp only [bind_eq_ok, require_eq_ok, pure_eq_ok, addOr_eq_ok] at hextent
  obtain ⟨_, _, _, ⟨rfl, _⟩, rfl⟩ := hextent
  unfold readRecords spanFromCount makeSpan at hrecords
  simp only [bind_eq_ok, require_eq_ok, pure_eq_ok, fromWire_eq_ok, addOr_eq_ok, Prod.mk.injEq]
    at hrecords
  obtain ⟨_, _, _, _, _, _, _, ⟨_, ⟨rfl, _⟩, rfl⟩, _, _, _, _, _, _, _, ⟨_, hle, rfl⟩, _, ⟨hlogical, hphysical⟩,
    rfl, rfl⟩ := hrecords
  simp only [Span.isEmpty, decide_eq_false_iff_not] at hlogical hphysical
  refine ⟨rfl, ?_, ?_, ?_⟩
  · show (⟨_, _ + (layout.headerBytes + layout.bodyBytes)⟩ : Span) = _
    rw [hheader, hbody]
  · show load _ 96 8 < load _ 104 8
    omega
  · show expected.location.physicalBegin < expected.location.physicalBegin + _
    omega

theorem checkSegmentBlock_settles :
    Settles (checkSegmentBlock digests policy bytes expected)
      (fun checked => (HeaderIntact digests bytes ∧ BodyIntact digests bytes)
        ∧ load bytes 4 2 = blockFamily
        ∧ checked.coverage.physical.begin_ = expected.location.physicalBegin
        ∧ checked.coverage.bytes = ⟨expected.location.position,
            expected.location.position + (load bytes 10 2 + load bytes 12 4)⟩
        ∧ checked.coverage.logical.begin_ < checked.coverage.logical.end_
        ∧ checked.coverage.physical.begin_ < checked.coverage.physical.end_)
      (fun code => code = .wrongContext → HeaderIntact digests bytes ∧ BodyIntact digests bytes) := by
  unfold checkSegmentBlock
  refine Settles.bind (Plain.settles (Plain.require (by decide))) fun _ _ => ?_
  refine Settles.bind inspectEnvelope_settles ?_
  rintro ⟨headerBytes, body⟩ ⟨hintact, hfamily, hheader, hbody, hwhole⟩
  dsimp only at hheader hbody ⊢
  cases hread : readBlock policy.toLimits expected headerBytes body with
  | error code => exact fun _ => hintact
  | ok checked =>
    obtain ⟨hphysical, hbytes, hlogical, hsome⟩ := readBlock_ok hread
    have hlength : body.length = load bytes 12 4 := by
      rw [hbody, List.length_take, List.length_drop]
      omega
    rw [hheader, hlength] at hbytes
    exact ⟨hintact, hfamily, hphysical, hbytes, hlogical, hsome⟩

end Answers

end KwaqueStorage.SegmentRun
