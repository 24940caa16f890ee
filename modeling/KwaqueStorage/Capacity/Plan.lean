import KwaqueStorage.Capacity.Project

/-!
# Planning a group

`plan_segment_capacity` says, before anything is written, whether a segment can take a group of batches:
the footer that closes a run held open before it, its blocks back to back, the footer after them padded to
the boundary, and still the root that sealing the segment would write, all within the segment's extent. A
group an empty segment could not take either is impossible; one that only this segment cannot take makes
it roll.

The part of a plan that one segment never changes is made once, as its constants.
-/

namespace KwaqueStorage.Capacity

open Extent (u64Max SegmentContext StorageProfile)
open Layout Lib RetryPages

/-- `storage_alignment`. -/
structure Alignment where
  bytes : Nat
  least : 512 ≤ bytes
  most : bytes ≤ 65536
  power : ∃ k, bytes = 2 ^ k

/-- `local_layout_kind`. -/
inductive LocalLayoutKind
  | initial
  | rewrite
  deriving DecidableEq

/-- `local_segment_descriptor`, as far as a plan reads it. -/
structure SegmentDescriptor where
  segment : SegmentContext
  physicalOrigin : Nat := 0
  alignment : Alignment
  profile : StorageProfile := .v1
  recordProfile : Nat := 1
  layout : LocalLayoutKind := .initial
  maximumDataBytes : Nat
  maximum_fits : maximumDataBytes ≤ u64Max

/-- `local_metadata_kind`, of the objects a segment publishes. -/
inductive LocalMetadataKind
  | segmentDescriptor
  | objectPublication
  deriving DecidableEq

/-- `local_metadata_prefix_bytes`. -/
def localMetadataPrefixBytes : Nat := 72

/-- `local_metadata_max_bytes`. -/
def localMetadataMaxBytes : Nat := 65536

/-- Whether a payload has a shape of its kind: a descriptor is of one size, and a publication has up to
    four roots after its fixed part, which is one of two. -/
def payloadShape (payload : Nat) : LocalMetadataKind → Bool
  | .segmentDescriptor => decide (payload = 120)
  | .objectPublication =>
    decide (88 ≤ payload ∧ payload ≤ 376)
      && (decide ((payload - 88) % 60 = 0 ∧ (payload - 88) / 60 ≤ 4)
        || decide (136 ≤ payload ∧ (payload - 136) % 60 = 0 ∧ (payload - 136) / 60 ≤ 4))

/-- `local_metadata_layout`. -/
def localMetadataLayout (kind : LocalMetadataKind) (payload header alignment : Nat) (policy : Limits) :
    Except Errc AlignedLayout := do
  require (payloadShape payload kind = true) .invalidArgument
  let cap := min localMetadataMaxBytes policy.config.maxPageBytes
  AlignedLayout.make ⟨header, localMetadataPrefixBytes, payload⟩ alignment policy ⟨cap, cap⟩

/-- The publication pointer of so many roots, and the largest of a fixed part. -/
def pointerLayout (roots alignment : Nat) (policy : Limits) : Except Errc AlignedLayout :=
  localMetadataLayout .objectPublication (136 + 60 * roots) envelopePrefixBytes alignment policy

/-- Whether a publication pointer of so many roots can be staged. -/
def pointerFits (costs : Costs) (policy : Limits) (limits : AdmissionLimits)
    (metadataAlignment finalizationBytes roots : Nat) : Bool :=
  match pointerLayout roots metadataAlignment policy with
  | .error _ => false
  | .ok layout =>
    objectFitsWorkspace costs policy (localMetadataPrefixBytes + 136) (60 * roots) 0 layout
      finalizationBytes limits.metadataBytes

/-- `publication_pointer_bytes`: the largest pointer's, when every populated shape can be staged. -/
def publicationPointerBytes (costs : Costs) (policy : Limits) (limits : AdmissionLimits)
    (metadataAlignment finalizationBytes : Nat) : Option Nat :=
  match pointerLayout 4 metadataAlignment policy with
  | .error _ => none
  | .ok pointer =>
    if [1, 2, 3, 4].all (pointerFits costs policy limits metadataAlignment finalizationBytes) then
      some pointer.encodedBytes
    else none

/-- `durable_footer_fixed_bytes`. -/
def durableFooterFixedBytes : Nat := 216

/-- `segment_block_fixed_bytes`. -/
def segmentBlockFixedBytes : Nat := 144

/-- A durable footer, before its padding. -/
def footerParts : EnvelopeParts := ⟨envelopePrefixBytes, durableFooterFixedBytes, 0⟩

/-- `segment_capacity_constants`. The projections it keeps once asked are asked for anew here. -/
structure Constants where
  descriptor : SegmentDescriptor
  dataStart : Nat
  limits : AdmissionLimits
  policy : Limits
  costs : Costs
  finalizationBytes : Nat
  tiny : Bool
  footerBytes : Option Nat
  closingStaging : Option Nat
  pointerBytes : Option Nat
  descriptorBytes : Option Nat
  retryWireCapacity : Nat

section

variable (fixed : Constants)

/-- The alignment of a segment's objects. -/
def Constants.unit : Nat := fixed.descriptor.alignment.bytes

/-- What a block may take. -/
def blockLimits (policy : Limits) : ExtentLimits :=
  ⟨policy.config.maxEncodedBodyBytes, policy.config.maxEncodedBodyBytes + policy.config.maxHeaderBytes⟩

/-- The projection of a seal with so many completed entries. -/
def Constants.project (entries : Nat) : Option Projection :=
  projectRetries fixed.costs fixed.policy entries fixed.unit fixed.limits fixed.finalizationBytes
    fixed.retryWireCapacity

/-- A footer padded to the boundary after its end, from a position. -/
def Constants.footerAt (position : Nat) : Except Errc AlignedLayout :=
  AlignedLayout.place footerParts position .endsSpan fixed.unit fixed.policy fixed.policy.page

/-- What staging a footer costs. -/
def Constants.footerStaging (layout : AlignedLayout) : Option Staging :=
  stagingCost fixed.costs fixed.policy 0 durableFooterFixedBytes layout

end

/-- The footer part of the constants: its bytes before padding, when one that begins on a boundary can be
    staged, and the staging of the one that pads the most. -/
def footerConstants (descriptor : SegmentDescriptor) (dataStart : Nat) (policy : Limits)
    (costs : Costs) : Option Nat × Option Nat :=
  let unit := descriptor.alignment.bytes
  let stage layout := stagingCost costs policy 0 durableFooterFixedBytes layout
  match AlignedLayout.make footerParts unit policy policy.page with
  | .error _ => (none, none)
  | .ok footer =>
    match stage footer with
    | none => (none, none)
    | some _ =>
      let bytes := footer.encodedBytes - footer.paddingBytes
      let worst := dataStart + (unit + 1 - bytes % unit) % unit
      match AlignedLayout.place footerParts worst .endsSpan unit policy policy.page with
      | .error _ => (some bytes, none)
      | .ok padded => (some bytes, (stage padded).map Staging.additional)

/-- `segment_capacity_constants::make`. -/
def Constants.make (descriptor : SegmentDescriptor) (dataStart : Nat) (limits : AdmissionLimits)
    (policy : Limits) (costs : Costs) (metadataAlignment finalizationBytes : Nat) :
    Except Errc Constants := do
  limits.validate
  require (descriptor.profile = .v1 ∧ descriptor.recordProfile = 1) .unsupportedFormat
  require (descriptor.layout = .initial ∧ descriptor.physicalOrigin = 0
    ∧ descriptor.alignment.bytes ≤ dataStart ∧ dataStart % descriptor.alignment.bytes = 0)
    .invalidArgument
  let tiny := decide (policy.config.maxWorkBytes < 1024 ∨ policy.config.maxWorkItems < 64)
  let bare : Constants :=
    { descriptor, dataStart, limits, policy, costs, finalizationBytes, tiny, footerBytes := none,
      closingStaging := none, pointerBytes := none, descriptorBytes := none, retryWireCapacity := 0 }
  if tiny then pure bare
  else
    let footer := footerConstants descriptor dataStart policy costs
    let named := localMetadataLayout .segmentDescriptor 120 envelopePrefixBytes metadataAlignment policy
    pure { bare with
      footerBytes := footer.1
      closingStaging := footer.2
      pointerBytes := publicationPointerBytes costs policy limits metadataAlignment finalizationBytes
      descriptorBytes := named.toOption.map AlignedLayout.encodedBytes
      retryWireCapacity := wireCapacityFor policy descriptor.alignment.bytes }

/-! ## Plans -/

/-- `encoded_assigned_batch`, as a plan reads it: the stream it was bound to, the records it was assigned
    and kept, its headers, and the size and fragments of its bytes. -/
structure Batch where
  topic : Nat
  range : Nat
  segment : Nat
  generation : Nat
  logical : Span
  originalCount : Nat
  retainedCount : Nat
  headerCount : Nat
  size : Nat
  fragments : Nat
  deriving DecidableEq

/-- `segment_writer_position`. -/
structure Position where
  logical : Nat
  physical : Nat
  bytes : Nat
  blocks : Nat := 0
  footers : Nat := 0
  retryEntries : Nat := 0
  deriving DecidableEq

/-- `segment_capacity_decision`. -/
inductive Decision
  | fits
  | rollRequired
  | impossible
  deriving DecidableEq

/-- `segment_roll_reasons`, as far as a plan gives them. -/
structure RollReasons where
  size : Bool := false
  count : Bool := false
  retryState : Bool := false
  deriving DecidableEq

/-- `segment_disk_obligation`. -/
structure DiskObligation where
  data : Nat := 0
  retryBundle : Nat := 0
  publicationOverlap : Nat := 0
  descriptor : Nat := 0
  deriving DecidableEq

/-- `segment_capacity_plan`. -/
structure CapacityPlan where
  decision : Decision := .impossible
  endPosition : Option Position := none
  closing : Nat := 0
  blocks : Nat := 0
  footer : Nat := 0
  sealedRoot : Nat := 0
  stagingBytes : Nat := 0
  retryPages : Nat := 0
  retryPageEntries : Nat := 0
  disk : DiskObligation := {}
  reasons : RollReasons := {}
  deriving DecidableEq

/-- How a plan ends before the segment's room is looked at. -/
inductive Exit
  | failed (code : Errc)
  /-- The group fits no segment; the sums made so far stay in the answer. -/
  | impossible (output : CapacityPlan)
  deriving DecidableEq

/-- `maximum_segment_group_blocks`. -/
def maximumSegmentGroupBlocks : Nat := 64

/-- `limits::validate_batch_counts`. -/
def validateBatchCounts (policy : Limits) (original retained headers : Nat) : Bool :=
  decide (original ≠ 0 ∧ retained ≠ 0 ∧ retained ≤ original
    ∧ original ≤ policy.config.maxOriginalRecords ∧ headers ≤ policy.config.maxBatchHeaders
    ∧ headers ≤ retained * policy.config.maxRecordHeaders)

/-- `validate_initial_append`. -/
def validateInitialAppend (batch : Batch) (segment : SegmentContext) : Except Errc Unit := do
  require (batch.size ≠ 0) .invalidArgument
  require (batch.retainedCount = batch.originalCount) .invalidArgument
  require (batch.topic = segment.topic ∧ batch.range = segment.range ∧ batch.segment = segment.segment
    ∧ batch.generation = segment.generation) .wrongContext

/-- The first part of a plan: a run held open before the group is closed by its own footer. Answers the
    sums and where the group's blocks begin. -/
def planClosing (fixed : Constants) (current : Position) (isOpen : Bool) :
    Except Exit (CapacityPlan × Nat) :=
  if isOpen then do
    let _ ← expect fixed.footerBytes (.impossible {})
    let closing ← expect (fixed.footerAt current.bytes).toOption (.impossible {})
    let staging ← expect (fixed.footerStaging closing) (.impossible {})
    pure ({ stagingBytes := staging.additional, closing := closing.encodedBytes },
      current.bytes + closing.encodedBytes)
  else pure ({}, current.bytes)

/-- What the blocks of a plan add up to so far. -/
structure BlockSums where
  output : CapacityPlan
  position : Nat
  logical : Nat
  records : Nat
  deriving DecidableEq

/-- The layout of a block. -/
def blockLayout (policy : Limits) (unit size position : Nat) : Except Errc AlignedLayout :=
  AlignedLayout.place ⟨envelopePrefixBytes, segmentBlockFixedBytes, size⟩ position .continues unit policy
    (blockLimits policy)

/-- One block of a plan. -/
def planBlock (fixed : Constants) (sums : BlockSums) (batch : Batch) : Except Exit BlockSums := do
  match validateInitialAppend batch fixed.descriptor.segment with
  | .error .wrongContext => .error (.failed .wrongContext)
  | .error _ => .error (.failed .invalidArgument)
  | .ok () =>
    require (batch.logical.begin_ = sums.logical) (.failed .wrongContext)
    require (validateBatchCounts fixed.policy batch.originalCount batch.retainedCount batch.headerCount
      = true) (.impossible sums.output)
    let layout ← expect (blockLayout fixed.policy fixed.unit batch.size sums.position).toOption
      (.impossible sums.output)
    let staging ← expect (stagingCost fixed.costs fixed.policy batch.fragments segmentBlockFixedBytes
      layout) (.impossible sums.output)
    pure
      { output := { sums.output with
          stagingBytes := sums.output.stagingBytes + staging.additional
          blocks := sums.output.blocks + layout.encodedBytes }
        position := sums.position + layout.encodedBytes
        logical := batch.logical.end_
        records := sums.records + batch.retainedCount }

/-- The blocks of a plan, in order. -/
def planBlocks (fixed : Constants) : BlockSums → List Batch → Except Exit BlockSums
  | sums, [] => .ok sums
  | sums, batch :: rest => do
    let sums ← planBlock fixed sums batch
    planBlocks fixed sums rest

/-- What a plan knows of a group once it is one that an empty segment could take. -/
structure GroupShape where
  output : CapacityPlan
  logical : Nat
  records : Nat
  span : Nat
  incoming : Nat
  pointerBytes : Nat
  descriptorBytes : Nat
  deriving DecidableEq

/-- The first half of `plan_segment_capacity`: whether an empty segment could take the group. -/
def planShape (fixed : Constants) (current : Position) (batches : List Batch) (isOpen : Bool)
    (entries : Nat) : Except Exit GroupShape := do
  require (batches ≠ [] ∧ batches.length ≤ maximumSegmentGroupBlocks ∧ entries ≤ batches.length
    ∧ fixed.dataStart ≤ current.bytes ∧ (isOpen = true ∨ current.bytes % fixed.unit = 0))
    (.failed .invalidArgument)
  require (fixed.tiny = false) (.impossible {})
  let (output, position) ← planClosing fixed current isOpen
  let sums ← planBlocks fixed ⟨output, position, current.logical, 0⟩ batches
  let _ ← expect fixed.footerBytes (.impossible sums.output)
  let footer ← expect (fixed.footerAt sums.position).toOption (.impossible sums.output)
  let staging ← expect (fixed.footerStaging footer) (.impossible sums.output)
  let output := { sums.output with
    stagingBytes := sums.output.stagingBytes + staging.additional
    footer := footer.encodedBytes }
  let span ← expect (checkedAdd output.blocks output.footer) (.impossible output)
  let incoming ← expect (checkedAdd span output.closing) (.impossible output)
  require (incoming ≤ maximumFileIoBytes ∧ batches.length ≤ fixed.limits.maximumBlocks)
    (.impossible output)
  let pointerBytes ← expect fixed.pointerBytes (.impossible output)
  let descriptorBytes ← expect fixed.descriptorBytes (.impossible output)
  -- in an empty segment every batch may open a stream of its own
  let fresh ← expect (fixed.project batches.length) (.impossible output)
  let emptyEnd ← expect (checkedAdd fixed.dataStart span) (.impossible output)
  let sealedEnd ← expect (checkedAdd emptyEnd fresh.root) (.impossible output)
  require (sealedEnd ≤ fixed.descriptor.maximumDataBytes) (.impossible output)
  pure ⟨output, sums.logical, sums.records, span, incoming, pointerBytes, descriptorBytes⟩

/-- The footers a group takes: its own, and one that closes a run before it. -/
def footersOf (isOpen : Bool) : Nat := if isOpen then 2 else 1

/-- Whether the counts of a segment have no room for a group. -/
def countsFull (fixed : Constants) (current : Position) (batches records footers : Nat) : Bool :=
  (checkedAdd current.physical records).isNone
    || decide (fixed.limits.maximumBlocks - min current.blocks fixed.limits.maximumBlocks < batches)
    || decide (4294967295 - footers < current.footers)

/-- Where a sealed segment would end: with no root to add, the data alone says whether its extent is
    passed. -/
def sealedEndOf (current : Position) (incoming : Nat) (retry : Option Projection) : Option Nat := do
  let dataEnd ← checkedAdd current.bytes incoming
  checkedAdd dataEnd (retry.elim 0 Projection.root)

/-- Every reason a segment has to take a group no more. -/
def rollReasons (fixed : Constants) (current : Position) (batches : Nat) (isOpen : Bool)
    (retry : Option Projection) (shape : GroupShape) : RollReasons where
  retryState := retry.isNone
  count := countsFull fixed current batches shape.records (footersOf isOpen)
  size := (sealedEndOf current shape.incoming retry).elim true
    fun sealedEnd => decide (fixed.descriptor.maximumDataBytes < sealedEnd)

/-- The answer of a plan that fits. -/
def fittingPlan (current : Position) (batches : List Batch) (isOpen : Bool) (entries : Nat)
    (shape : GroupShape) (projection : Projection) : CapacityPlan :=
  { shape.output with
    decision := .fits
    endPosition := some
      { logical := shape.logical
        physical := current.physical + shape.records
        bytes := current.bytes + shape.incoming
        blocks := current.blocks + batches.length
        footers := current.footers + footersOf isOpen
        retryEntries := current.retryEntries + entries }
    retryPages := projection.pages
    retryPageEntries := projection.entriesPerPage
    sealedRoot := projection.root
    disk :=
      { data := current.bytes + shape.incoming + projection.root
        retryBundle := projection.disk
        publicationOverlap := 2 * shape.pointerBytes
        descriptor := shape.descriptorBytes } }

/-- The second half of `plan_segment_capacity`: whether this segment takes the group. -/
def planRoom (fixed : Constants) (current : Position) (batches : List Batch) (isOpen : Bool)
    (entries : Nat) (shape : GroupShape) : CapacityPlan :=
  let retry := fixed.project (current.retryEntries + entries)
  let reasons := rollReasons fixed current batches.length isOpen retry shape
  match retry with
  | none => { shape.output with decision := .rollRequired, reasons }
  | some projection =>
    if reasons ≠ {} then { shape.output with decision := .rollRequired, reasons }
    else fittingPlan current batches isOpen entries shape projection

/-- `plan_segment_capacity`. -/
def planSegmentCapacity (fixed : Constants) (current : Position) (batches : List Batch) (isOpen : Bool)
    (retryEntries : Option Nat) : Except Errc CapacityPlan :=
  let entries := retryEntries.getD batches.length
  match planShape fixed current batches isOpen entries with
  | .error (.failed code) => .error code
  | .error (.impossible output) => .ok { output with decision := .impossible }
  | .ok shape => .ok (planRoom fixed current batches isOpen entries shape)

end KwaqueStorage.Capacity
