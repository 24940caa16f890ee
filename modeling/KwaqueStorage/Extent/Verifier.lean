import KwaqueStorage.Extent.Format

/-!
# The extent verifier

`extent_verifier` walks the objects of an extent in file order and keeps, of all it accepted, only
where it ends, how many blocks it has, the last of them, their times and the CRC of every byte.
Any failure after entry closes it. Blocks and footers enter as bytes, which it decodes, or as
codec-owned values whose validation it reuses when they were made under its own policy at its own
position.

A verifier is also made in the middle of an extent, by `resume`, from a footer whose bytes an
independent record pinned: the footer's fields are then the prefix.
-/

namespace KwaqueStorage.Extent

/-- `extent_layout_kind`. -/
inductive LayoutKind
  | initialAppend
  | rewrite
  deriving DecidableEq

/-- `extent_integrity`. -/
inductive Integrity
  | crc32c
  | crc32cAndDigest
  | crc32cAndDeferredDigest
  deriving DecidableEq

/-- `extent_verifier`. Its hasher is the stream it was given, once there is one. -/
structure Verifier (Policy : Type) where
  history : History
  expected : Coverage
  policy : Policy
  kind : LayoutKind
  integrity : Integrity
  hasher : Option (List UInt8) := none
  logical : Nat
  physical : Nat
  position : Nat
  last : Option Coverage := none
  times : Times := {}
  count : Nat := 0
  crc : UInt32 := 0
  closed : Bool := false
  digestStarted : Bool := false
  deriving DecidableEq

/-- `extent_digest_walk`. -/
structure DigestWalk (Policy : Type) where
  policy : Policy
  begin_ : Nat
  end_ : Nat
  hasher : List UInt8 := []
  crc : UInt32 := 0
  closed : Bool := false
  deriving DecidableEq

/-- The most blocks a 32-bit count holds. -/
def maxCount : Nat := 4294967295

namespace Verifier

section

variable {Policy : Type} [DecidableEq Policy] (codec : Codec Policy)

/-- `extent_verifier::close`. -/
def close (v : Verifier Policy) : Verifier Policy := { v with closed := true, hasher := none }

/-- Whether an expected coverage is none that `make` may walk. -/
def misstates (history : History) (expected : Coverage) (kind : LayoutKind) : Bool :=
  decide (expected.logical.begin_ < history.logicalOrigin)
    || decide (expected.physical.begin_ < history.physicalOrigin)
    || decide (expected.bytes.begin_ < history.dataStart)
    || !history.aligned expected.bytes.begin_
    || decide (expected.logical.count < expected.physical.count)
    || (!expected.physical.isEmpty && expected.bytes.isEmpty)
    || (decide (kind = .initialAppend) && (expected.physical.isEmpty != expected.logical.isEmpty))

/-- `extent_verifier::make`. -/
def make (history : History) (expected : Coverage) (policy : Policy)
    (kind : LayoutKind := .initialAppend) (integrity : Integrity := .crc32c) :
    Except CodecError (Verifier Policy) := do
  validateHistory history
  if misstates history expected kind then .error { code := .invalidArgument }
  else
    .ok { history, expected, policy, kind, integrity, logical := expected.logical.begin_,
          physical := expected.physical.begin_, position := expected.bytes.begin_ }

/-- `extent_verifier::prefix`. -/
def boundary (v : Verifier Policy) : BoundaryFields where
  coverage := ⟨⟨v.expected.logical.begin_, v.logical⟩, ⟨v.expected.physical.begin_, v.physical⟩,
    ⟨v.expected.bytes.begin_, v.position⟩⟩
  blockCount := v.count
  lastBlock := v.last
  times := v.times
  dataCrc := v.crc

/-- `extent_verifier::ready`, and what every operation after it does with a failure: it closes. -/
def enter {α : Type} (v : Verifier Policy) (policy : Policy)
    (body : Except CodecError (α × Verifier Policy)) : Except CodecError α × Verifier Policy :=
  if v.closed then (.error { code := .closed }, v)
  else if policy ≠ v.policy then (.error { code := .invalidArgument }, v.close)
  else
    match body with
    | .ok (out, next) => (.ok out, next)
    | .error why => (.error why, v.close)

/-! ## Adding an object -/

/-- The bytes of an accepted object: they move the position, extend the CRC and are hashed. -/
def absorb (v : Verifier Policy) (bytes : List UInt8) : Verifier Policy :=
  { v with
    position := v.position + bytes.length
    crc := codec.crc v.crc bytes
    hasher := if v.integrity = .crc32cAndDigest then some (v.hasher.getD [] ++ bytes)
      else v.hasher }

/-- The first test of every object: it is not empty and ends in the expected bytes. -/
def admits (v : Verifier Policy) (bytes : List UInt8) : Bool :=
  !bytes.isEmpty && decide (v.position + bytes.length ≤ v.expected.bytes.end_)

/-- The placement the next block must have. -/
def blockExpectation (v : Verifier Policy) (expected : BatchExpectation) : BlockExpectation :=
  ⟨⟨v.history.segment, v.history.alignment, v.physical, v.position⟩, v.history.dataStart, expected,
    v.history.profile⟩

/-- The times after one more block. -/
def timesWith (v : Verifier Policy) (d : Descriptor) : Times where
  firstAppend := if v.count = 0 then d.stamps.appendTime else v.times.firstAppend
  maxAppend := d.stamps.appendTime
  maxRecord :=
    if v.count = 0 then d.batch.maxRecordTime else max v.times.maxRecord d.batch.maxRecordTime

/-- A decoded block as the next object of the extent. -/
def takeBlock (v : Verifier Policy) (bytes : List UInt8) (d : Descriptor) :
    Except CodecError (Verifier Policy) :=
  let refuse (code : Errc) : Except CodecError (Verifier Policy) :=
    .error { code, family := blockFamily }
  let covered := d.coverage
  if v.kind = .initialAppend
      ∧ (d.batch.binding.segment ≠ v.history.segment.segment
        ∨ d.batch.binding.generation ≠ v.history.segment.generation) then
    refuse .wrongContext
  else if covered.bytes.end_ ≠ v.position + bytes.length
      ∨ v.expected.physical.end_ < covered.physical.end_
      ∨ covered.logical.begin_ < v.logical
      ∨ v.expected.logical.end_ < covered.logical.end_
      ∨ (v.kind = .initialAppend
        ∧ (covered.logical.begin_ ≠ v.logical
          ∨ d.batch.retainedCount ≠ d.batch.originalCount)) then
    refuse .malformedData
  else if v.count = maxCount then refuse .resourceExhausted
  -- append times never decrease along a segment
  else if v.count ≠ 0 ∧ d.stamps.appendTime < v.times.maxAppend then refuse .malformedData
  else
    .ok (absorb codec
      { v with
        times := v.timesWith d
        count := v.count + 1
        logical := covered.logical.end_
        physical := covered.physical.end_
        last := some covered } bytes)

/-- A footer against the evidence its caller supplied, if any. -/
def checkReferenced (referenced : Option VerifiedExtent) (footer : Footer) :
    Except CodecError Unit :=
  match referenced with
  | some evidence => validateDurableFooter footer evidence
  | none => .ok ()

/-- A footer that names the current prefix against that prefix. -/
def checkCurrent (v : Verifier Policy) (footer : Footer) : Except CodecError Unit :=
  if footer.boundary.coverage.bytes = v.boundary.coverage.bytes then
    validateDurableFooter footer ⟨v.history, v.boundary, none⟩
  else .ok ()

/-- A decoded footer as the next object of the extent. What it names is checked where evidence
    for it is supplied and where it names the current prefix; other references are not followed. -/
def takeFooter (v : Verifier Policy) (bytes : List UInt8) (referenced : Option VerifiedExtent)
    (footer : Footer) : Except CodecError (Verifier Policy) := do
  checkReferenced referenced footer
  v.checkCurrent footer
  if footer.extent.end_ ≠ v.position + bytes.length then
    .error { code := .malformedData, family := footerFamily }
  else .ok (absorb codec v bytes)

/-- What an object is refused with before it is decoded. -/
def misfit (family : Nat) : CodecError := { code := .malformedData, family }

/-- `add_block` of bytes. -/
def addBlockBytes (v : Verifier Policy) (policy : Policy) (bytes : List UInt8)
    (expected : BatchExpectation) : Except CodecError Unit × Verifier Policy :=
  v.enter policy do
    if v.admits bytes = false then .error (misfit blockFamily)
    let d ← codec.decodeBlock v.policy bytes (v.blockExpectation expected)
    let next ← v.takeBlock codec bytes d
    .ok ((), next)

/-- Whether a block's own validation is the one a decode here would make. -/
def reusesBlock (v : Verifier Policy) (block : SegmentBlock codec) (expected : BatchExpectation) :
    Bool :=
  decide (block.validated = v.policy)
    && decide (block.descriptor.context = v.history.segment)
    && decide (block.descriptor.bytes.begin_ = v.position)
    && decide (block.descriptor.physical.begin_ = v.physical)
    && decide (block.alignment = v.history.alignment)
    && decide (block.dataStart = v.history.dataStart)
    && decide (block.profile = v.history.profile)
    && expected.meets block.descriptor.batch

/-- `add_block` of a codec-owned block. -/
def addBlock (v : Verifier Policy) (policy : Policy) (block : SegmentBlock codec)
    (expected : BatchExpectation) : Except CodecError Unit × Verifier Policy :=
  v.enter policy do
    if v.admits block.bytes = false then .error (misfit blockFamily)
    let d ← if v.reusesBlock codec block expected then .ok block.descriptor
      else codec.decodeBlock v.policy block.bytes (v.blockExpectation expected)
    let next ← v.takeBlock codec block.bytes d
    .ok ((), next)

/-- `add_footer` of bytes. -/
def addFooterBytes (v : Verifier Policy) (policy : Policy) (bytes : List UInt8)
    (referenced : Option VerifiedExtent) : Except CodecError Unit × Verifier Policy :=
  v.enter policy do
    if v.admits bytes = false then .error (misfit footerFamily)
    let footer ← codec.decodeFooter v.policy bytes ⟨v.history, v.position⟩
    let next ← v.takeFooter codec bytes referenced footer
    .ok ((), next)

/-- Whether a footer's own validation is the one a decode here would make. -/
def reusesFooter (v : Verifier Policy) (footer : EncodedFooter codec) : Bool :=
  decide (footer.validated = v.policy)
    && decide (footer.descriptor.location.history = v.history)
    && decide (footer.descriptor.location.position = v.position)

/-- `add_footer` of a codec-owned footer. -/
def addFooter (v : Verifier Policy) (policy : Policy) (footer : EncodedFooter codec)
    (referenced : Option VerifiedExtent) : Except CodecError Unit × Verifier Policy :=
  v.enter policy do
    if v.admits footer.bytes = false then .error (misfit footerFamily)
    let decoded ← if v.reusesFooter codec footer then .ok footer.descriptor
      else codec.decodeFooter v.policy footer.bytes ⟨v.history, v.position⟩
    let next ← v.takeFooter codec footer.bytes referenced decoded
    .ok ((), next)

/-! ## Extending, resuming and finishing -/

/-- `extend_expected`. -/
def extendExpected (v : Verifier Policy) (policy : Policy) (next : Coverage) :
    Except CodecError Unit × Verifier Policy :=
  v.enter policy <|
    if v.kind ≠ .initialAppend ∨ v.position ≠ v.expected.bytes.end_
        ∨ v.physical ≠ v.expected.physical.end_ ∨ v.logical ≠ v.expected.logical.end_
        ∨ next.logical.begin_ ≠ v.expected.logical.begin_
        ∨ next.physical.begin_ ≠ v.expected.physical.begin_
        ∨ next.bytes.begin_ ≠ v.expected.bytes.begin_
        ∨ next.logical.end_ < v.logical ∨ next.physical.end_ < v.physical
        ∨ next.bytes.end_ < v.position
        ∨ next.logical.count ≠ next.physical.count
        ∨ (next.bytes.end_ = v.position
          ∧ (next.logical.end_ ≠ v.logical ∨ next.physical.end_ ≠ v.physical)) then
      .error { code := .invalidArgument }
    else .ok ((), { v with expected := next })

/-- Whether a pinned footer names the complete prefix from the origins to itself, densely and
    within what is expected. -/
def certifies (pinned : FooterExpectation) (expected : Coverage) (fields : BoundaryFields) : Bool :=
  let scope := fields.coverage
  decide (scope.logical.begin_ = pinned.history.logicalOrigin)
    && decide (scope.physical.begin_ = pinned.history.physicalOrigin)
    && decide (scope.bytes.begin_ = pinned.history.dataStart)
    && decide (scope.bytes.end_ = pinned.position)
    && decide (scope.logical.count = scope.physical.count)
    && decide (scope.logical.end_ ≤ expected.logical.end_)
    && decide (scope.physical.end_ ≤ expected.physical.end_)

/-- `extent_verifier::resume`: the verifier just after a pinned footer, and the footer. -/
def resume (pinned : FooterExpectation) (digest : Nat) (expected : Coverage) (source : List UInt8)
    (policy : Policy) : Except CodecError (Verifier Policy × Footer) := do
  let verifier ← make pinned.history expected policy
  validateFooterLocation pinned
  if source.isEmpty ∨ pinned.position < expected.bytes.begin_
      ∨ expected.bytes.end_ < pinned.position + source.length then
    .error { code := .invalidArgument, family := footerFamily }
  -- bytes that are not the pinned object are never decoded
  if codec.objectDigest source ≠ digest then
    .error { code := .corruptData, family := footerFamily }
  let footer ← codec.decodeFooter policy source pinned
  if footer.extent.end_ ≠ pinned.position + source.length then
    .error { code := .malformedData, family := footerFamily }
  let fields := footer.boundary
  if certifies pinned expected fields = false then
    .error { code := .malformedData, family := footerFamily }
  .ok ({ verifier with
          logical := fields.coverage.logical.end_
          physical := fields.coverage.physical.end_
          position := pinned.position + source.length
          last := fields.lastBlock
          times := fields.times
          count := fields.blockCount
          crc := codec.crc fields.dataCrc source }, footer)

/-- `checkpoint`: the evidence for the prefix so far. -/
def checkpoint (v : Verifier Policy) (policy : Policy) :
    Except CodecError VerifiedExtent × Verifier Policy :=
  v.enter policy <|
    if v.kind ≠ .initialAppend then .error { code := .invalidArgument }
    else .ok (⟨v.history, v.boundary, none⟩, v)

/-- Whether exactly the expected coverage was supplied. -/
def complete (v : Verifier Policy) : Bool :=
  decide (v.position = v.expected.bytes.end_) && decide (v.physical = v.expected.physical.end_)
    && (decide (v.kind = .rewrite) || decide (v.logical = v.expected.logical.end_))

/-- The evidence of a finished walk. -/
def evidence (v : Verifier Policy) (digest : Option Nat) : VerifiedExtent :=
  ⟨v.history, { v.boundary with coverage := v.expected }, digest⟩

/-- `finish`. -/
def finish (v : Verifier Policy) (policy : Policy) :
    Except CodecError VerifiedExtent × Verifier Policy :=
  v.enter policy <|
    if v.integrity = .crc32cAndDeferredDigest then .error { code := .invalidArgument }
    else if v.complete = false then .error { code := .malformedData }
    else
      let digest := if v.integrity = .crc32cAndDigest
        then some (codec.extentDigest (v.hasher.getD [])) else none
      .ok (v.evidence digest, v.close)

/-- `deferred_digest`. -/
def deferredDigest (v : Verifier Policy) :
    Except CodecError (DigestWalk Policy) × Verifier Policy :=
  if v.closed then (.error { code := .closed }, v)
  else if v.integrity ≠ .crc32cAndDeferredDigest ∨ v.digestStarted = true
      ∨ v.position ≠ v.expected.bytes.begin_ then
    (.error { code := .invalidArgument }, v.close)
  else (.ok ⟨v.policy, v.expected.bytes.begin_, v.expected.bytes.begin_, [], 0, false⟩,
    { v with digestStarted := true })

/-- `finish`, after a digest walk hashed exactly the bytes this walk accepted. -/
def finishDeferred (v : Verifier Policy) (policy : Policy) (walk : DigestWalk Policy) :
    Except CodecError VerifiedExtent × Verifier Policy :=
  v.enter policy <|
    if v.integrity ≠ .crc32cAndDeferredDigest ∨ v.digestStarted = false ∨ walk.closed = true
        ∨ walk.begin_ ≠ v.expected.bytes.begin_ then
      .error { code := .invalidArgument }
    else if v.complete = false ∨ walk.end_ ≠ v.position ∨ walk.crc ≠ v.crc then
      .error { code := .malformedData }
    else .ok (v.evidence (some (codec.extentDigest walk.hasher)), v.close)

end

end Verifier

/-- `extent_digest_walk::add`. -/
def DigestWalk.add {Policy : Type} [DecidableEq Policy] (codec : Codec Policy)
    (walk : DigestWalk Policy) (policy : Policy) (stored : List UInt8) :
    Except CodecError Unit × DigestWalk Policy :=
  if walk.closed then (.error { code := .closed }, walk)
  else if policy ≠ walk.policy ∨ stored.isEmpty then
    (.error { code := .invalidArgument }, { walk with closed := true, hasher := [] })
  else (.ok (), { walk with
    hasher := walk.hasher ++ stored
    crc := codec.crc walk.crc stored
    end_ := walk.end_ + stored.length })

end KwaqueStorage.Extent
