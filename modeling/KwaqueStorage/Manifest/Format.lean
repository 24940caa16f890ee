import KwaqueStorage.Capacity.Plan
import KwaqueStorage.Manifest.Entry

/-!
# Range manifest roots and pages

The entries of a manifest lie in pages, and a root refers to the pages in order: the ordinal of each, the
entry it begins at, how many it holds, its bytes and their digest. Root and pages carry the identity of the
manifest and the logical records they cover. A root is read against its independently pinned identity, span
and digest; a page against the root and against what the pages before it left.

The writers refuse what a reader would: entries that are not adjacent, times that go back, references that
do not follow one another. They and the readers share the layout, so a page is full at the same count on
both sides.
-/

namespace KwaqueStorage.Manifest

open Codec Layout Lib RetryPages

/-- `manifest_context`. -/
structure ManifestContext where
  topic : Fin (2 ^ 128)
  range : Fin (2 ^ 128)
  manifest : Fin (2 ^ 128)
  generation : Fin (2 ^ 64)
  present : topic ≠ 0 ∧ range ≠ 0 ∧ manifest ≠ 0 ∧ generation ≠ 0
  deriving DecidableEq

/-! ## Headers -/

/-- `range_manifest_root_fixed_bytes`. -/
def rangeManifestRootFixedBytes : Nat := 88

/-- `range_manifest_page_fixed_bytes`. -/
def rangeManifestPageFixedBytes : Nat := 92

/-- `page_ref_wire_bytes`. -/
def pageRefWireBytes : Nat := 48

/-- `range_manifest_root_header`. -/
structure RootHeader where
  context : ManifestContext
  logical : WordSpan
  entryCount : Nat
  pageCount : Nat
  most : entryCount ≤ maximumObjectEntries ∧ pageCount ≤ maximumObjectPages
  valid : (entryCount = 0 ↔ logical.isEmpty = true) ∧ (entryCount = 0 ↔ pageCount = 0)
    ∧ pageCount ≤ entryCount ∧ entryCount ≤ logical.count
  deriving DecidableEq

/-- `range_manifest_root_header::make`. -/
def RootHeader.make (context : ManifestContext) (logical : WordSpan) (entryCount pageCount : Nat) :
    Except Errc RootHeader :=
  if hmost : entryCount ≤ maximumObjectEntries ∧ pageCount ≤ maximumObjectPages then
    if hvalid : (entryCount = 0 ↔ logical.isEmpty = true) ∧ (entryCount = 0 ↔ pageCount = 0)
        ∧ pageCount ≤ entryCount ∧ entryCount ≤ logical.count then
      .ok ⟨context, logical, entryCount, pageCount, hmost, hvalid⟩
    else .error .invalidArgument
  else .error .resourceExhausted

theorem RootHeader.make_eq_ok {context : ManifestContext} {logical : WordSpan} {entries pages : Nat}
    {header : RootHeader} :
    make context logical entries pages = .ok header
      ↔ header.context = context ∧ header.logical = logical ∧ header.entryCount = entries
        ∧ header.pageCount = pages := by
  unfold make
  by_cases hmost : entries ≤ maximumObjectEntries ∧ pages ≤ maximumObjectPages
  · by_cases hvalid : (entries = 0 ↔ logical.isEmpty = true) ∧ (entries = 0 ↔ pages = 0)
        ∧ pages ≤ entries ∧ entries ≤ logical.count
    · rw [dif_pos hmost, dif_pos hvalid]
      constructor
      · intro heq
        cases heq
        exact ⟨rfl, rfl, rfl, rfl⟩
      · rintro ⟨rfl, rfl, rfl, rfl⟩
        rfl
    · rw [dif_pos hmost, dif_neg hvalid]
      refine iff_of_false nofun ?_
      rintro ⟨rfl, rfl, rfl, rfl⟩
      exact hvalid header.valid
  · rw [dif_neg hmost]
    refine iff_of_false nofun ?_
    rintro ⟨rfl, rfl, rfl, rfl⟩
    exact hmost header.most

/-- `range_manifest_page_header`. -/
structure PageHeader where
  context : ManifestContext
  logical : WordSpan
  ordinal : Nat
  firstEntry : Nat
  entryCount : Nat
  most : ordinal < maximumObjectPages ∧ firstEntry + entryCount ≤ maximumObjectEntries
  valid : entryCount ≠ 0 ∧ logical.isEmpty = false ∧ entryCount ≤ logical.count
    ∧ (ordinal = 0 → firstEntry = 0) ∧ ordinal ≤ firstEntry
  deriving DecidableEq

/-- `range_manifest_page_header::make`. -/
def PageHeader.make (context : ManifestContext) (logical : WordSpan)
    (ordinal firstEntry entryCount : Nat) : Except Errc PageHeader :=
  if hmost : ordinal < maximumObjectPages ∧ firstEntry + entryCount ≤ maximumObjectEntries then
    if hvalid : entryCount ≠ 0 ∧ logical.isEmpty = false ∧ entryCount ≤ logical.count
        ∧ (ordinal = 0 → firstEntry = 0) ∧ ordinal ≤ firstEntry then
      .ok ⟨context, logical, ordinal, firstEntry, entryCount, hmost, hvalid⟩
    else .error .invalidArgument
  else .error .resourceExhausted

theorem PageHeader.make_eq_ok {context : ManifestContext} {logical : WordSpan}
    {ordinal first count : Nat} {header : PageHeader} :
    make context logical ordinal first count = .ok header
      ↔ header.context = context ∧ header.logical = logical ∧ header.ordinal = ordinal
        ∧ header.firstEntry = first ∧ header.entryCount = count := by
  unfold make
  by_cases hmost : ordinal < maximumObjectPages ∧ first + count ≤ maximumObjectEntries
  · by_cases hvalid : count ≠ 0 ∧ logical.isEmpty = false ∧ count ≤ logical.count
        ∧ (ordinal = 0 → first = 0) ∧ ordinal ≤ first
    · rw [dif_pos hmost, dif_pos hvalid]
      constructor
      · intro heq
        cases heq
        exact ⟨rfl, rfl, rfl, rfl, rfl⟩
      · rintro ⟨rfl, rfl, rfl, rfl, rfl⟩
        rfl
    · rw [dif_pos hmost, dif_neg hvalid]
      refine iff_of_false nofun ?_
      rintro ⟨rfl, rfl, rfl, rfl, rfl⟩
      exact hvalid header.valid
  · rw [dif_neg hmost]
    refine iff_of_false nofun ?_
    rintro ⟨rfl, rfl, rfl, rfl, rfl⟩
    exact hmost header.most

/-- `range_manifest_page_capacity`. -/
def rangeManifestPageCapacity (header : Nat) (alignment : Capacity.Alignment) (policy : Limits) :
    Except Errc Nat := do
  let tail ← maxChildBytes header rangeManifestPageFixedBytes alignment.bytes policy policy.page
  pure (min (tail / rangeManifestEntryWireBytes) policy.config.maxObjectEntries)

/-- The layout of a page of so many entries. -/
def pageLayout (header count : Nat) (alignment : Capacity.Alignment) (policy : Limits) :
    Except Errc AlignedLayout :=
  AlignedLayout.make ⟨header, rangeManifestPageFixedBytes, count * rangeManifestEntryWireBytes⟩
    alignment.bytes policy policy.page

/-- The layout of a root of so many pages. -/
def rootLayout (header count : Nat) (alignment : Capacity.Alignment) (policy : Limits) :
    Except Errc AlignedLayout :=
  AlignedLayout.make ⟨header, rangeManifestRootFixedBytes, count * pageRefWireBytes⟩
    alignment.bytes policy policy.page

/-- `check_counts`. -/
def checkCounts (header : RootHeader) (policy : Limits) : Except Errc Unit :=
  require (header.entryCount ≤ policy.config.maxObjectEntries
    ∧ header.pageCount ≤ policy.config.maxObjectPages) .resourceExhausted

/-- `check_page_ref`, at the widths of a manifest page. -/
def checkPageRef (ref : PageRef) (ordinal first : Nat) (alignment : Capacity.Alignment) (policy : Limits) :
    Except Errc Unit := do
  require (ref.ordinal = ordinal ∧ ref.firstEntry = first) .malformedData
  require (ref.encodedBytes ≤ policy.config.maxPageBytes
    ∧ ref.entryCount ≤ policy.config.maxObjectEntries
    ∧ ordinal < policy.config.maxObjectPages) .resourceExhausted
  let minimum ← pageLayout envelopePrefixBytes ref.entryCount alignment policy
  require (minimum.encodedBytes ≤ ref.encodedBytes ∧ ref.encodedBytes % alignment.bytes = 0)
    .malformedData

/-! ## Scopes and references on the wire -/

/-- The fields `write_scope` stores. The two octets after the kind stay zero. -/
def scopeFields (context : ManifestContext) (logical : WordSpan) (subkind : Nat) : List Field :=
  [⟨0, 2, subkind, false⟩, ⟨4, 16, context.topic, true⟩, ⟨20, 16, context.range, true⟩,
    ⟨36, 16, context.manifest, true⟩, ⟨52, 8, context.generation, false⟩,
    ⟨60, 8, logical.begin_, false⟩, ⟨68, 8, logical.end_, false⟩]

/-- `read_scope`. -/
def readScope (fixed : List UInt8) (expected : ManifestContext) (subkind : Nat) :
    Except Errc WordSpan := do
  checkSubkind (load fixed 0 2) subkind
  require (load fixed 2 2 = 0) .malformedData
  require (loadId fixed 4 ≠ 0) .malformedData
  require (loadId fixed 20 ≠ 0) .malformedData
  require (loadId fixed 36 ≠ 0) .malformedData
  require (loadWord fixed 52 ≠ 0) .malformedData
  require (loadId fixed 4 = expected.topic ∧ loadId fixed 20 = expected.range
    ∧ loadId fixed 36 = expected.manifest ∧ loadWord fixed 52 = expected.generation) .wrongContext
  pageWire (WordSpan.make (loadWord fixed 60) (loadWord fixed 68))

/-- `page_ordinal::make` and `page_ref::make`. -/
def makePageRef (ordinal firstEntry entryCount encodedBytes digest : Nat) : Except Errc PageRef :=
  if hordinal : ordinal < maximumObjectPages then
    if hleast : 0 < entryCount ∧ 32 ≤ encodedBytes then
      if hmost : firstEntry + entryCount ≤ maximumObjectEntries ∧ encodedBytes ≤ 65536 then
        .ok ⟨ordinal, firstEntry, entryCount, encodedBytes, digest, hordinal, hleast.1, hmost.1,
          hleast.2, hmost.2⟩
      else .error .resourceExhausted
    else .error .invalidArgument
  else .error .resourceExhausted

theorem makePageRef_eq_ok {ordinal first count bytes digest : Nat} {ref : PageRef} :
    makePageRef ordinal first count bytes digest = .ok ref
      ↔ ref.ordinal = ordinal ∧ ref.firstEntry = first ∧ ref.entryCount = count
        ∧ ref.encodedBytes = bytes ∧ ref.digest = digest := by
  unfold makePageRef
  split
  next hordinal =>
    split
    next hleast =>
      split
      next hmost =>
        constructor
        · intro heq
          cases heq
          exact ⟨rfl, rfl, rfl, rfl, rfl⟩
        · rintro ⟨rfl, rfl, rfl, rfl, rfl⟩
          rfl
      next hmost =>
        refine iff_of_false nofun ?_
        rintro ⟨rfl, rfl, rfl, rfl, rfl⟩
        exact hmost ⟨ref.entries_most, ref.encoded_most⟩
    next hleast =>
      refine iff_of_false nofun ?_
      rintro ⟨rfl, rfl, rfl, rfl, rfl⟩
      exact hleast ⟨ref.entries_pos, ref.encoded_least⟩
  next hordinal =>
    refine iff_of_false nofun ?_
    rintro ⟨rfl, rfl, rfl, rfl, rfl⟩
    exact hordinal ref.ordinal_lt

/-- The fields of a reference. -/
def refFields (ref : PageRef) : List Field :=
  [⟨0, 4, ref.ordinal, false⟩, ⟨4, 4, ref.firstEntry, false⟩, ⟨8, 4, ref.entryCount, false⟩,
    ⟨12, 4, ref.encodedBytes, false⟩, ⟨16, 16, ref.digest, true⟩, ⟨32, 16, 0, false⟩]

/-- `write_page_ref`. -/
def writePageRef (ref : PageRef) : List UInt8 := writeFields pageRefWireBytes (refFields ref)

/-- `read_page_ref`. -/
def readPageRef (raw : List UInt8) : Except Errc PageRef := do
  require (load raw 0 4 < maximumObjectPages) .resourceExhausted
  let digest ← expect (readDigest raw 16) .malformedData
  pageWire (makePageRef (load raw 0 4) (load raw 4 4) (load raw 8 4) (load raw 12 4) digest)

/-! ## Roots -/

/-- `range_manifest_root`. -/
structure RangeManifestRoot where
  header : RootHeader
  alignment : Capacity.Alignment
  digest : Nat
  pages : List PageRef
  encodedBytes : Nat

/-- The references of a root, each after the one before it. Answers them with the entries they hold. -/
def readRefs (alignment : Capacity.Alignment) (policy : Limits) (total : Nat) :
    Nat → Nat → Nat → List UInt8 → Except Errc (List PageRef × Nat × List UInt8)
  | 0, _, first, rest => .ok ([], first, rest)
  | count + 1, ordinal, first, rest => do
    require (pageRefWireBytes ≤ rest.length) .malformedData
    let ref ← readPageRef (rest.take pageRefWireBytes)
    checkPageRef ref ordinal first alignment policy
    require (first + ref.entryCount ≤ total) .malformedData
    let (more, last, left) ← readRefs alignment policy total count (ordinal + 1)
      (first + ref.entryCount) (rest.drop pageRefWireBytes)
    pure (ref :: more, last, left)

/-- `root_reader`: the body of a root. -/
def readRoot (policy : Limits) (expected : ManifestContext) (logical : WordSpan) (alignment : Capacity.Alignment)
    (digest : Nat) (headerBytes : Nat) (body : List UInt8) : Except Errc RangeManifestRoot := do
  require (rangeManifestRootFixedBytes ≤ body.length) .malformedData
  admitWork policy 1024 64
  let fixed := body.take rangeManifestRootFixedBytes
  let scope ← readScope fixed expected 1
  require (scope = logical) .wrongContext
  let total := load fixed 76 4
  require (load fixed 80 4 ≤ maximumObjectPages) .resourceExhausted
  let header ← pageWire (RootHeader.make expected scope total (load fixed 80 4))
  checkCounts header policy
  let layout ← pageWire (rootLayout headerBytes header.pageCount alignment policy)
  require (body.length = layout.bodyBytes ∧ load fixed 84 4 = layout.paddingBytes) .malformedData
  let (pages, first, rest) ← readRefs alignment policy total header.pageCount 0 0
    (body.drop rangeManifestRootFixedBytes)
  require (first = total) .malformedData
  readPadding rest layout.paddingBytes
  pure ⟨header, alignment, digest, pages, layout.encodedBytes⟩

/-! ## Pages -/

/-- `range_manifest_page`. -/
structure RangeManifestPage where
  header : PageHeader
  reference : PageRef
  entries : List RangeManifestEntry

/-- The entries of a page, each from where the one before it ended. Answers them with where the last one
    ended. -/
def readEntries (end_ : Fin (2 ^ 64)) : Nat → List UInt8 → Fin (2 ^ 64) → Int64
    → Except Errc (List RangeManifestEntry × Fin (2 ^ 64) × List UInt8)
  | 0, rest, next, _ => .ok ([], next, rest)
  | count + 1, rest, next, latest => do
    require (rangeManifestEntryWireBytes ≤ rest.length) .malformedData
    let entry ← readEntry (rest.take rangeManifestEntryWireBytes) next end_
    let later ← expect (appendOrdered entry latest) .malformedData
    let (more, last, left) ← readEntries end_ count (rest.drop rangeManifestEntryWireBytes)
      entry.logical.end_ later
    pure (entry :: more, last, left)

/-- `page_reader`: the body of a page. -/
def readPage (policy : Limits) (expected : ManifestContext) (rootLogical : WordSpan)
    (alignment : Capacity.Alignment) (reference : PageRef) (previous : Option (Fin (2 ^ 64))) (latest : Int64)
    (headerBytes : Nat) (body : List UInt8) : Except Errc RangeManifestPage := do
  require (rangeManifestPageFixedBytes ≤ body.length) .malformedData
  admitWork policy 1024 64
  let fixed := body.take rangeManifestPageFixedBytes
  let scope ← readScope fixed expected 2
  require (rootLogical.begin_ ≤ scope.begin_ ∧ scope.end_ ≤ rootLogical.end_
    ∧ ∀ last ∈ previous, scope.begin_ = last) .malformedData
  let count := load fixed 84 4
  require (load fixed 76 4 = reference.ordinal ∧ load fixed 80 4 = reference.firstEntry
    ∧ count = reference.entryCount) .wrongContext
  let header ← pageWire (PageHeader.make expected scope reference.ordinal reference.firstEntry count)
  let capacity ← pageWire (rangeManifestPageCapacity headerBytes alignment policy)
  require (count ≤ capacity) .resourceExhausted
  let layout ← pageWire (pageLayout headerBytes count alignment policy)
  require (layout.encodedBytes = reference.encodedBytes ∧ body.length = layout.bodyBytes
    ∧ load fixed 88 4 = layout.paddingBytes) .malformedData
  let (entries, next, rest) ← readEntries scope.end_ count (body.drop rangeManifestPageFixedBytes)
    scope.begin_ latest
  require (next = scope.end_) .malformedData
  readPadding rest layout.paddingBytes
  pure ⟨header, reference, entries⟩

/-! ## Decoding -/

/-- `page_limits`. -/
def pageLimits : ExtentLimits := ⟨65536, 65536⟩

/-- `decode_pinned`: the envelope and its body, an exact size where there is one, and the digest the
    object is pinned by. Answers the value and how many octets it took. -/
def decodePinned {α : Type} (digests : Digests) (policy : CodecLimits) (boundary : InputBoundary)
    (digest : Nat) (reader : Nat → List UInt8 → Except Errc α) (exactSize : Option Nat)
    (input : List UInt8) : Except Errc (α × Nat) := do
  let (headerBytes, body) ← inspectEnvelope digests .rangeManifest policy pageLimits boundary input
  let value ← reader headerBytes body
  let length := headerBytes + body.length
  require (∀ size ∈ exactSize, size = length) .malformedData
  require ((digests.hashExact (input.take length)).val = digest) .corruptData
  pure (value, length)

/-- `decode_range_manifest_root`. -/
def decodeRangeManifestRoot (digests : Digests) (policy : CodecLimits) (boundary : InputBoundary)
    (expected : ManifestContext) (logical : WordSpan) (alignment : Capacity.Alignment) (digest : Nat)
    (input : List UInt8) : Except Errc (RangeManifestRoot × Nat) :=
  decodePinned digests policy boundary digest
    (readRoot policy.toLimits expected logical alignment digest) none input

/-- `decode_page`: the page of an ordinal, from where the pages before it ended if that is known, and not
    before their latest append time. -/
def decodePage (digests : Digests) (policy : CodecLimits) (boundary : InputBoundary)
    (root : RangeManifestRoot) (ordinal : Nat) (input : List UInt8) (previous : Option (Fin (2 ^ 64)))
    (latest : Int64) : Except Errc (RangeManifestPage × Nat) :=
  match root.pages[ordinal]? with
  | none => .error .invalidArgument
  | some reference => do
    checkCounts root.header policy.toLimits
    checkPageRef reference ordinal reference.firstEntry root.alignment policy.toLimits
    decodePinned digests policy boundary reference.digest
      (readPage policy.toLimits root.header.context root.header.logical root.alignment reference previous
        latest) (some reference.encodedBytes) input

/-- `decode_range_manifest_page`: a page on its own. -/
def decodeRangeManifestPage (digests : Digests) (policy : CodecLimits) (boundary : InputBoundary)
    (root : RangeManifestRoot) (ordinal : Nat) (input : List UInt8) :
    Except Errc (RangeManifestPage × Nat) :=
  decodePage digests policy boundary root ordinal input none 0

/-! ## Encoding -/

/-- The loop of `encode_range_manifest_page` over its entries. Answers where the last one ended. -/
def checkEntries (end_ : Fin (2 ^ 64)) : List RangeManifestEntry → Fin (2 ^ 64) → Int64
    → Except Errc (Fin (2 ^ 64))
  | [], next, _ => .ok next
  | entry :: more, next, latest => do
    require (entry.logical.begin_ = next ∧ entry.logical.end_ ≤ end_) .invalidArgument
    let later ← expect (appendOrdered entry latest) .invalidArgument
    checkEntries end_ more entry.logical.end_ later

/-- The fixed fields of a page. -/
def pageFields (header : PageHeader) (padding : Nat) : List Field :=
  scopeFields header.context header.logical 2
    ++ [⟨76, 4, header.ordinal, false⟩, ⟨80, 4, header.firstEntry, false⟩,
      ⟨84, 4, header.entryCount, false⟩, ⟨88, 4, padding, false⟩]

/-- The loop of `encode_range_manifest_root` over its references. Answers how many entries they hold. -/
def checkRefs (alignment : Capacity.Alignment) (policy : Limits) (total : Nat) :
    List PageRef → Nat → Nat → Except Errc Nat
  | [], _, first => .ok first
  | ref :: more, ordinal, first => do
    checkPageRef ref ordinal first alignment policy
    require (first + ref.entryCount ≤ total) .invalidArgument
    checkRefs alignment policy total more (ordinal + 1) (first + ref.entryCount)

/-- The fixed fields of a root. -/
def rootFields (header : RootHeader) (padding : Nat) : List Field :=
  scopeFields header.context header.logical 1
    ++ [⟨76, 4, header.entryCount, false⟩, ⟨80, 4, header.pageCount, false⟩, ⟨84, 4, padding, false⟩]

end KwaqueStorage.Manifest
