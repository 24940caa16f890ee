import KwaqueStorage.Layout.Envelope
import KwaqueStorage.Lib.Table
import KwaqueStorage.RetryPages.Entry

/-!
# Retry pages and their root

The entries of a sealed segment lie in pages of one file, back to back, and the root in the segment's
data file refers to each page: its ordinal, the entries it begins at and holds, its bytes and their
digest. A page is read against its reference and its root. The envelope around a page's body and the
digest of its bytes are parameters. Memory, aborts and work quanta, which can fail a read at any point,
are left out.
-/

namespace KwaqueStorage.RetryPages

open Extent (SegmentContext FooterExpectation)
open Layout Lib

/-- `maximum_object_entries`. -/
def maximumObjectEntries : Nat := 65536

/-- `maximum_object_pages`. -/
def maximumObjectPages : Nat := 256

/-- `page_ref`, with what its `make` checks. -/
structure PageRef where
  ordinal : Nat
  firstEntry : Nat
  entryCount : Nat
  encodedBytes : Nat
  digest : Nat
  ordinal_lt : ordinal < maximumObjectPages
  entries_pos : 0 < entryCount
  entries_most : firstEntry + entryCount ≤ maximumObjectEntries
  encoded_least : 32 ≤ encodedBytes
  encoded_most : encodedBytes ≤ 65536

instance : DecidableEq PageRef := fun a b =>
  decidable_of_iff (a.ordinal = b.ordinal ∧ a.firstEntry = b.firstEntry ∧ a.entryCount = b.entryCount
    ∧ a.encodedBytes = b.encodedBytes ∧ a.digest = b.digest) (by cases a; cases b; simp)

/-- `sealed_footer`, as far as its retry pages read it. Its references are in the order of their
    ordinals. -/
structure SealedFooter where
  location : FooterExpectation
  retryCount : Nat
  pages : List PageRef
  pages_most : pages.length ≤ maximumObjectPages
  in_order : pages.map PageRef.ordinal = List.range pages.length
  deriving DecidableEq

/-- `local_bundle_root`: the root of a bundle, of which only a sealed one has retry pages. -/
inductive BundleRoot
  | sparseIndex
  | sealedFooter (footer : SealedFooter)
  | checkpoint
  deriving DecidableEq

/-- The envelope and the digest of a sealed extent's pages. -/
structure PageCodec where
  /-- `decode_envelope` of the family, within `page_limits`: the bytes of the header and the body. -/
  envelope : List UInt8 → Except Errc (Nat × List UInt8)
  /-- `hash_exact`. -/
  hashExact : List UInt8 → Nat

/-- `retry_page_fixed_bytes`. -/
def retryPageFixedBytes : Nat := 100

/-- `retry_page_capacity`. -/
def retryPageCapacity (header alignment : Nat) (policy : Limits) : Except Errc Nat := do
  let tail ← maxChildBytes header retryPageFixedBytes alignment policy policy.page
  pure (min (tail / completedRetryWireBytes) policy.config.maxObjectEntries)

/-- The layout of a page of so many entries. -/
def retryPageLayout (header count alignment : Nat) (policy : Limits) : Except Errc AlignedLayout :=
  AlignedLayout.make ⟨header, retryPageFixedBytes, count * completedRetryWireBytes⟩ alignment policy
    policy.page

/-- `check_subkind`. -/
def checkSubkind (actual expected : Nat) : Except Errc Unit := do
  require (actual ≠ 0) .malformedData
  require (actual ≤ 2) .unsupportedFormat
  require (actual = expected) .wrongContext

/-- `check_page_ref`, at the widths of a retry page. -/
def checkPageRef (ref : PageRef) (ordinal first alignment : Nat) (policy : Limits) :
    Except Errc Unit := do
  require (ref.ordinal = ordinal ∧ ref.firstEntry = first) .malformedData
  require (ref.encodedBytes ≤ policy.config.maxPageBytes
    ∧ ref.entryCount ≤ policy.config.maxObjectEntries
    ∧ ordinal < policy.config.maxObjectPages) .resourceExhausted
  let minimum ← retryPageLayout envelopePrefixBytes ref.entryCount alignment policy
  require (minimum.encodedBytes ≤ ref.encodedBytes ∧ ref.encodedBytes % alignment = 0) .malformedData

/-- `read_sc`. -/
def readSc (fixed : List UInt8) (offset : Nat) (expected : SegmentContext) : Except Errc Unit := do
  let cluster ← readId fixed offset
  let topic ← readId fixed (offset + 16)
  let range ← readId fixed (offset + 32)
  let segment ← readId fixed (offset + 48)
  let generation ← readCounter fixed (offset + 64)
  require (cluster = expected.cluster ∧ topic = expected.topic ∧ range = expected.range
    ∧ segment = expected.segment ∧ generation = expected.generation) .wrongContext

/-- The entries of a page, each after the one before it. -/
def readEntries (policy : Limits) (expected : SegmentContext) :
    Nat → List UInt8 → Option BatchId → Except Errc (List CompletedRetry × List UInt8)
  | 0, rest, _ => .ok ([], rest)
  | count + 1, rest, previous => do
    require (completedRetryWireBytes ≤ rest.length) .malformedData
    let entry ← readRetryEntry (rest.take completedRetryWireBytes) expected previous
    require (entry.returnedSpan.count ≤ policy.config.maxOriginalRecords) .resourceExhausted
    let (more, left) ← readEntries policy expected count (rest.drop completedRetryWireBytes)
      (some entry.id)
    pure (entry :: more, left)

/-- `read_padding`. -/
def readPadding (rest : List UInt8) (padding : Nat) : Except Errc Unit := do
  require (rest.length = padding) .malformedData
  require (∀ octet ∈ rest, octet = 0) .malformedData

/-- `retry_reader`: the body of a page. -/
def readPage (policy : Limits) (root : FooterExpectation) (reference : PageRef) (header : Nat)
    (body : List UInt8) (previous : Option BatchId) : Except Errc (List CompletedRetry) := do
  require (retryPageFixedBytes ≤ body.length) .malformedData
  let fixed := body.take retryPageFixedBytes
  checkSubkind (load fixed 0 2) 2
  require (load fixed 2 2 = 0) .malformedData
  readSc fixed 4 root.history.segment
  require (load fixed 76 8 = root.position) .wrongContext
  let count := load fixed 92 4
  require (load fixed 84 4 = reference.ordinal ∧ load fixed 88 4 = reference.firstEntry
    ∧ count = reference.entryCount) .wrongContext
  let capacity ← pageWire (retryPageCapacity header root.history.alignment policy)
  require (count ≠ 0) .malformedData
  require (count ≤ capacity) .resourceExhausted
  let layout ← pageWire (retryPageLayout header count root.history.alignment policy)
  require (layout.encodedBytes = reference.encodedBytes ∧ body.length = layout.bodyBytes
    ∧ load fixed 96 4 = layout.paddingBytes) .malformedData
  let (entries, rest) ← readEntries policy root.history.segment count
    (body.drop retryPageFixedBytes) previous
  readPadding rest layout.paddingBytes
  pure entries

/-- `decode_pinned` of a page: its envelope and body, its exact size, and the digest it is pinned by. -/
def decodePinned (codec : PageCodec) (policy : Limits) (root : FooterExpectation)
    (reference : PageRef) (input : List UInt8) (previous : Option BatchId) :
    Except Errc (List CompletedRetry × Nat) := do
  let (header, body) ← codec.envelope input
  let entries ← readPage policy root reference header body previous
  let length := header + body.length
  require (reference.encodedBytes = length) .malformedData
  require (codec.hashExact (input.take length) = reference.digest) .corruptData
  pure (entries, length)

/-- `decode_page`: the page of an ordinal, after the last key of the page before it, if there is one.
    Answers its entries and how many bytes it took. -/
def decodePage (codec : PageCodec) (policy : Limits) (root : SealedFooter) (ordinal : Nat)
    (input : List UInt8) (previous : Option BatchId) : Except Errc (List CompletedRetry × Nat) :=
  match root.pages[ordinal]? with
  | none => .error .invalidArgument
  | some reference => do
    require (root.retryCount ≤ policy.config.maxObjectEntries
      ∧ root.pages.length ≤ policy.config.maxObjectPages) .resourceExhausted
    checkPageRef reference ordinal reference.firstEntry root.location.history.alignment policy
    decodePinned codec policy root.location reference input previous

/-- `decode_retry_page`: a page on its own. -/
def decodeRetryPage (codec : PageCodec) (policy : Limits) (root : SealedFooter) (ordinal : Nat)
    (input : List UInt8) : Except Errc (List CompletedRetry × Nat) :=
  decodePage codec policy root ordinal input none

/-! ## What a well-formed page is -/

/-- The octets of so many entries, one after another. -/
def slots : Nat → List UInt8 → List (List UInt8)
  | 0, _ => []
  | count + 1, rest => rest.take completedRetryWireBytes :: slots count (rest.drop completedRetryWireBytes)

/-- What a root may say of one of its pages. -/
structure RefFits (reference : PageRef) (ordinal alignment : Nat) (policy : Limits) : Prop where
  own : reference.ordinal = ordinal
  bytes_most : reference.encodedBytes ≤ policy.config.maxPageBytes
  entries_most : reference.entryCount ≤ policy.config.maxObjectEntries
  ordinal_most : ordinal < policy.config.maxObjectPages
  bytes_least : ∃ minimum, retryPageLayout envelopePrefixBytes reference.entryCount alignment policy
    = .ok minimum ∧ minimum.encodedBytes ≤ reference.encodedBytes
  aligned : reference.encodedBytes % alignment = 0

/-- The context a page carries is the segment's. -/
structure ScHolds (fixed : List UInt8) (offset : Nat) (expected : SegmentContext) : Prop where
  cluster : expected.cluster = bigEndian (field fixed offset 16)
  topic : expected.topic = bigEndian (field fixed (offset + 16) 16)
  range : expected.range = bigEndian (field fixed (offset + 32) 16)
  segment : expected.segment = bigEndian (field fixed (offset + 48) 16)
  generation : expected.generation = load fixed (offset + 64) 8
  present : expected.cluster ≠ 0 ∧ expected.topic ≠ 0 ∧ expected.range ≠ 0 ∧ expected.segment ≠ 0
    ∧ expected.generation ≠ 0

/-- **The body of a well-formed page**, with the entries it holds: it names its own kind, root and
    reference, its size is that of its entries and their least padding, every entry slot holds an entry,
    and the padding is zero. -/
structure BodyHolds (policy : Limits) (root : FooterExpectation) (reference : PageRef) (header : Nat)
    (body : List UInt8) (entries : List CompletedRetry) : Prop where
  kind : load body 0 2 = 2
  reserved : load body 2 2 = 0
  context : ScHolds body 4 root.history.segment
  position : load body 76 8 = root.position
  ordinal : load body 84 4 = reference.ordinal
  first : load body 88 4 = reference.firstEntry
  count : load body 92 4 = reference.entryCount
  capacity : ∃ most, retryPageCapacity header root.history.alignment policy = .ok most
    ∧ reference.entryCount ≤ most
  layout : ∃ layout, retryPageLayout header reference.entryCount root.history.alignment policy
      = .ok layout ∧ layout.encodedBytes = reference.encodedBytes ∧ body.length = layout.bodyBytes
    ∧ load body 96 4 = layout.paddingBytes
  held : List.Forall₂ (fun raw entry => EntryHolds raw root.history.segment entry)
    (slots reference.entryCount (body.drop retryPageFixedBytes)) entries
  spans : ∀ entry ∈ entries, entry.returnedSpan.count ≤ policy.config.maxOriginalRecords
  padding : ∀ octet ∈ body.drop (retryPageFixedBytes + reference.entryCount * completedRetryWireBytes),
    octet = 0

/-- **A well-formed page** of a root, with the entries it holds, in whatever order. -/
structure PageHolds (codec : PageCodec) (policy : Limits) (root : SealedFooter) (ordinal : Nat)
    (reference : PageRef) (input : List UInt8) (entries : List CompletedRetry) : Prop where
  listed : root.pages[ordinal]? = some reference
  root_entries : root.retryCount ≤ policy.config.maxObjectEntries
  root_pages : root.pages.length ≤ policy.config.maxObjectPages
  fits : RefFits reference ordinal root.location.history.alignment policy
  whole : ∃ header body, codec.envelope input = .ok (header, body)
    ∧ BodyHolds policy root.location reference header body entries
    ∧ reference.encodedBytes = header + body.length
    ∧ codec.hashExact (input.take reference.encodedBytes) = reference.digest

section

variable {codec : PageCodec} {policy : Limits} {previous : Option BatchId}

theorem field_take {body : List UInt8} {offset width bound : Nat} (h : offset + width ≤ bound) :
    field (body.take bound) offset width = field body offset width := by
  unfold field
  rw [List.drop_take, List.take_take, min_eq_left (by omega)]

theorem load_take {body : List UInt8} {offset width bound : Nat} (h : offset + width ≤ bound) :
    load (body.take bound) offset width = load body offset width := by
  unfold load
  rw [field_take h]

theorem checkPageRef_eq_ok {reference : PageRef} {ordinal alignment : Nat} {u : Unit} :
    checkPageRef reference ordinal reference.firstEntry alignment policy = .ok u
      ↔ RefFits reference ordinal alignment policy := by
  unfold checkPageRef
  simp only [bind_eq_ok, require_eq_ok, exists_const, and_true]
  constructor
  · rintro ⟨hordinal, ⟨hbytes, hentries, hmost⟩, minimum, hminimum, hleast, haligned⟩
    exact ⟨hordinal, hbytes, hentries, hmost, ⟨minimum, hminimum, hleast⟩, haligned⟩
  · intro h
    obtain ⟨minimum, hminimum, hleast⟩ := h.bytes_least
    exact ⟨h.own, ⟨h.bytes_most, h.entries_most, h.ordinal_most⟩, minimum, hminimum, hleast,
      h.aligned⟩

theorem readSc_eq_ok {fixed : List UInt8} {offset : Nat} {expected : SegmentContext} {u : Unit} :
    readSc fixed offset expected = .ok u ↔ ScHolds fixed offset expected := by
  unfold readSc
  simp only [bind_eq_ok, readId_eq_ok, readCounter_eq_ok, require_eq_ok]
  constructor
  · rintro ⟨_, ⟨hc, rfl⟩, _, ⟨ht, rfl⟩, _, ⟨hr, rfl⟩, _, ⟨hs, rfl⟩, _, ⟨hg, rfl⟩, h1, h2, h3, h4, h5⟩
    exact ⟨h1.symm, h2.symm, h3.symm, h4.symm, h5.symm, h1 ▸ hc, h2 ▸ ht, h3 ▸ hr, h4 ▸ hs, h5 ▸ hg⟩
  · rintro ⟨h1, h2, h3, h4, h5, hc, ht, hr, hs, hg⟩
    exact ⟨_, ⟨h1 ▸ hc, rfl⟩, _, ⟨h2 ▸ ht, rfl⟩, _, ⟨h3 ▸ hr, rfl⟩, _, ⟨h4 ▸ hs, rfl⟩, _,
      ⟨h5 ▸ hg, rfl⟩, h1.symm, h2.symm, h3.symm, h4.symm, h5.symm⟩

theorem checkSubkind_eq_ok {actual : Nat} {u : Unit} : checkSubkind actual 2 = .ok u ↔ actual = 2 := by
  unfold checkSubkind
  simp only [bind_eq_ok, require_eq_ok, exists_const]
  omega

theorem readPadding_eq_ok {rest : List UInt8} {padding : Nat} {u : Unit} :
    readPadding rest padding = .ok u ↔ rest.length = padding ∧ ∀ octet ∈ rest, octet = 0 := by
  unfold readPadding
  simp only [bind_eq_ok, require_eq_ok, exists_const]

/-- **Reading the entries of a page** answers what its slots hold, in strict order after the key
    before them. -/
theorem readEntries_eq_ok {expected : SegmentContext} {count : Nat} {rest left : List UInt8}
    {entries : List CompletedRetry} (hlong : count * completedRetryWireBytes ≤ rest.length) :
    readEntries policy expected count rest previous = .ok (entries, left)
      ↔ List.Forall₂ (fun raw entry => EntryHolds raw expected entry) (slots count rest) entries
        ∧ (∀ entry ∈ entries, entry.returnedSpan.count ≤ policy.config.maxOriginalRecords)
        ∧ Ordered CompletedRetry.id entries ∧ (∀ last ∈ previous, ∀ entry ∈ entries, last < entry.id)
        ∧ left = rest.drop (count * completedRetryWireBytes) := by
  induction count generalizing rest left previous entries with
  | zero =>
    rw [readEntries, slots, List.forall₂_nil_left_iff, Nat.zero_mul, List.drop_zero]
    constructor
    · intro h
      cases h
      exact ⟨rfl, by simp, Ordered.nil, by simp, rfl⟩
    · rintro ⟨rfl, _, _, _, rfl⟩
      rfl
  | succ count ih =>
    rw [Nat.add_mul, Nat.one_mul] at hlong
    have hdrop : count * completedRetryWireBytes ≤ (rest.drop completedRetryWireBytes).length := by
      rw [List.length_drop]
      omega
    have hleft : (rest.drop completedRetryWireBytes).drop (count * completedRetryWireBytes)
        = rest.drop ((count + 1) * completedRetryWireBytes) := by
      rw [List.drop_drop, Nat.add_mul, Nat.one_mul, Nat.add_comm]
    rw [readEntries, slots]
    simp only [bind_eq_ok, require_eq_ok, exists_const, readRetryEntry_eq_ok, Prod.exists,
      pure_eq_ok]
    constructor
    · rintro ⟨_, entry, ⟨hholds, hafter⟩, hspan, more, rest', hmore, heq⟩
      obtain ⟨hslots, hspans, hordered, hlast, rfl⟩ := (ih hdrop).mp hmore
      cases heq
      have hnext : ∀ other ∈ more, entry.id < other.id := hlast entry.id rfl
      refine ⟨List.Forall₂.cons hholds hslots, ?_, List.pairwise_cons.mpr ⟨hnext, hordered⟩, ?_, hleft⟩
      · intro other hother
        rcases List.mem_cons.mp hother with rfl | hother
        · exact hspan
        · exact hspans other hother
      · intro last hprevious other hother
        have hfirst := hafter last hprevious
        rcases List.mem_cons.mp hother with rfl | hother
        · exact hfirst
        · exact hfirst.trans (hnext other hother)
    · rintro ⟨hslots, hspans, hordered, hlast, rfl⟩
      obtain ⟨entry, more, hholds, hmore, rfl⟩ := List.forall₂_cons_left_iff.mp hslots
      obtain ⟨hnext, hordered⟩ := List.pairwise_cons.mp hordered
      refine ⟨by omega, entry, ⟨hholds, fun last hprevious => hlast last hprevious entry (by simp)⟩,
        hspans entry (by simp), more, _, (ih hdrop).mpr ⟨hmore, ?_, hordered, ?_, rfl⟩, by rw [hleft]⟩
      · intro other hother
        exact hspans other (List.mem_cons_of_mem _ hother)
      · intro last hprevious other hother
        cases hprevious
        exact hnext other hother

/-- The body of a page is its fixed fields, its entries and its padding. -/
theorem retryPageLayout_body {header count alignment : Nat} {layout : AlignedLayout}
    (h : retryPageLayout header count alignment policy = .ok layout) :
    layout.bodyBytes = retryPageFixedBytes + count * completedRetryWireBytes + layout.paddingBytes := by
  obtain ⟨_, _, _, _, rfl⟩ := AlignedLayout.make_eq_ok.mp h
  rfl

theorem ScHolds.of_take {body : List UInt8} {offset bound : Nat} {expected : SegmentContext}
    (hbound : offset + 72 ≤ bound) :
    ScHolds (body.take bound) offset expected ↔ ScHolds body offset expected := by
  have hcluster := @field_take body offset 16 bound (by omega)
  have htopic := @field_take body (offset + 16) 16 bound (by omega)
  have hrange := @field_take body (offset + 32) 16 bound (by omega)
  have hsegment := @field_take body (offset + 48) 16 bound (by omega)
  have hgeneration := @load_take body (offset + 64) 8 bound (by omega)
  constructor
  · rintro ⟨h1, h2, h3, h4, h5, hpresent⟩
    exact ⟨hcluster ▸ h1, htopic ▸ h2, hrange ▸ h3, hsegment ▸ h4, hgeneration ▸ h5, hpresent⟩
  · rintro ⟨h1, h2, h3, h4, h5, hpresent⟩
    exact ⟨hcluster ▸ h1, htopic ▸ h2, hrange ▸ h3, hsegment ▸ h4, hgeneration ▸ h5, hpresent⟩

/-- **Reading a body** answers the entries of a well-formed one whose entries are in strict order after
    the key before them. -/
theorem readPage_eq_ok {root : FooterExpectation} {reference : PageRef} {header : Nat}
    {body : List UInt8} {entries : List CompletedRetry} :
    readPage policy root reference header body previous = .ok entries
      ↔ BodyHolds policy root reference header body entries ∧ Ordered CompletedRetry.id entries
        ∧ ∀ last ∈ previous, ∀ entry ∈ entries, last < entry.id := by
  have h0 := @load_take body 0 2 retryPageFixedBytes (by decide)
  have h2 := @load_take body 2 2 retryPageFixedBytes (by decide)
  have h76 := @load_take body 76 8 retryPageFixedBytes (by decide)
  have h84 := @load_take body 84 4 retryPageFixedBytes (by decide)
  have h88 := @load_take body 88 4 retryPageFixedBytes (by decide)
  have h92 := @load_take body 92 4 retryPageFixedBytes (by decide)
  have h96 := @load_take body 96 4 retryPageFixedBytes (by decide)
  have hsc := @ScHolds.of_take body 4 retryPageFixedBytes root.history.segment (by decide)
  unfold readPage
  simp only [bind_eq_ok, require_eq_ok, exists_const, checkSubkind_eq_ok, readSc_eq_ok,
    pageWire_eq_ok, readPadding_eq_ok, pure_eq_ok, Prod.exists, h0, h2, h76, h84, h88, h92, h96, hsc]
  constructor
  · rintro ⟨hlong, hkind, hreserved, hcontext, hposition, ⟨hordinal, hfirst, hcount⟩, most, hmost, _,
      hfits, layout, hlayout, ⟨hencoded, hlength, hpadding⟩, found, rest, hread, ⟨hrest, hzero⟩, rfl⟩
    rw [hcount] at hfits hlayout hread
    have hbody := retryPageLayout_body hlayout
    have hslots : reference.entryCount * completedRetryWireBytes
        ≤ (body.drop retryPageFixedBytes).length := by
      rw [List.length_drop]
      omega
    obtain ⟨hheld, hspans, hordered, hlast, rfl⟩ := (readEntries_eq_ok hslots).mp hread
    rw [List.drop_drop] at hzero
    exact ⟨⟨hkind, hreserved, hcontext, hposition, hordinal, hfirst, hcount, ⟨most, hmost, hfits⟩,
      ⟨layout, hlayout, hencoded, hlength, hpadding⟩, hheld, hspans, hzero⟩, hordered, hlast⟩
  · rintro ⟨h, hordered, hlast⟩
    obtain ⟨most, hmost, hfits⟩ := h.capacity
    obtain ⟨layout, hlayout, hencoded, hlength, hpadding⟩ := h.layout
    have hbody := retryPageLayout_body hlayout
    have hslots : reference.entryCount * completedRetryWireBytes
        ≤ (body.drop retryPageFixedBytes).length := by
      rw [List.length_drop]
      omega
    have hpos := reference.entries_pos
    rw [h.count]
    refine ⟨by omega, h.kind, h.reserved, h.context, h.position, ⟨h.ordinal, h.first, rfl⟩, most,
      hmost, by omega, hfits, layout, hlayout, ⟨hencoded, hlength, hpadding⟩, entries, _,
      (readEntries_eq_ok hslots).mpr ⟨h.held, h.spans, hordered, hlast, rfl⟩, ⟨?_, ?_⟩, rfl⟩
    · rw [List.length_drop, List.length_drop]
      omega
    · rw [List.drop_drop]
      exact h.padding

/-- **Decoding a page** accepts exactly the well-formed ones whose entries are in strict order after the
    key before them. -/
theorem decodePage_eq_ok {root : SealedFooter} {ordinal taken : Nat} {input : List UInt8}
    {entries : List CompletedRetry} :
    decodePage codec policy root ordinal input previous = .ok (entries, taken)
      ↔ (∃ reference, PageHolds codec policy root ordinal reference input entries
          ∧ taken = reference.encodedBytes)
        ∧ Ordered CompletedRetry.id entries ∧ ∀ last ∈ previous, ∀ entry ∈ entries, last < entry.id := by
  unfold decodePage decodePinned
  cases hlisted : root.pages[ordinal]? with
  | none =>
    refine iff_of_false nofun ?_
    rintro ⟨⟨reference, h, _⟩, _⟩
    exact nomatch hlisted.symm.trans h.listed
  | some reference =>
    simp only [bind_eq_ok, require_eq_ok, exists_const, checkPageRef_eq_ok, Prod.exists,
      readPage_eq_ok, pure_eq_ok]
    constructor
    · rintro ⟨⟨hentries, hpages⟩, hfits, header, body, henvelope, found, ⟨hbody, hordered, hlast⟩,
        hbytes, hdigest, heq⟩
      cases heq
      rw [← hbytes] at hdigest ⊢
      exact ⟨⟨reference, ⟨hlisted, hentries, hpages, hfits, header, body, henvelope, hbody, hbytes,
        hdigest⟩, rfl⟩, hordered, hlast⟩
    · rintro ⟨⟨reference', h, rfl⟩, hordered, hlast⟩
      obtain rfl := Option.some.inj (hlisted.symm.trans h.listed)
      obtain ⟨header, body, henvelope, hbody, hbytes, hdigest⟩ := h.whole
      rw [hbytes] at hdigest
      exact ⟨⟨h.root_entries, h.root_pages⟩, h.fits, header, body, henvelope, entries,
        ⟨hbody, hordered, hlast⟩, hbytes, hdigest, by rw [hbytes]⟩

end

end KwaqueStorage.RetryPages
