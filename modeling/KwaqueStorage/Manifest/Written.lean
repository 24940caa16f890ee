import KwaqueStorage.Manifest.Sound

/-!
# Roots and pages are read as they were written

What an encoder returned is accepted by the decoder under the same policy, identity and alignment: the page
against any root that lists its reference and covers its span, from where it begins and from any append time
its entries do not go behind; the root against its own span and digest. Both give back exactly what was
encoded.
-/

namespace KwaqueStorage.Manifest

open Codec Layout Lib RetryPages
open Lib.Tiling (Joined joined_append)

/-! ## The parts -/

section Parts

variable {context : ManifestContext} {logical : WordSpan} {subkind : Nat} {fields : List Field}
  {size : Nat} {raw rest : List UInt8}

/-- The places of a scope's fields. -/
theorem scope_mem {field : Field} (h : field ∈ scopeFields context logical subkind) (more : List Field) :
    field ∈ scopeFields context logical subkind ++ more := List.mem_append_left more h

/-- **A scope is read as it was written**, whatever is stored after it. -/
theorem readScope_written
    (hlaid : laidOut size ((scopeFields context logical subkind ++ fields).map Field.place) = true)
    (hreserved : (((scopeFields context logical subkind ++ fields).map Field.place).all
      fun other => placesApart other (2, 2)) = true)
    (hsize : 4 ≤ size) (hkind : subkind = 1 ∨ subkind = 2) :
    readScope (writeFields size (scopeFields context logical subkind ++ fields)) context subkind
      = .ok logical := by
  have hsub : load (writeFields size (scopeFields context logical subkind ++ fields)) 0 2 = subkind :=
    load_writeFields hlaid (scope_mem (by simp [scopeFields]) _) (by omega)
  have hzero : load (writeFields size (scopeFields context logical subkind ++ fields)) 2 2 = 0 :=
    load_writeFields_apart hlaid hsize hreserved
  have hid : ∀ offset (value : Fin (2 ^ 128)),
      ⟨offset, 16, value, true⟩ ∈ scopeFields context logical subkind
      → loadId (writeFields size (scopeFields context logical subkind ++ fields)) offset = value :=
    fun offset value hmem => loadId_eq (id_writeFields hlaid (scope_mem hmem _) value.isLt)
  have hword : ∀ offset (value : Fin (2 ^ 64)),
      ⟨offset, 8, value, false⟩ ∈ scopeFields context logical subkind
      → loadWord (writeFields size (scopeFields context logical subkind ++ fields)) offset = value :=
    fun offset value hmem => loadWord_eq (load_writeFields hlaid (scope_mem hmem _) value.isLt)
  have htopic := hid 4 context.topic (by simp [scopeFields])
  have hrange := hid 20 context.range (by simp [scopeFields])
  have hmanifest := hid 36 context.manifest (by simp [scopeFields])
  have hgeneration := hword 52 context.generation (by simp [scopeFields])
  have hbegin := hword 60 logical.begin_ (by simp [scopeFields])
  have hend := hword 68 logical.end_ (by simp [scopeFields])
  obtain ⟨ht, hr, hm, hg⟩ := context.present
  unfold readScope checkSubkind
  simp only [bind_eq_ok, require_eq_ok, exists_const, pageWire_eq_ok, hsub, hzero, htopic, hrange,
    hmanifest, hgeneration, hbegin, hend, WordSpan.make_eq_ok, true_and, and_true]
  exact ⟨⟨by omega, by omega⟩, ht, hr, hm, hg⟩

theorem refFields_laidOut {ref : PageRef} :
    laidOut pageRefWireBytes ((refFields ref).map Field.place) = true := by
  change laidOut 48 [(0, 4), (4, 4), (8, 4), (12, 4), (16, 16), (32, 16)] = true
  decide

@[simp] theorem length_writePageRef {ref : PageRef} : (writePageRef ref).length = pageRefWireBytes :=
  length_writeFields refFields_laidOut

/-- **A reference is read as it was written.** -/
theorem readPageRef_written {ref : PageRef} (hdigest : ref.digest < 2 ^ 128) :
    readPageRef (writePageRef ref) = .ok ref := by
  have hlaid := @refFields_laidOut ref
  have hload : ∀ offset value, ⟨offset, 4, value, false⟩ ∈ refFields ref → value ≤ 65536
      → load (writePageRef ref) offset 4 = value :=
    fun offset value hmem hle => load_writeFields hlaid hmem (lt_of_le_of_lt hle (by decide))
  have hmost := ref.entries_most
  unfold maximumObjectEntries at hmost
  have hordinal := hload 0 ref.ordinal (by simp [refFields])
    (ref.ordinal_lt.le.trans (by decide))
  have hfirst := hload 4 ref.firstEntry (by simp [refFields]) (by omega)
  have hcount := hload 8 ref.entryCount (by simp [refFields]) (by omega)
  have hbytes := hload 12 ref.encodedBytes (by simp [refFields]) ref.encoded_most
  have hslot : readDigest (writePageRef ref) 16 = some ref.digest := by
    refine readDigest_eq_some.mpr ⟨?_, ?_⟩
    · have hfield := field_writeFields hlaid (f := ⟨32, 16, 0, false⟩) (by simp [refFields])
      intro octet hmem
      unfold writePageRef at hmem
      rw [hfield] at hmem
      exact List.eq_of_mem_replicate (n := 16) hmem
    · exact (id_writeFields hlaid (by simp [refFields]) hdigest).symm
  unfold readPageRef
  simp only [bind_eq_ok, require_eq_ok, exists_const, expect_eq_ok, pageWire_eq_ok, hordinal, hfirst,
    hcount, hbytes, hslot]
  exact ⟨ref.ordinal_lt, ref.digest, rfl, makePageRef_eq_ok.mpr ⟨rfl, rfl, rfl, rfl, rfl⟩⟩

/-- What the loop of the page's encoder checks of its entries. -/
theorem checkEntries_eq_ok {end_ next last : Fin (2 ^ 64)} {latest : Int64}
    {entries : List RangeManifestEntry} :
    checkEntries end_ entries next latest = .ok last
      ↔ Joined next last (pieces entries) ∧ (∀ entry ∈ entries, entry.logical.end_ ≤ end_)
        ∧ ∃ later, appendThrough entries latest = some later := by
  induction entries generalizing next latest with
  | nil =>
    constructor
    · intro h
      cases h
      exact ⟨rfl, by simp, latest, rfl⟩
    · rintro ⟨h, _⟩
      exact congrArg Except.ok (Fin.ext h)
  | cons entry rest ih =>
    rw [checkEntries]
    simp only [bind_eq_ok, require_eq_ok, exists_const, expect_eq_ok, ih]
    constructor
    · rintro ⟨⟨hbegin, hend⟩, mid, hmid, hjoined, hwithin, later, hlater⟩
      refine ⟨⟨congrArg Fin.val hbegin, hjoined⟩, List.forall_mem_cons.mpr ⟨hend, hwithin⟩, later, ?_⟩
      unfold appendThrough at hlater ⊢
      rw [List.foldlM_cons, hmid]
      exact hlater
    · rintro ⟨⟨hbegin, hjoined⟩, hwithin, later, hlater⟩
      obtain ⟨hend, hwithin⟩ := List.forall_mem_cons.mp hwithin
      unfold appendThrough at hlater
      rw [List.foldlM_cons] at hlater
      obtain ⟨mid, hmid, hlater⟩ := Option.bind_eq_some_iff.mp hlater
      exact ⟨⟨Fin.ext hbegin, hend⟩, mid, hmid, hjoined, hwithin, later, hlater⟩

/-- **Entries are read as they were written.** -/
theorem readEntries_written {end_ next last : Fin (2 ^ 64)} {latest : Int64}
    {entries : List RangeManifestEntry} (h : checkEntries end_ entries next latest = .ok last) :
    readEntries end_ entries.length ((entries.map writeEntry).flatten ++ rest) next latest
      = .ok (entries, last, rest) := by
  induction entries generalizing next latest with
  | nil =>
    cases h
    rfl
  | cons entry more ih =>
    rw [checkEntries] at h
    simp only [bind_eq_ok, require_eq_ok, exists_const, expect_eq_ok] at h
    obtain ⟨⟨hbegin, hend⟩, mid, hmid, hmore⟩ := h
    obtain ⟨htake, hdrop, hlong⟩ := flatten_front (fun _ => length_writeEntry) entry more rest
    rw [List.length_cons, readEntries, htake, hdrop]
    simp only [bind_eq_ok, require_eq_ok, exists_const, expect_eq_ok, Prod.exists, pure_eq_ok]
    exact ⟨hlong, entry, readEntry_writeEntry hbegin hend, mid, hmid, more, last, rest, ih hmore, rfl⟩

/-- **References are read as they were written.** -/
theorem readRefs_written {alignment : Capacity.Alignment} {policy : Limits} {total ordinal first last : Nat}
    {refs : List PageRef} (hdigests : ∀ ref ∈ refs, ref.digest < 2 ^ 128)
    (h : checkRefs alignment policy total refs ordinal first = .ok last) :
    readRefs alignment policy total refs.length ordinal first ((refs.map writePageRef).flatten ++ rest)
      = .ok (refs, last, rest) := by
  induction refs generalizing ordinal first with
  | nil =>
    cases h
    rfl
  | cons ref more ih =>
    obtain ⟨hdigest, hdigests⟩ := List.forall_mem_cons.mp hdigests
    rw [checkRefs] at h
    simp only [bind_eq_ok, require_eq_ok, exists_const] at h
    obtain ⟨_, hcheck, htotal, hmore⟩ := h
    obtain ⟨htake, hdrop, hlong⟩ := flatten_front (fun _ => length_writePageRef) ref more rest
    rw [List.length_cons, readRefs, htake, hdrop]
    simp only [bind_eq_ok, require_eq_ok, exists_const, Prod.exists, pure_eq_ok]
    exact ⟨hlong, ref, readPageRef_written hdigest, (), hcheck, htotal, more, last, rest,
      ih hdigests hmore, rfl⟩

end Parts

/-! ## What pages and roots share -/

section Objects

variable {digests : Digests} {policy : CodecLimits} {fields : List Field} {width digest : Nat}
  {fixed tail bytes rest : List UInt8} {layout : AlignedLayout} {boundary : InputBoundary}

/-- A body's fields stand in front, and what it lists comes after them. -/
theorem body_parts (hlaid : laidOut width (fields.map Field.place) = true) (tail : List UInt8) (padding : Nat) :
    let fixed := writeFields width fields
    let body := fixed ++ tail ++ List.replicate padding 0
    body.take width = fixed ∧ body.drop width = tail ++ List.replicate padding 0 ∧ width ≤ body.length
      ∧ ∀ offset value, ⟨offset, 4, value, false⟩ ∈ fields → value ≤ 65536 → load fixed offset 4 = value := by
  have hlen := length_writeFields hlaid
  dsimp only
  rw [List.append_assoc]
  refine ⟨List.take_left' hlen, List.drop_left' hlen, ?_, ?_⟩
  · rw [List.length_append, hlen]
    exact Nat.le_add_right _ _
  · exact fun offset value hmem hle => load_writeFields hlaid hmem (lt_of_le_of_lt hle (by decide))

theorem encoded_length (h : encodePadded digests .rangeManifest fixed tail layout policy.toLimits = .ok bytes) :
    bytes.length = envelopePrefixBytes + (fixed ++ tail ++ List.replicate layout.paddingBytes 0).length
      ∧ bytes.length = layout.encodedBytes := by
  obtain ⟨hbytes, hbody, hheader, _⟩ := encodePadded_eq_ok h
  have hlength : bytes.length
      = envelopePrefixBytes + (fixed ++ tail ++ List.replicate layout.paddingBytes 0).length := by
    rw [hbytes, List.length_append, length_writeFields prefixFields_laidOut]
  refine ⟨hlength, ?_⟩
  rw [hlength, AlignedLayout.encodedBytes, hheader, hbody]

/-- **An encoded object is decoded** if its body is read. -/
theorem decodePinned_encoded {α : Type} {reader : Nat → List UInt8 → Except Errc α} {value : α}
    {exactSize : Option Nat} (h : encodePadded digests .rangeManifest fixed tail layout policy.toLimits = .ok bytes)
    (hmost : layout.encodedBytes ≤ policy.config.maxPageBytes)
    (hbody : layout.bodyBytes ≤ policy.config.maxPageBytes)
    (hread : reader envelopePrefixBytes (fixed ++ tail ++ List.replicate layout.paddingBytes 0) = .ok value)
    (hsize : ∀ size ∈ exactSize, size = bytes.length) (hpinned : (digests.hashExact bytes).val = digest) :
    decodePinned digests policy boundary digest reader exactSize (bytes ++ rest) = .ok (value, bytes.length) := by
  have hpage := policy.toLimits.maxPageBytes_le
  have hinspect := @inspectEnvelope_encodePadded digests .rangeManifest policy _ _ bytes layout boundary
    pageLimits rest h (hbody.trans hpage) (hmost.trans hpage)
  have hlength := (encoded_length h).1
  unfold decodePinned
  simp only [bind_eq_ok, require_eq_ok, exists_const, Prod.exists, pure_eq_ok]
  refine ⟨_, _, hinspect, value, hread, ?_, ?_, ?_⟩
  · rwa [← hlength]
  · rw [← hlength, List.take_left, hpinned]
  · rw [hlength]

end Objects

/-! ## A page -/

section Page

variable {digests : Digests} {policy : CodecLimits} {header : PageHeader} {reference : PageRef}
  {entries : List RangeManifestEntry} {alignment : Capacity.Alignment} {bytes : List UInt8}

theorem pageFields_laidOut {padding : Nat} :
    laidOut rangeManifestPageFixedBytes ((pageFields header padding).map Field.place) = true := by
  change laidOut 92 [(0, 2), (4, 16), (20, 16), (36, 16), (52, 8), (60, 8), (68, 8), (76, 4), (80, 4),
    (84, 4), (88, 4)] = true
  decide

theorem pageFields_reserved {padding : Nat} :
    (((pageFields header padding).map Field.place).all fun other => placesApart other (2, 2)) = true := by
  change ([(0, 2), (4, 16), (20, 16), (36, 16), (52, 8), (60, 8), (68, 8), (76, 4), (80, 4),
    (84, 4), (88, 4)].all fun other => placesApart other (2, 2)) = true
  decide

/-- What a layout within a page's limits keeps. -/
theorem page_layout_most {parts : EnvelopeParts} {layout : AlignedLayout} {limits : Limits}
    (h : AlignedLayout.make parts alignment.bytes limits limits.page = .ok layout) :
    layout.encodedBytes ≤ limits.config.maxPageBytes ∧ layout.bodyBytes ≤ limits.config.maxPageBytes
      ∧ layout.paddingBytes ≤ limits.config.maxPageBytes
      ∧ layout.encodedBytes % alignment.bytes = 0 := by
  have hpos : 0 < alignment.bytes := Nat.lt_of_lt_of_le (by decide) alignment.least
  have hencoded := AlignedLayout.make_encodedBytes h
  obtain ⟨_, _, _, hmost, rfl⟩ := AlignedLayout.make_eq_ok.mp h
  have hmost' : alignUp parts.bytes alignment.bytes ≤ limits.config.maxPageBytes := hmost
  refine ⟨hencoded ▸ hmost', ?_, ?_, ?_⟩
  · rw [← hencoded] at hmost'
    exact (Nat.le_add_left _ _).trans hmost'
  · rw [← hencoded] at hmost'
    exact (Nat.le_add_left _ _).trans ((Nat.le_add_left _ _).trans hmost')
  · rw [hencoded]
    exact alignUp_mod hpos

/-- **What an encoded page is.** -/
structure PageWritten (digests : Digests) (policy : CodecLimits) (alignment : Capacity.Alignment)
    (header : PageHeader) (entries : List RangeManifestEntry) (layout : AlignedLayout)
    (bytes : List UInt8) (reference : PageRef) : Prop where
  admitted : admitWork policy.toLimits 1024 64 = .ok ()
  capacity : ∃ most, rangeManifestPageCapacity envelopePrefixBytes alignment policy.toLimits = .ok most
    ∧ header.entryCount ≤ most
  entries_most : header.firstEntry + header.entryCount ≤ policy.config.maxObjectEntries
  ordinal_lt : header.ordinal < policy.config.maxObjectPages
  counted : entries.length = header.entryCount
  checked : checkEntries header.logical.end_ entries header.logical.begin_ 0 = .ok header.logical.end_
  laid : pageLayout envelopePrefixBytes entries.length alignment policy.toLimits = .ok layout
  encoded : encodePadded digests .rangeManifest
    (writeFields rangeManifestPageFixedBytes (pageFields header layout.paddingBytes))
    (entries.map writeEntry).flatten layout policy.toLimits = .ok bytes
  refers : reference.ordinal = header.ordinal ∧ reference.firstEntry = header.firstEntry
    ∧ reference.entryCount = header.entryCount ∧ reference.encodedBytes = bytes.length
    ∧ reference.digest = (digests.hashExact bytes).val

namespace PageWritten

variable {layout : AlignedLayout} {root : RangeManifestRoot} {latest later : Int64}
  {boundary : InputBoundary} {rest : List UInt8}

/-- The body of an encoded page. -/
def body (header : PageHeader) (entries : List RangeManifestEntry) (padding : Nat) : List UInt8 :=
  writeFields rangeManifestPageFixedBytes (pageFields header padding)
    ++ (entries.map writeEntry).flatten ++ List.replicate padding 0

/-- **The reference of an encoded page** passes the check of its root. -/
theorem fits (h : PageWritten digests policy alignment header entries layout bytes reference) :
    checkPageRef reference header.ordinal header.firstEntry alignment policy.toLimits = .ok () := by
  obtain ⟨hordinal, hfirst, hcount, hencoded, _⟩ := h.refers
  have hlayout := h.laid
  rw [h.counted] at hlayout
  obtain ⟨hmost, _, _, haligned⟩ := page_layout_most h.laid
  have hentries := h.entries_most
  unfold checkPageRef
  simp only [bind_eq_ok, require_eq_ok, exists_const, hordinal, hfirst, hcount, hencoded,
    (encoded_length h.encoded).2, true_and]
  exact ⟨⟨hmost, by omega, h.ordinal_lt⟩, layout, hlayout, Nat.le_refl _, haligned⟩

/-- **The body of an encoded page** is read as it was written. -/
theorem read (h : PageWritten digests policy alignment header entries layout bytes reference)
    {span : WordSpan} (hwithin : span.begin_ ≤ header.logical.begin_ ∧ header.logical.end_ ≤ span.end_)
    (hlater : appendThrough entries latest = some later) :
    readPage policy.toLimits header.context span alignment reference (some header.logical.begin_) latest
      envelopePrefixBytes (body header entries layout.paddingBytes) = .ok ⟨header, reference, entries⟩ := by
  have hlaid := @pageFields_laidOut header layout.paddingBytes
  obtain ⟨htake, hdrop, hlong, hload⟩ :=
    body_parts hlaid (entries.map writeEntry).flatten layout.paddingBytes
  obtain ⟨hordinal, hfirst, hcount, hencoded, _⟩ := h.refers
  obtain ⟨_, hbodyBytes, _⟩ := encodePadded_eq_ok h.encoded
  obtain ⟨_, _, hpadding, _⟩ := page_layout_most h.laid
  have hpage := policy.toLimits.maxPageBytes_le
  have hmost := header.most
  unfold maximumObjectPages maximumObjectEntries at hmost
  have h76 := hload 76 header.ordinal (by simp [pageFields]) (by omega)
  have h80 := hload 80 header.firstEntry (by simp [pageFields]) (by omega)
  have h84 := hload 84 header.entryCount (by simp [pageFields]) (by omega)
  have h88 := hload 88 layout.paddingBytes (by simp [pageFields]) (by omega)
  have hscope : readScope (writeFields rangeManifestPageFixedBytes (pageFields header layout.paddingBytes))
      header.context 2 = .ok header.logical :=
    readScope_written hlaid pageFields_reserved (by decide) (.inr rfl)
  have hchecked : checkEntries header.logical.end_ entries header.logical.begin_ latest
      = .ok header.logical.end_ := by
    obtain ⟨hjoined, hends, _⟩ := checkEntries_eq_ok.mp h.checked
    exact checkEntries_eq_ok.mpr ⟨hjoined, hends, later, hlater⟩
  obtain ⟨most, hcapacity, hfits⟩ := h.capacity
  have hlayout := h.laid
  have hread := @readEntries_written (List.replicate layout.paddingBytes 0) _ _ _ _ _ hchecked
  rw [h.counted] at hlayout hread
  unfold readPage body
  rw [htake, hdrop]
  simp only [bind_eq_ok, require_eq_ok, exists_const, pageWire_eq_ok, Prod.exists, pure_eq_ok,
    h76, h80, h84, h88, readPadding_eq_ok]
  refine ⟨hlong, (), h.admitted, _, hscope, ⟨hwithin.1, hwithin.2, ?_⟩, ⟨hordinal.symm, hfirst.symm,
    hcount.symm⟩, header, ?_, most, hcapacity, hfits, layout, hlayout, ⟨?_, hbodyBytes.symm, rfl⟩, entries,
    _, _, hread, rfl, ⟨List.length_replicate, ?_⟩, rfl⟩
  · intro last hlast
    cases hlast
    rfl
  · exact PageHeader.make_eq_ok.mpr ⟨rfl, rfl, hordinal.symm, hfirst.symm, rfl⟩
  · rw [hencoded, (encoded_length h.encoded).2]
  · intro octet hmem
    exact List.eq_of_mem_replicate hmem

/-- **An encoded page is decoded**, against any root that lists its reference and covers its span, from
    where it begins and from any append time its entries do not go behind. -/
theorem decoded (h : PageWritten digests policy alignment header entries layout bytes reference)
    (hlisted : root.pages[header.ordinal]? = some reference)
    (hcounts : checkCounts root.header policy.toLimits = .ok ())
    (hcontext : root.header.context = header.context) (halignment : root.alignment = alignment)
    (hwithin : root.header.logical.begin_ ≤ header.logical.begin_
      ∧ header.logical.end_ ≤ root.header.logical.end_)
    (hlater : appendThrough entries latest = some later) :
    decodePage digests policy boundary root header.ordinal (bytes ++ rest) (some header.logical.begin_)
      latest = .ok (⟨header, reference, entries⟩, bytes.length) := by
  obtain ⟨_, hfirst, _, hencoded, hdigest⟩ := h.refers
  have hfits := h.fits
  rw [← hfirst] at hfits
  obtain ⟨hmost, hbody, _⟩ := page_layout_most h.laid
  unfold decodePage
  rw [hlisted]
  simp only [bind_eq_ok]
  refine ⟨(), hcounts, (), ?_, decodePinned_encoded h.encoded hmost hbody ?_ ?_ hdigest.symm⟩
  · rw [halignment]
    exact hfits
  · rw [hcontext, halignment]
    exact h.read hwithin hlater
  · intro size hmem
    cases hmem
    exact hencoded

end PageWritten

end Page

/-! ## A root -/

section Root

variable {digests : Digests} {policy : CodecLimits} {header : RootHeader} {refs : List PageRef}
  {alignment : Capacity.Alignment} {bytes : List UInt8} {digest : Nat}

theorem rootFields_laidOut {padding : Nat} :
    laidOut rangeManifestRootFixedBytes ((rootFields header padding).map Field.place) = true := by
  change laidOut 88 [(0, 2), (4, 16), (20, 16), (36, 16), (52, 8), (60, 8), (68, 8), (76, 4), (80, 4),
    (84, 4)] = true
  decide

theorem rootFields_reserved {padding : Nat} :
    (((rootFields header padding).map Field.place).all fun other => placesApart other (2, 2)) = true := by
  change ([(0, 2), (4, 16), (20, 16), (36, 16), (52, 8), (60, 8), (68, 8), (76, 4), (80, 4),
    (84, 4)].all fun other => placesApart other (2, 2)) = true
  decide

/-- **What an encoded root is.** -/
structure RootWritten (digests : Digests) (policy : CodecLimits) (alignment : Capacity.Alignment)
    (header : RootHeader) (refs : List PageRef) (layout : AlignedLayout) (bytes : List UInt8)
    (digest : Nat) : Prop where
  admitted : admitWork policy.toLimits 1024 64 = .ok ()
  counts : checkCounts header policy.toLimits = .ok ()
  counted : refs.length = header.pageCount
  checked : checkRefs alignment policy.toLimits header.entryCount refs 0 0 = .ok header.entryCount
  laid : rootLayout envelopePrefixBytes refs.length alignment policy.toLimits = .ok layout
  encoded : encodePadded digests .rangeManifest
    (writeFields rangeManifestRootFixedBytes (rootFields header layout.paddingBytes))
    (refs.map writePageRef).flatten layout policy.toLimits = .ok bytes
  pinned : digest = (digests.hashExact bytes).val

namespace RootWritten

variable {layout : AlignedLayout} {boundary : InputBoundary} {rest : List UInt8}

/-- The body of an encoded root. -/
def body (header : RootHeader) (refs : List PageRef) (padding : Nat) : List UInt8 :=
  writeFields rangeManifestRootFixedBytes (rootFields header padding)
    ++ (refs.map writePageRef).flatten ++ List.replicate padding 0

/-- **The body of an encoded root** is read as it was written. -/
theorem read (h : RootWritten digests policy alignment header refs layout bytes digest)
    (hdigests : ∀ ref ∈ refs, ref.digest < 2 ^ 128) :
    readRoot policy.toLimits header.context header.logical alignment digest envelopePrefixBytes
      (body header refs layout.paddingBytes)
      = .ok ⟨header, alignment, digest, refs, layout.encodedBytes⟩ := by
  have hlaid := @rootFields_laidOut header layout.paddingBytes
  obtain ⟨htake, hdrop, hlong, hload⟩ :=
    body_parts hlaid (refs.map writePageRef).flatten layout.paddingBytes
  obtain ⟨_, hbodyBytes, _⟩ := encodePadded_eq_ok h.encoded
  obtain ⟨_, _, hpadding, _⟩ := page_layout_most h.laid
  have hpage := policy.toLimits.maxPageBytes_le
  have hmost := header.most
  unfold maximumObjectPages maximumObjectEntries at hmost
  have h76 := hload 76 header.entryCount (by simp [rootFields]) (by omega)
  have h80 := hload 80 header.pageCount (by simp [rootFields]) (by omega)
  have h84 := hload 84 layout.paddingBytes (by simp [rootFields]) (by omega)
  have hscope : readScope (writeFields rangeManifestRootFixedBytes (rootFields header layout.paddingBytes))
      header.context 1 = .ok header.logical :=
    readScope_written hlaid rootFields_reserved (by decide) (.inl rfl)
  have hlayout := h.laid
  have hread := @readRefs_written (List.replicate layout.paddingBytes 0) _ _ _ _ _ _ _ hdigests h.checked
  rw [h.counted] at hlayout hread
  unfold readRoot body
  rw [htake, hdrop]
  simp only [bind_eq_ok, require_eq_ok, exists_const, pageWire_eq_ok, Prod.exists, pure_eq_ok,
    h76, h80, h84, readPadding_eq_ok]
  refine ⟨hlong, (), h.admitted, _, hscope, rfl, header.most.2, header,
    RootHeader.make_eq_ok.mpr ⟨rfl, rfl, rfl, rfl⟩, (), h.counts, layout, hlayout, ⟨hbodyBytes.symm, rfl⟩, refs, _, _,
    hread, rfl, ⟨List.length_replicate, ?_⟩, rfl⟩
  · intro octet hmem
    exact List.eq_of_mem_replicate hmem

/-- **An encoded root is decoded** against its own identity, span, alignment and digest. -/
theorem decoded (h : RootWritten digests policy alignment header refs layout bytes digest)
    (hdigests : ∀ ref ∈ refs, ref.digest < 2 ^ 128) :
    decodeRangeManifestRoot digests policy boundary header.context header.logical alignment digest
      (bytes ++ rest) = .ok (⟨header, alignment, digest, refs, layout.encodedBytes⟩, bytes.length) := by
  obtain ⟨hmost, hbody, _⟩ := page_layout_most h.laid
  exact decodePinned_encoded h.encoded hmost hbody (h.read hdigests) (fun _ hmem => nomatch hmem) h.pinned.symm

end RootWritten

end Root

end KwaqueStorage.Manifest
