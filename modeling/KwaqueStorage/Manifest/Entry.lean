import KwaqueStorage.Codec.Envelope

/-!
# Range manifest entries

A range manifest lists the extents of one range in the order of the logical records they hold. An entry is
120 octets: the logical records it covers, the segment and generation that hold them, the records and file
bytes that remain, the digest of those bytes, and the latest append and record times of the extent. Entries
that hold no record carry no time; those that do never go back in append time.
-/

namespace KwaqueStorage.Manifest

open Codec Lib RetryPages

/-! ## Values -/

/-- `range_logical_span`, `segment_relative_span` and `file_byte_span`. -/
structure WordSpan where
  begin_ : Fin (2 ^ 64)
  end_ : Fin (2 ^ 64)
  ordered : begin_ ≤ end_
  deriving DecidableEq

namespace WordSpan

/-- `make` of a span. -/
def make (begin_ end_ : Fin (2 ^ 64)) : Except Errc WordSpan :=
  if h : begin_ ≤ end_ then .ok ⟨begin_, end_, h⟩ else .error .invalidArgument

def isEmpty (span : WordSpan) : Bool := decide (span.begin_ = span.end_)

def count (span : WordSpan) : Nat := span.end_ - span.begin_

theorem make_eq_ok {begin_ end_ : Fin (2 ^ 64)} {span : WordSpan} :
    make begin_ end_ = .ok span ↔ span.begin_ = begin_ ∧ span.end_ = end_ := by
  unfold make
  split
  next h =>
    constructor
    · intro heq
      cases heq
      exact ⟨rfl, rfl⟩
    · rintro ⟨rfl, rfl⟩
      rfl
  next h =>
    refine iff_of_false nofun ?_
    rintro ⟨rfl, rfl⟩
    exact h span.ordered

end WordSpan

/-- `codec::xxh3_128_empty`, the digest of no octets. -/
def emptyDigest : Fin (2 ^ 128) := 0x99aa06d3014798d86001c324468d497f

/-- What `range_manifest_entry::make` accepts. -/
def EntryValid (segment : Fin (2 ^ 128)) (generation : Fin (2 ^ 64)) (logical physical bytes : WordSpan)
    (digest : Fin (2 ^ 128)) (maxAppendTime maxRecordTime : Int64) : Prop :=
  segment ≠ 0 ∧ generation ≠ 0 ∧ logical.isEmpty = false ∧ physical.count ≤ logical.count
    ∧ (physical.isEmpty = false → bytes.isEmpty = false)
    ∧ (bytes.isEmpty = true → digest = emptyDigest)
    ∧ if physical.isEmpty then maxAppendTime = 0 ∧ maxRecordTime = 0 else 1 ≤ maxAppendTime

instance (segment : Fin (2 ^ 128)) (generation : Fin (2 ^ 64)) (logical physical bytes : WordSpan)
    (digest : Fin (2 ^ 128)) (maxAppendTime maxRecordTime : Int64) :
    Decidable (EntryValid segment generation logical physical bytes digest maxAppendTime maxRecordTime) :=
  inferInstanceAs (Decidable (_ ∧ _))

/-- `range_manifest_entry`, its coverage as three spans. -/
structure RangeManifestEntry where
  segment : Fin (2 ^ 128)
  generation : Fin (2 ^ 64)
  logical : WordSpan
  physical : WordSpan
  bytes : WordSpan
  digest : Fin (2 ^ 128)
  maxAppendTime : Int64
  maxRecordTime : Int64
  valid : EntryValid segment generation logical physical bytes digest maxAppendTime maxRecordTime
  deriving DecidableEq

/-- `range_manifest_entry::make`. -/
def RangeManifestEntry.make (segment : Fin (2 ^ 128)) (generation : Fin (2 ^ 64))
    (logical physical bytes : WordSpan) (digest : Fin (2 ^ 128)) (maxAppendTime maxRecordTime : Int64) :
    Except Errc RangeManifestEntry :=
  if h : EntryValid segment generation logical physical bytes digest maxAppendTime maxRecordTime then
    .ok ⟨segment, generation, logical, physical, bytes, digest, maxAppendTime, maxRecordTime, h⟩
  else .error .invalidArgument

namespace RangeManifestEntry

theorem make_own (entry : RangeManifestEntry) :
    make entry.segment entry.generation entry.logical entry.physical entry.bytes entry.digest
      entry.maxAppendTime entry.maxRecordTime = .ok entry := by
  unfold make
  rw [dif_pos entry.valid]

theorem make_logical {segment : Fin (2 ^ 128)} {generation : Fin (2 ^ 64)}
    {logical physical bytes : WordSpan} {digest : Fin (2 ^ 128)} {maxAppendTime maxRecordTime : Int64}
    {entry : RangeManifestEntry}
    (h : make segment generation logical physical bytes digest maxAppendTime maxRecordTime = .ok entry) :
    entry.logical = logical := by
  unfold make at h
  split at h
  next =>
    cases h
    rfl
  next => cases h

end RangeManifestEntry

/-- `append_ordered`: the latest append time after an entry, unless the entry goes back. -/
def appendOrdered (entry : RangeManifestEntry) (latest : Int64) : Option Int64 :=
  if entry.physical.isEmpty then some latest
  else if entry.maxAppendTime < latest then none
  else some entry.maxAppendTime

/-! ## On the wire -/

/-- `range_manifest_entry_wire_bytes`. -/
def rangeManifestEntryWireBytes : Nat := 120

/-- `load` of a signed integer. -/
def loadTime (raw : List UInt8) (offset : Nat) : Int64 := (UInt64.ofNat (load raw offset 8)).toInt64

/-- The sixteen octets of an identity or a digest. -/
def loadId (raw : List UInt8) (offset : Nat) : Fin (2 ^ 128) :=
  ⟨bigEndian (field raw offset 16), by
    unfold bigEndian
    refine (littleEndian_lt _).trans_le ?_
    have hlen : (field raw offset 16).reverse.length ≤ 16 := by
      rw [List.length_reverse]
      exact List.length_take_le _ _
    calc 256 ^ (field raw offset 16).reverse.length
        ≤ 256 ^ 16 := Nat.pow_le_pow_right (by decide) hlen
      _ = 2 ^ 128 := by decide⟩

/-- The fields of an entry. -/
def entryFields (entry : RangeManifestEntry) : List Field :=
  [⟨0, 8, entry.logical.begin_, false⟩, ⟨8, 8, entry.logical.end_, false⟩,
    ⟨16, 16, entry.segment, true⟩, ⟨32, 8, entry.generation, false⟩,
    ⟨40, 8, entry.physical.begin_, false⟩, ⟨48, 8, entry.physical.end_, false⟩,
    ⟨56, 8, entry.bytes.begin_, false⟩, ⟨64, 8, entry.bytes.end_, false⟩,
    ⟨72, 16, entry.digest, true⟩, ⟨88, 16, 0, false⟩,
    ⟨104, 8, entry.maxAppendTime.toUInt64.toNat, false⟩,
    ⟨112, 8, entry.maxRecordTime.toUInt64.toNat, false⟩]

/-- `write_entry`. -/
def writeEntry (entry : RangeManifestEntry) : List UInt8 :=
  writeFields rangeManifestEntryWireBytes (entryFields entry)

/-- `read_entry`: an entry that begins where the last one ended and ends within the page's span. -/
def readEntry (raw : List UInt8) (next end_ : Fin (2 ^ 64)) : Except Errc RangeManifestEntry := do
  let logical ← pageWire (WordSpan.make (loadWord raw 0) (loadWord raw 8))
  -- the key is refused before its value is read
  require (logical.isEmpty = false ∧ logical.begin_ = next ∧ logical.end_ ≤ end_) .malformedData
  require (loadId raw 16 ≠ 0) .malformedData
  require (loadWord raw 32 ≠ 0) .malformedData
  let physical ← pageWire (WordSpan.make (loadWord raw 40) (loadWord raw 48))
  let bytes ← pageWire (WordSpan.make (loadWord raw 56) (loadWord raw 64))
  require (∀ octet ∈ field raw 88 16, octet = 0) .malformedData
  pageWire (RangeManifestEntry.make (loadId raw 16) (loadWord raw 32) logical physical bytes
    (loadId raw 72) (loadTime raw 104) (loadTime raw 112))

/-! ## An entry is read as it was written -/

section RoundTrip

variable {entry : RangeManifestEntry} {raw : List UInt8} {next end_ : Fin (2 ^ 64)}

theorem entryFields_laidOut :
    laidOut rangeManifestEntryWireBytes ((entryFields entry).map Field.place) = true := by
  change laidOut 120 [(0, 8), (8, 8), (16, 16), (32, 8), (40, 8), (48, 8), (56, 8), (64, 8), (72, 16),
    (88, 16), (104, 8), (112, 8)] = true
  decide

@[simp] theorem length_writeEntry : (writeEntry entry).length = rangeManifestEntryWireBytes :=
  length_writeFields entryFields_laidOut

theorem loadWord_eq {offset : Nat} {value : Fin (2 ^ 64)} (h : load raw offset 8 = value) :
    loadWord raw offset = value := Fin.ext h

theorem loadId_eq {offset : Nat} {value : Fin (2 ^ 128)} (h : bigEndian (field raw offset 16) = value) :
    loadId raw offset = value := Fin.ext h

theorem loadTime_eq {offset : Nat} {value : Int64} (h : load raw offset 8 = value.toUInt64.toNat) :
    loadTime raw offset = value := by
  unfold loadTime
  rw [h, UInt64.ofNat_toNat]
  rfl

/-- **An entry is read as it was written**, wherever it may come next. -/
theorem readEntry_writeEntry (hnext : entry.logical.begin_ = next) (hend : entry.logical.end_ ≤ end_) :
    readEntry (writeEntry entry) next end_ = .ok entry := by
  have hlaid := @entryFields_laidOut entry
  have hword : ∀ offset (value : Fin (2 ^ 64)), ⟨offset, 8, value, false⟩ ∈ entryFields entry
      → loadWord (writeEntry entry) offset = value :=
    fun offset value hmem => loadWord_eq (load_writeFields hlaid hmem value.isLt)
  have hid : ∀ offset (value : Fin (2 ^ 128)), ⟨offset, 16, value, true⟩ ∈ entryFields entry
      → loadId (writeEntry entry) offset = value :=
    fun offset value hmem => loadId_eq (id_writeFields hlaid hmem value.isLt)
  have htime : ∀ offset (value : Int64), ⟨offset, 8, value.toUInt64.toNat, false⟩ ∈ entryFields entry
      → loadTime (writeEntry entry) offset = value :=
    fun offset value hmem => loadTime_eq (load_writeFields hlaid hmem (UInt64.toNat_lt _))
  have hreserved : ∀ octet ∈ field (writeEntry entry) 88 16, octet = 0 := by
    have hfield := field_writeFields hlaid (f := ⟨88, 16, 0, false⟩) (by simp [entryFields])
    intro octet hmem
    unfold writeEntry at hmem
    rw [hfield] at hmem
    exact List.eq_of_mem_replicate (n := 16) hmem
  have hlogical : WordSpan.make (loadWord (writeEntry entry) 0) (loadWord (writeEntry entry) 8)
      = .ok entry.logical :=
    WordSpan.make_eq_ok.mpr ⟨(hword 0 _ (by simp [entryFields])).symm,
      (hword 8 _ (by simp [entryFields])).symm⟩
  have hphysical : WordSpan.make (loadWord (writeEntry entry) 40) (loadWord (writeEntry entry) 48)
      = .ok entry.physical :=
    WordSpan.make_eq_ok.mpr ⟨(hword 40 _ (by simp [entryFields])).symm,
      (hword 48 _ (by simp [entryFields])).symm⟩
  have hbytes : WordSpan.make (loadWord (writeEntry entry) 56) (loadWord (writeEntry entry) 64)
      = .ok entry.bytes :=
    WordSpan.make_eq_ok.mpr ⟨(hword 56 _ (by simp [entryFields])).symm,
      (hword 64 _ (by simp [entryFields])).symm⟩
  have hsegment := hid 16 entry.segment (by simp [entryFields])
  have hgeneration := hword 32 entry.generation (by simp [entryFields])
  have hdigest := hid 72 entry.digest (by simp [entryFields])
  have happend := htime 104 entry.maxAppendTime (by simp [entryFields])
  have hrecord := htime 112 entry.maxRecordTime (by simp [entryFields])
  unfold readEntry
  simp only [bind_eq_ok, require_eq_ok, exists_const, pageWire_eq_ok]
  refine ⟨_, hlogical, ⟨entry.valid.2.2.1, hnext, hend⟩, ?_, ?_, _, hphysical, _, hbytes, hreserved, ?_⟩
  · rw [hsegment]
    exact entry.valid.1
  · rw [hgeneration]
    exact entry.valid.2.1
  · rw [hsegment, hgeneration, hdigest, happend, hrecord]
    exact entry.make_own

/-- **An entry that was read** begins where the last one ended and ends within the page's span. -/
theorem readEntry_eq_ok (h : readEntry raw next end_ = .ok entry) :
    entry.logical.begin_ = next ∧ entry.logical.end_ ≤ end_ := by
  unfold readEntry at h
  simp only [bind_eq_ok, require_eq_ok, exists_const, pageWire_eq_ok] at h
  obtain ⟨logical, _, ⟨_, hnext, hend⟩, _, _, _, _, _, _, _, hmake⟩ := h
  rw [RangeManifestEntry.make_logical hmake]
  exact ⟨hnext, hend⟩

end RoundTrip

end KwaqueStorage.Manifest
