import KwaqueStorage.Extent.Format
import KwaqueStorage.Lib.Checks

/-!
# Envelopes and their padding

Every stored object is an envelope: a header, fixed fields, a tail of entries or of a nested object,
and zero padding. A start-aligned object pads to a multiple of the alignment; an object placed inside
a write pads only where it ends a span, and then to the boundary after its end. The sizes are checked
against the policy of the codec and against what its owner allows, and every sum is refused before it
wraps.
-/

namespace KwaqueStorage.Layout

open Extent (u64Max)
open Lib

/-- `codec::limits_config`, as far as the layouts and their admission read it. The defaults are the
    ceilings. -/
structure LimitsConfig where
  maxAllocationBytes : Nat := 131072
  maxBufferFragments : Nat := 1024
  maxRecordBytes : Nat := 1048576
  maxRecordHeaders : Nat := 64
  maxHeaderNameBytes : Nat := 4096
  maxRecordHeaderBytes : Nat := 65536
  maxOriginalRecords : Nat := 4096
  maxBatchHeaders : Nat := 4096
  maxExpandedBatchBytes : Nat := 8388608
  maxMetadataBytes : Nat := 1048576
  maxEncodedBodyBytes : Nat := 16777216
  maxRetainedBytes : Nat := 33554432
  maxOperationBytes : Nat := 67108864
  maxHeaderBytes : Nat := 4096
  maxPageBytes : Nat := 65536
  maxObjectEntries : Nat := 65536
  maxObjectPages : Nat := 256
  maxWorkBytes : Nat := 65536
  maxWorkItems : Nat := 256
  deriving DecidableEq

/-- The ceilings of one configuration, in a fixed order. -/
def LimitsConfig.toList (c : LimitsConfig) : List Nat :=
  [c.maxAllocationBytes, c.maxBufferFragments, c.maxRecordBytes, c.maxRecordHeaders,
    c.maxHeaderNameBytes, c.maxRecordHeaderBytes, c.maxOriginalRecords, c.maxBatchHeaders,
    c.maxExpandedBatchBytes, c.maxMetadataBytes, c.maxEncodedBodyBytes, c.maxRetainedBytes,
    c.maxOperationBytes, c.maxHeaderBytes, c.maxPageBytes, c.maxObjectEntries, c.maxObjectPages,
    c.maxWorkBytes, c.maxWorkItems]

/-- What `limits::make` accepts: no ceiling is zero, and none passes the absolute one. -/
def LimitsConfig.valid (c : LimitsConfig) : Bool :=
  (c.toList.zip (LimitsConfig.toList {})).all fun (mine, most) => decide (0 < mine ∧ mine ≤ most)

/-- `codec::limits`. -/
structure Limits where
  config : LimitsConfig := {}
  valid : config.valid = true := by decide
  deriving DecidableEq

/-- No ceiling passes the absolute one. -/
theorem Limits.getD_le (policy : Limits) (index : Nat) :
    policy.config.toList.getD index 0 ≤ (LimitsConfig.toList {}).getD index 0 := by
  have h := policy.valid
  unfold LimitsConfig.valid at h
  rw [List.all_eq_true] at h
  rw [List.getD_eq_getElem?_getD, List.getD_eq_getElem?_getD]
  by_cases hlt : index < policy.config.toList.length
  · have hlt' : index < (LimitsConfig.toList {}).length := hlt
    have hzip := h _ (List.getElem_mem (by rw [List.length_zip]; exact Nat.lt_min.mpr ⟨hlt, hlt'⟩))
    rw [List.getElem_zip, decide_eq_true_eq] at hzip
    rw [List.getElem?_eq_getElem hlt, List.getElem?_eq_getElem hlt']
    exact hzip.2
  · rw [List.getElem?_eq_none (Nat.le_of_not_lt hlt)]
    exact Nat.zero_le _

theorem Limits.maxRecordBytes_le (policy : Limits) : policy.config.maxRecordBytes ≤ 1048576 :=
  policy.getD_le 2

theorem Limits.maxRecordHeaders_le (policy : Limits) : policy.config.maxRecordHeaders ≤ 64 :=
  policy.getD_le 3

theorem Limits.maxRecordHeaderBytes_le (policy : Limits) :
    policy.config.maxRecordHeaderBytes ≤ 65536 := policy.getD_le 5

theorem Limits.maxOriginalRecords_le (policy : Limits) : policy.config.maxOriginalRecords ≤ 4096 :=
  policy.getD_le 6

theorem Limits.maxPageBytes_le (policy : Limits) : policy.config.maxPageBytes ≤ 65536 :=
  policy.getD_le 14

theorem Limits.maxObjectEntries_le (policy : Limits) : policy.config.maxObjectEntries ≤ 65536 :=
  policy.getD_le 15

/-- `checked_add` of 64-bit amounts and positions. -/
def checkedAdd (a b : Nat) : Option Nat := if a + b ≤ u64Max then some (a + b) else none

theorem checkedAdd_eq_some {a b c : Nat} : checkedAdd a b = some c ↔ c = a + b ∧ a + b ≤ u64Max := by
  unfold checkedAdd
  split
  next h =>
    constructor
    · intro heq
      exact ⟨(Option.some.inj heq).symm, h⟩
    · rintro ⟨rfl, _⟩
      rfl
  next h =>
    constructor
    · exact nofun
    · rintro ⟨_, hle⟩
      exact absurd hle h

/-- `checked_add`, refused with `out_of_range`. -/
def addOr (a b : Nat) : Except Errc Nat :=
  match checkedAdd a b with
  | some c => .ok c
  | none => .error .outOfRange

theorem addOr_eq_ok {a b c : Nat} : addOr a b = .ok c ↔ c = a + b ∧ a + b ≤ u64Max := by
  rw [← checkedAdd_eq_some]
  unfold addOr
  cases checkedAdd a b with
  | none =>
    constructor
    · exact nofun
    · exact nofun
  | some d =>
    constructor
    · intro h
      cases h
      rfl
    · intro h
      cases h
      rfl

/-- `codec::envelope_prefix_bytes`. -/
def envelopePrefixBytes : Nat := 32

/-- `envelope_parts`. -/
structure EnvelopeParts where
  headerBytes : Nat
  fixedBodyBytes : Nat
  tailBytes : Nat
  deriving DecidableEq

/-- The bytes of the parts, before any padding. -/
def EnvelopeParts.bytes (parts : EnvelopeParts) : Nat :=
  parts.headerBytes + (parts.fixedBodyBytes + parts.tailBytes)

/-- `codec::envelope_extent_limits`. -/
structure ExtentLimits where
  maxBodyBytes : Nat
  maxEncodedBytes : Nat
  deriving DecidableEq

/-- What a page, a root and a footer may take. -/
def Limits.page (policy : Limits) : ExtentLimits :=
  ⟨policy.config.maxPageBytes, policy.config.maxPageBytes⟩

/-- `envelope_placement`. -/
inductive Placement
  | continues
  | endsSpan
  deriving DecidableEq

/-- `aligned_envelope_layout`. -/
structure AlignedLayout where
  headerBytes : Nat
  bodyBytes : Nat
  paddingBytes : Nat
  alignment : Nat
  position : Option Nat
  deriving DecidableEq

/-- `aligned_envelope_layout::encoded_bytes`. -/
def AlignedLayout.encodedBytes (layout : AlignedLayout) : Nat :=
  layout.headerBytes + layout.bodyBytes

/-- `validate_header`. -/
def validateHeader (bytes : Nat) (policy : Limits) : Except Errc Unit := do
  require (envelopePrefixBytes ≤ bytes) .invalidArgument
  require (bytes ≤ policy.config.maxHeaderBytes) .resourceExhausted
  pure ()

/-- `body_limit`. -/
def bodyLimit (policy : Limits) (owner : ExtentLimits) : Nat :=
  min policy.config.maxEncodedBodyBytes owner.maxBodyBytes

/-- `minimum_padding`. -/
def minimumPadding (bytes alignment : Nat) : Nat :=
  if bytes % alignment = 0 then 0 else alignment - bytes % alignment

/-- `end_padding`. -/
def endPadding (position unpadded alignment : Nat) : Except Errc Nat := do
  let bound ← addOr position unpadded
  let padding := minimumPadding bound alignment
  let _ ← addOr bound padding
  pure padding

/-- `aligned_envelope_layout::unpadded_bytes`. -/
def unpaddedBytes (parts : EnvelopeParts) (policy : Limits) : Except Errc Nat := do
  validateHeader parts.headerBytes policy
  let meaningful ← addOr parts.fixedBodyBytes parts.tailBytes
  addOr parts.headerBytes meaningful

/-- `aligned_envelope_layout::checked`. -/
def checked (parts : EnvelopeParts) (unpadded padding alignment : Nat) (policy : Limits)
    (owner : ExtentLimits) (position : Option Nat) : Except Errc AlignedLayout := do
  let encoded ← addOr unpadded padding
  let body := encoded - parts.headerBytes
  require (body ≤ bodyLimit policy owner ∧ encoded ≤ owner.maxEncodedBytes) .resourceExhausted
  pure { headerBytes := parts.headerBytes, bodyBytes := body, paddingBytes := padding,
         alignment, position }

/-- `aligned_envelope_layout::make` of a start-aligned object. -/
def AlignedLayout.make (parts : EnvelopeParts) (alignment : Nat) (policy : Limits)
    (owner : ExtentLimits) : Except Errc AlignedLayout := do
  let unpadded ← unpaddedBytes parts policy
  checked parts unpadded (minimumPadding unpadded alignment) alignment policy owner none

/-- The padding of an envelope placed inside a write. -/
def placedPadding (position unpadded alignment : Nat) : Placement → Except Errc Nat
  | .continues => .ok 0
  | .endsSpan => endPadding position unpadded alignment

/-- `aligned_envelope_layout::make` of an envelope at a position inside a write. -/
def AlignedLayout.place (parts : EnvelopeParts) (position : Nat) (placement : Placement)
    (alignment : Nat) (policy : Limits) (owner : ExtentLimits) : Except Errc AlignedLayout := do
  let unpadded ← unpaddedBytes parts policy
  let _ ← addOr position unpadded
  let padding ← placedPadding position unpadded alignment placement
  checked parts unpadded padding alignment policy owner (some position)

/-- Whether an object may lie at a position: its own, or for a start-aligned one any boundary. -/
def AlignedLayout.mayLieAt (layout : AlignedLayout) (position : Nat) : Bool :=
  match layout.position with
  | some own => decide (position = own)
  | none => decide (position % layout.alignment = 0)

/-- `aligned_envelope_layout::at`: the span of the object at a position it may lie at. -/
def AlignedLayout.spanAt (layout : AlignedLayout) (position : Nat) : Except Errc Span := do
  require (layout.mayLieAt position = true) .invalidArgument
  let bound ← addOr position layout.encodedBytes
  pure ⟨position, bound⟩

/-- `max_child_bytes` of a start-aligned object. -/
def maxChildBytes (headerBytes fixedBodyBytes alignment : Nat) (policy : Limits)
    (owner : ExtentLimits) : Except Errc Nat := do
  validateHeader headerBytes policy
  let fixed ← addOr headerBytes fixedBodyBytes
  let maximum ← addOr headerBytes (bodyLimit policy owner)
  let limit := min maximum owner.maxEncodedBytes
  let aligned := limit - limit % alignment
  require (fixed < aligned) .resourceExhausted
  pure (aligned - fixed)

/-! ## Boundaries -/

/-- The boundary at or after a place. -/
def alignUp (place alignment : Nat) : Nat := place + minimumPadding place alignment

section Boundaries

variable {place other alignment : Nat}

theorem le_alignUp : place ≤ alignUp place alignment := Nat.le_add_right _ _

theorem alignUp_mod (hpos : 0 < alignment) : alignUp place alignment % alignment = 0 := by
  unfold alignUp minimumPadding
  have hlt := Nat.mod_lt place hpos
  split
  next h => rw [Nat.add_zero, h]
  next h =>
    have hsum : place + (alignment - place % alignment)
        = alignment * (place / alignment + 1) := by
      have hdiv := Nat.div_add_mod place alignment
      rw [Nat.mul_add, Nat.mul_one]
      omega
    rw [hsum, Nat.mul_mod_right]

theorem alignUp_lt (hpos : 0 < alignment) : alignUp place alignment < place + alignment := by
  unfold alignUp minimumPadding
  have hlt := Nat.mod_lt place hpos
  split
  next => omega
  next => omega

/-- Two boundaries are at least one alignment apart. -/
theorem next_boundary_le (hplace : place % alignment = 0) (hother : other % alignment = 0)
    (hlt : place < other) : place + alignment ≤ other := by
  obtain ⟨j, hj⟩ := Nat.dvd_of_mod_eq_zero hplace
  obtain ⟨k, hk⟩ := Nat.dvd_of_mod_eq_zero hother
  rw [hj, hk] at hlt ⊢
  have hjk : j < k := Nat.lt_of_mul_lt_mul_left hlt
  have hstep : alignment * (j + 1) ≤ alignment * k := Nat.mul_le_mul_left _ hjk
  rwa [Nat.mul_add, Nat.mul_one] at hstep

/-- **No boundary lies between** a place and the one it is padded to. -/
theorem alignUp_le (hpos : 0 < alignment) (hother : other % alignment = 0) (hle : place ≤ other) :
    alignUp place alignment ≤ other := by
  by_contra hlt
  have hup := @alignUp_lt place alignment hpos
  have hstep := next_boundary_le hother (@alignUp_mod place alignment hpos) (not_le.mp hlt)
  omega

theorem alignUp_mono (hpos : 0 < alignment) (hle : place ≤ other) :
    alignUp place alignment ≤ alignUp other alignment :=
  alignUp_le hpos (alignUp_mod hpos) (hle.trans le_alignUp)

/-- The boundary at or after a place is within a bound exactly when the place is within the last boundary
    the bound reaches. -/
theorem alignUp_le_iff (hpos : 0 < alignment) :
    alignUp place alignment ≤ other ↔ place ≤ other / alignment * alignment := by
  constructor
  · intro hle
    obtain ⟨k, hk⟩ := Nat.dvd_of_mod_eq_zero (@alignUp_mod place alignment hpos)
    have hup := @le_alignUp place alignment
    have hk' : k ≤ other / alignment := by
      rw [Nat.le_div_iff_mul_le hpos, Nat.mul_comm, ← hk]
      exact hle
    have hmul := Nat.mul_le_mul_right alignment hk'
    rw [hk, Nat.mul_comm] at hup
    exact hup.trans hmul
  · intro hle
    exact (alignUp_le hpos (Nat.mul_mod_left _ _) hle).trans (Nat.div_mul_le_self _ _)

/-- The boundary at or after a place, by rounding down past it. -/
theorem alignUp_eq_div (hpos : 0 < alignment) :
    alignUp place alignment = (place + (alignment - 1)) / alignment * alignment := by
  refine le_antisymm ?_ ?_
  · refine alignUp_le hpos (Nat.mul_mod_left _ _) ?_
    have hlt := Nat.lt_div_mul_add hpos (a := place + (alignment - 1))
    omega
  · have hlt := @alignUp_lt place alignment hpos
    obtain ⟨k, hk⟩ := Nat.dvd_of_mod_eq_zero (@alignUp_mod place alignment hpos)
    have hup := @le_alignUp place alignment
    rw [hk] at hup ⊢
    have hdiv : (place + (alignment - 1)) / alignment ≤ k := by
      refine Nat.le_of_lt_succ ((Nat.div_lt_iff_lt_mul hpos).mpr ?_)
      rw [Nat.succ_mul, Nat.mul_comm]
      omega
    rw [Nat.mul_comm alignment k]
    exact Nat.mul_le_mul_right _ hdiv

/-- Whole units before a place move no boundary. -/
theorem alignUp_add (hother : other % alignment = 0) :
    alignUp (other + place) alignment = other + alignUp place alignment := by
  have hmod : (other + place) % alignment = place % alignment := by
    rw [Nat.add_mod, hother, Nat.zero_add, Nat.mod_mod]
  unfold alignUp minimumPadding
  rw [hmod]
  omega

end Boundaries

/-! ## What a layout that was made is -/

section Made

variable {parts : EnvelopeParts} {alignment position : Nat} {policy : Limits} {owner : ExtentLimits}
  {layout : AlignedLayout}

/-- What the parts of every layout keep. -/
def headerFits (bytes : Nat) (policy : Limits) : Prop :=
  envelopePrefixBytes ≤ bytes ∧ bytes ≤ policy.config.maxHeaderBytes

theorem validateHeader_eq_ok {bytes : Nat} {u : Unit} :
    validateHeader bytes policy = .ok u ↔ headerFits bytes policy := by
  unfold validateHeader headerFits
  simp only [bind_eq_ok, require_eq_ok, pure_eq_ok, exists_const, and_true]

theorem unpaddedBytes_eq_ok {n : Nat} :
    unpaddedBytes parts policy = .ok n
      ↔ headerFits parts.headerBytes policy ∧ parts.bytes ≤ u64Max ∧ n = parts.bytes := by
  unfold unpaddedBytes EnvelopeParts.bytes
  simp only [bind_eq_ok, validateHeader_eq_ok, addOr_eq_ok]
  constructor
  · rintro ⟨_, hheader, m, ⟨rfl, _⟩, rfl, hle⟩
    exact ⟨hheader, hle, rfl⟩
  · rintro ⟨hheader, hle, rfl⟩
    exact ⟨(), hheader, _, ⟨rfl, by omega⟩, rfl, hle⟩

theorem checked_eq_ok {padding : Nat} {place : Option Nat} :
    checked parts parts.bytes padding alignment policy owner place = .ok layout
      ↔ parts.bytes + padding ≤ u64Max
        ∧ parts.fixedBodyBytes + parts.tailBytes + padding ≤ bodyLimit policy owner
        ∧ parts.bytes + padding ≤ owner.maxEncodedBytes
        ∧ layout = ⟨parts.headerBytes, parts.fixedBodyBytes + parts.tailBytes + padding, padding,
            alignment, place⟩ := by
  have hbody : parts.bytes + padding - parts.headerBytes
      = parts.fixedBodyBytes + parts.tailBytes + padding := by
    unfold EnvelopeParts.bytes
    omega
  unfold checked
  simp only [bind_eq_ok, addOr_eq_ok, require_eq_ok, pure_eq_ok, exists_const]
  constructor
  · rintro ⟨n, ⟨rfl, hfit⟩, ⟨hlimit, hmost⟩, rfl⟩
    rw [hbody] at hlimit ⊢
    exact ⟨hfit, hlimit, hmost, rfl⟩
  · rintro ⟨hfit, hlimit, hmost, rfl⟩
    exact ⟨_, ⟨rfl, hfit⟩, ⟨by rwa [hbody], hmost⟩, by rw [hbody]⟩

/-- **A start-aligned layout** pads its parts to whole units, within the policy and its owner's
    limits. -/
theorem AlignedLayout.make_eq_ok :
    AlignedLayout.make parts alignment policy owner = .ok layout
      ↔ headerFits parts.headerBytes policy
        ∧ alignUp parts.bytes alignment ≤ u64Max
        ∧ parts.fixedBodyBytes + parts.tailBytes + minimumPadding parts.bytes alignment
            ≤ bodyLimit policy owner
        ∧ alignUp parts.bytes alignment ≤ owner.maxEncodedBytes
        ∧ layout = ⟨parts.headerBytes,
            parts.fixedBodyBytes + parts.tailBytes + minimumPadding parts.bytes alignment,
            minimumPadding parts.bytes alignment, alignment, none⟩ := by
  unfold AlignedLayout.make alignUp
  simp only [bind_eq_ok, unpaddedBytes_eq_ok]
  constructor
  · rintro ⟨n, ⟨hheader, _, rfl⟩, hchecked⟩
    exact ⟨hheader, checked_eq_ok.mp hchecked⟩
  · rintro ⟨hheader, hrest⟩
    exact ⟨_, ⟨hheader, by omega, rfl⟩, checked_eq_ok.mpr hrest⟩

theorem AlignedLayout.make_encodedBytes
    (h : AlignedLayout.make parts alignment policy owner = .ok layout) :
    layout.encodedBytes = alignUp parts.bytes alignment := by
  obtain ⟨_, _, _, _, rfl⟩ := AlignedLayout.make_eq_ok.mp h
  simp only [AlignedLayout.encodedBytes, alignUp, EnvelopeParts.bytes]
  omega

/-- **Parts within the child's room** have a layout. -/
theorem AlignedLayout.make_of_maxChildBytes {header fixed tail room : Nat} (hpos : 0 < alignment)
    (h : maxChildBytes header fixed alignment policy owner = .ok room) (htail : tail ≤ room) :
    ∃ layout, AlignedLayout.make ⟨header, fixed, tail⟩ alignment policy owner = .ok layout := by
  unfold maxChildBytes at h
  simp only [bind_eq_ok, validateHeader_eq_ok, addOr_eq_ok, require_eq_ok, exists_const,
    pure_eq_ok] at h
  obtain ⟨hheader, _, ⟨rfl, _⟩, _, ⟨rfl, hmaximum⟩, hroom, rfl⟩ := h
  generalize hlimit : min (header + bodyLimit policy owner) owner.maxEncodedBytes = limit at *
  have hbound := Nat.mod_le limit alignment
  have haligned : (limit - limit % alignment) % alignment = 0 := by
    rw [← Nat.div_add_mod limit alignment, Nat.mul_add_mod, Nat.mod_mod, Nat.add_sub_cancel,
      Nat.mul_mod_right]
  have hup : alignUp (header + (fixed + tail)) alignment ≤ limit - limit % alignment :=
    alignUp_le hpos haligned (by omega)
  have hsize : header + (fixed + tail) + minimumPadding (header + (fixed + tail)) alignment ≤ limit :=
    hup.trans (Nat.sub_le _ _)
  refine ⟨_, AlignedLayout.make_eq_ok.mpr ⟨hheader, ?_, ?_, ?_, rfl⟩⟩
  · exact hup.trans (by omega)
  · change fixed + tail + minimumPadding (header + (fixed + tail)) alignment ≤ bodyLimit policy owner
    omega
  · exact hup.trans (by omega)

theorem endPadding_eq_ok {unpadded padding : Nat} :
    endPadding position unpadded alignment = .ok padding
      ↔ alignUp (position + unpadded) alignment ≤ u64Max
        ∧ padding = minimumPadding (position + unpadded) alignment := by
  unfold endPadding alignUp
  simp only [bind_eq_ok, addOr_eq_ok, pure_eq_ok]
  constructor
  · rintro ⟨_, ⟨rfl, _⟩, _, ⟨rfl, hle⟩, rfl⟩
    exact ⟨hle, rfl⟩
  · rintro ⟨hle, rfl⟩
    exact ⟨_, ⟨rfl, by omega⟩, _, ⟨rfl, hle⟩, rfl⟩

/-- **An envelope that another follows** has no padding. -/
theorem AlignedLayout.place_continues_eq_ok :
    AlignedLayout.place parts position .continues alignment policy owner = .ok layout
      ↔ headerFits parts.headerBytes policy ∧ position + parts.bytes ≤ u64Max
        ∧ parts.fixedBodyBytes + parts.tailBytes ≤ bodyLimit policy owner
        ∧ parts.bytes ≤ owner.maxEncodedBytes
        ∧ layout = ⟨parts.headerBytes, parts.fixedBodyBytes + parts.tailBytes, 0, alignment,
            some position⟩ := by
  unfold AlignedLayout.place placedPadding
  simp only [bind_eq_ok, unpaddedBytes_eq_ok, addOr_eq_ok, Except.ok.injEq, exists_eq_left']
  constructor
  · rintro ⟨_, ⟨hheader, _, rfl⟩, _, ⟨rfl, hplace⟩, hchecked⟩
    obtain ⟨_, hrest⟩ := checked_eq_ok.mp hchecked
    exact ⟨hheader, hplace, hrest⟩
  · rintro ⟨hheader, hplace, hrest⟩
    exact ⟨_, ⟨hheader, by omega, rfl⟩, _, ⟨rfl, hplace⟩, checked_eq_ok.mpr ⟨by omega, hrest⟩⟩

/-- **An envelope that ends a span** pads to the boundary after it. -/
theorem AlignedLayout.place_endsSpan_eq_ok :
    AlignedLayout.place parts position .endsSpan alignment policy owner = .ok layout
      ↔ headerFits parts.headerBytes policy
        ∧ alignUp (position + parts.bytes) alignment ≤ u64Max
        ∧ parts.fixedBodyBytes + parts.tailBytes + minimumPadding (position + parts.bytes) alignment
            ≤ bodyLimit policy owner
        ∧ parts.bytes + minimumPadding (position + parts.bytes) alignment ≤ owner.maxEncodedBytes
        ∧ layout = ⟨parts.headerBytes,
            parts.fixedBodyBytes + parts.tailBytes
              + minimumPadding (position + parts.bytes) alignment,
            minimumPadding (position + parts.bytes) alignment, alignment, some position⟩ := by
  unfold AlignedLayout.place placedPadding
  simp only [bind_eq_ok, unpaddedBytes_eq_ok, addOr_eq_ok, endPadding_eq_ok]
  constructor
  · rintro ⟨_, ⟨hheader, _, rfl⟩, _, ⟨rfl, _⟩, _, ⟨hends, rfl⟩, hchecked⟩
    obtain ⟨_, hrest⟩ := checked_eq_ok.mp hchecked
    exact ⟨hheader, hends, hrest⟩
  · rintro ⟨hheader, hends, hrest⟩
    have hle : position + parts.bytes ≤ u64Max := le_alignUp.trans hends
    refine ⟨_, ⟨hheader, by omega, rfl⟩, _, ⟨rfl, hle⟩, _, ⟨hends, rfl⟩, checked_eq_ok.mpr ⟨?_, hrest⟩⟩
    unfold alignUp at hends
    omega

end Made

/-! ## The largest child -/

/-- What an envelope needs beside its child: one that ends a span may need padding too. -/
def besideChild (headerBytes fixedBodyBytes alignment : Nat) : Placement → Except Errc Nat
  | .continues => addOr headerBytes fixedBodyBytes
  | .endsSpan => do
    let fixed ← addOr headerBytes fixedBodyBytes
    addOr fixed (alignment - 1)

/-- `max_child_bytes` of an envelope at a position inside a write. -/
def maxChildBytesPlaced (headerBytes fixedBodyBytes : Nat) (placement : Placement) (alignment : Nat)
    (policy : Limits) (owner : ExtentLimits) : Except Errc Nat := do
  validateHeader headerBytes policy
  let fixed ← besideChild headerBytes fixedBodyBytes alignment placement
  let maximum ← addOr headerBytes (bodyLimit policy owner)
  let limit := min maximum owner.maxEncodedBytes
  require (fixed < limit) .resourceExhausted
  pure (limit - fixed)

/-- The most padding an envelope needs. -/
def Placement.most (alignment : Nat) : Placement → Nat
  | .continues => 0
  | .endsSpan => alignment - 1

section Children

variable {header fixed alignment most : Nat} {policy : Limits} {owner : ExtentLimits}

theorem maxChildBytes_eq_ok : maxChildBytes header fixed alignment policy owner = .ok most
    ↔ headerFits header policy ∧ header + bodyLimit policy owner ≤ u64Max
      ∧ ∃ limit, limit = min (header + bodyLimit policy owner) owner.maxEncodedBytes
        ∧ header + fixed < limit - limit % alignment
        ∧ most = limit - limit % alignment - (header + fixed) := by
  unfold maxChildBytes
  simp only [bind_eq_ok, validateHeader_eq_ok, addOr_eq_ok, require_eq_ok, exists_const, pure_eq_ok]
  constructor
  · rintro ⟨hheader, _, ⟨rfl, _⟩, _, ⟨rfl, hmaximum⟩, hroom, rfl⟩
    exact ⟨hheader, hmaximum, _, rfl, hroom, rfl⟩
  · rintro ⟨hheader, hmaximum, _, rfl, hroom, rfl⟩
    exact ⟨hheader, _, ⟨rfl, by omega⟩, _, ⟨rfl, hmaximum⟩, hroom, rfl⟩

/-- **The largest child of a start-aligned object**: a child has a layout exactly when it is no larger. -/
theorem make_iff_le_maxChildBytes (hpos : 0 < alignment)
    (h : maxChildBytes header fixed alignment policy owner = .ok most) (child : Nat) :
    (∃ layout, AlignedLayout.make ⟨header, fixed, child⟩ alignment policy owner = .ok layout)
      ↔ child ≤ most := by
  constructor
  · rintro ⟨layout, hlayout⟩
    obtain ⟨_, _, limit, hlimit, hroom, rfl⟩ := maxChildBytes_eq_ok.mp h
    obtain ⟨_, _, hbody, hencoded, _⟩ := AlignedLayout.make_eq_ok.mp hlayout
    have hup : alignUp (header + (fixed + child)) alignment ≤ limit := by
      unfold alignUp EnvelopeParts.bytes at *
      dsimp only at hbody hencoded ⊢
      omega
    rw [alignUp_le_iff hpos] at hup
    have hdown : limit / alignment * alignment = limit - limit % alignment := by
      have := Nat.div_add_mod limit alignment
      rw [Nat.mul_comm]
      omega
    omega
  · exact AlignedLayout.make_of_maxChildBytes hpos h

theorem maxChildBytesPlaced_eq_ok {placement : Placement} :
    maxChildBytesPlaced header fixed placement alignment policy owner = .ok most
      ↔ headerFits header policy ∧ header + bodyLimit policy owner ≤ u64Max
        ∧ header + fixed + placement.most alignment + most
            = min (header + bodyLimit policy owner) owner.maxEncodedBytes ∧ 0 < most := by
  unfold maxChildBytesPlaced
  simp only [bind_eq_ok, validateHeader_eq_ok, addOr_eq_ok, require_eq_ok, exists_const, pure_eq_ok]
  cases placement with
  | continues =>
    simp only [besideChild, Placement.most, addOr_eq_ok]
    constructor
    · rintro ⟨hheader, _, ⟨rfl, _⟩, _, ⟨rfl, hmaximum⟩, hroom, rfl⟩
      exact ⟨hheader, hmaximum, by omega⟩
    · rintro ⟨hheader, hmaximum, hmost⟩
      exact ⟨hheader, _, ⟨rfl, by omega⟩, _, ⟨rfl, hmaximum⟩, by omega, by omega⟩
  | endsSpan =>
    simp only [besideChild, Placement.most, bind_eq_ok, addOr_eq_ok]
    constructor
    · rintro ⟨hheader, _, ⟨_, ⟨rfl, _⟩, rfl, _⟩, _, ⟨rfl, hmaximum⟩, hroom, rfl⟩
      exact ⟨hheader, hmaximum, by omega⟩
    · rintro ⟨hheader, hmaximum, hmost⟩
      exact ⟨hheader, _, ⟨_, ⟨rfl, by omega⟩, rfl, by omega⟩, _, ⟨rfl, hmaximum⟩, by omega, by omega⟩

/-- **The largest child of an envelope that another follows.** -/
theorem place_continues_iff
    (h : maxChildBytesPlaced header fixed .continues alignment policy owner = .ok most)
    (position child : Nat) :
    (∃ layout, AlignedLayout.place ⟨header, fixed, child⟩ position .continues alignment policy owner
        = .ok layout)
      ↔ child ≤ most ∧ position + (header + (fixed + child)) ≤ u64Max := by
  obtain ⟨hheader, _, hmost, _⟩ := maxChildBytesPlaced_eq_ok.mp h
  simp only [Placement.most] at hmost
  simp only [AlignedLayout.place_continues_eq_ok, EnvelopeParts.bytes]
  constructor
  · rintro ⟨_, _, hplace, hbody, hencoded, _⟩
    exact ⟨by omega, hplace⟩
  · rintro ⟨hle, hplace⟩
    exact ⟨_, hheader, hplace, by omega, by omega, rfl⟩

/-- **A child of an envelope that ends a span**: whatever it is padded by, it has a layout. -/
theorem place_endsSpan_of_le (hpos : 0 < alignment)
    (h : maxChildBytesPlaced header fixed .endsSpan alignment policy owner = .ok most)
    (position child : Nat) (hchild : child ≤ most) :
    (∃ layout, AlignedLayout.place ⟨header, fixed, child⟩ position .endsSpan alignment policy owner
        = .ok layout)
      ↔ alignUp (position + (header + (fixed + child))) alignment ≤ u64Max := by
  obtain ⟨hheader, _, hmost, _⟩ := maxChildBytesPlaced_eq_ok.mp h
  simp only [Placement.most] at hmost
  have hpadding := @alignUp_lt (position + (header + (fixed + child))) alignment hpos
  unfold alignUp at hpadding
  simp only [AlignedLayout.place_endsSpan_eq_ok, EnvelopeParts.bytes]
  constructor
  · rintro ⟨_, _, hends, _⟩
    exact hends
  · intro hends
    exact ⟨_, hheader, hends, by omega, by omega, rfl⟩

/-- **The largest child.** A child of a start-aligned object, or of an envelope that another follows, has
    a layout exactly when it is no larger, and one of an envelope that ends a span when it is no larger: at
    every position from which the padded end is still a position. -/
theorem max_child_bytes (hpos : 0 < alignment) :
    (∀ most, maxChildBytes header fixed alignment policy owner = .ok most →
      ∀ child, (∃ layout, AlignedLayout.make ⟨header, fixed, child⟩ alignment policy owner = .ok layout)
        ↔ child ≤ most)
    ∧ (∀ most, maxChildBytesPlaced header fixed .continues alignment policy owner = .ok most →
      ∀ position child,
        (∃ layout, AlignedLayout.place ⟨header, fixed, child⟩ position .continues alignment policy owner
          = .ok layout)
        ↔ child ≤ most ∧ position + (header + (fixed + child)) ≤ u64Max)
    ∧ ∀ most, maxChildBytesPlaced header fixed .endsSpan alignment policy owner = .ok most →
      ∀ position, ∀ child ≤ most,
        ((∃ layout, AlignedLayout.place ⟨header, fixed, child⟩ position .endsSpan alignment policy owner
          = .ok layout)
        ↔ alignUp (position + (header + (fixed + child))) alignment ≤ u64Max) :=
  ⟨fun _ h => make_iff_le_maxChildBytes hpos h, fun _ h => place_continues_iff h,
    fun _ h => place_endsSpan_of_le hpos h⟩

/-- A page of 64 KiB with a header of 32 bytes and 8 fixed ones, in units of 4 KiB. -/
theorem max_child_bytes_page :
    (∃ layout, AlignedLayout.place ⟨32, 8, 61401⟩ 5000 .endsSpan 4096 {} ⟨65536, 65536⟩ = .ok layout)
    ∧ ¬∃ layout, AlignedLayout.place ⟨32, 8, 65497⟩ 5000 .continues 4096 {} ⟨65536, 65536⟩ = .ok layout := by
  have h := @max_child_bytes 32 8 4096 {} ⟨65536, 65536⟩ (by decide)
  constructor
  · exact (h.2.2 61401 (by decide) 5000 61401 (Nat.le_refl _)).mpr (by decide)
  · intro hlaid
    exact absurd ((h.2.1 65496 (by decide) 5000 65497).mp hlaid).1 (by decide)

/-- At the last position there is, no child has a layout, however small. -/
theorem no_child_at_the_last_position :
    maxChildBytesPlaced 32 8 .continues 4096 {} ⟨65536, 65536⟩ = .ok 65496
    ∧ AlignedLayout.place ⟨32, 8, 0⟩ u64Max .continues 4096 {} ⟨65536, 65536⟩ = .error .outOfRange
    ∧ maxChildBytesPlaced 32 8 .endsSpan 4096 {} ⟨65536, 65536⟩ = .ok 61401
    ∧ AlignedLayout.place ⟨32, 8, 0⟩ u64Max .endsSpan 4096 {} ⟨65536, 65536⟩ = .error .outOfRange := by
  decide

end Children

end KwaqueStorage.Layout
