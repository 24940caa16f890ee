import KwaqueStorage.SegmentRun.Run

/-!
# What a segment's writer appends

The objects of a segment file after its header, in file order: blocks back to back, and footers
between them. A block carries the layout its writer planned for it and the bytes it was encoded
to, and the codec checks those bytes, where they lie, to that layout. Over a stretch of such
objects `check_segment_run` finds exactly its blocks.
-/

namespace KwaqueStorage.SegmentRun

open Scan Extent

variable {codec : RunCodec} {history : History}

/-- The placement a segment's block is checked under. -/
def placement (history : History) (physical position : Nat) : BlockExpectation :=
  ⟨⟨history.segment, history.alignment, physical, position⟩, history.dataStart,
    { topic := history.segment.topic, range := history.segment.range }, history.profile⟩

/-- `segment_block_layout` with the bytes of its block: an envelope of a header and a body, the
    body a fixed part, the encoded batch and padding. -/
structure Laid (codec : RunCodec) (history : History) where
  records : Coverage
  headerBytes : Nat
  bodyBytes : Nat
  paddingBytes : Nat
  bytes : List UInt8
  encoded : bytes.length = headerBytes + bodyBytes
  body : segmentBlockFixedBytes + paddingBytes ≤ bodyBytes
  span : records.bytes.end_ = records.bytes.begin_ + bytes.length
  fits : records.physical.end_ ≤ u64Max
  written : (bytes.take envelopePrefixBytes).all (· = 0) = false
  peeked : codec.peekPrefix (bytes.take envelopePrefixBytes) = .ok bytes.length
  family : codec.family (bytes.take envelopePrefixBytes) = blockFamily
  checked : codec.checkBlock bytes
    (placement history records.physical.begin_ records.bytes.begin_)
      = .ok ⟨records, headerBytes + segmentBlockFixedBytes,
          bodyBytes - segmentBlockFixedBytes - paddingBytes⟩

/-- A footer's bytes. -/
structure LaidFooter (codec : RunCodec) where
  bytes : List UInt8
  written : (bytes.take envelopePrefixBytes).all (· = 0) = false
  peeked : codec.peekPrefix (bytes.take envelopePrefixBytes) = .ok bytes.length
  family : codec.family (bytes.take envelopePrefixBytes) = footerFamily
  crc : codec.headerCrc (bytes.take (Scan.headerBytes (bytes.take envelopePrefixBytes))) = true

/-- An object of a segment file. -/
inductive Obj (codec : RunCodec) (history : History)
  | block (laid : Laid codec history)
  | footer (laid : LaidFooter codec)

namespace Obj

def bytes : Obj codec history → List UInt8
  | .block laid => laid.bytes
  | .footer laid => laid.bytes

def laid? : Obj codec history → Option (Laid codec history)
  | .block laid => some laid
  | .footer _ => none

/-- Either kind of object begins with a prefix that says how long it is. -/
theorem peeked (o : Obj codec history) :
    (o.bytes.take envelopePrefixBytes).all (· = 0) = false
      ∧ codec.peekPrefix (o.bytes.take envelopePrefixBytes) = .ok o.bytes.length := by
  cases o with
  | block laid => exact ⟨laid.written, laid.peeked⟩
  | footer laid => exact ⟨laid.written, laid.peeked⟩

theorem header_le (o : Obj codec history) :
    envelopePrefixBytes ≤ Scan.headerBytes (o.bytes.take envelopePrefixBytes)
      ∧ Scan.headerBytes (o.bytes.take envelopePrefixBytes) ≤ o.bytes.length :=
  codec.extents _ _ o.peeked.2

theorem prefix_le (o : Obj codec history) : envelopePrefixBytes ≤ o.bytes.length :=
  o.header_le.1.trans o.header_le.2

end Obj

/-- The bytes of a stretch of objects. -/
def flat (objs : List (Obj codec history)) : List UInt8 := (objs.map Obj.bytes).flatten

@[simp] theorem flat_nil : flat ([] : List (Obj codec history)) = [] := rfl

@[simp] theorem flat_cons (o : Obj codec history) (rest : List (Obj codec history)) :
    flat (o :: rest) = o.bytes ++ flat rest := rfl

@[simp] theorem flat_append (a b : List (Obj codec history)) :
    flat (a ++ b) = flat a ++ flat b := by
  simp [flat]

/-- The blocks of a stretch. -/
def blocksOf (objs : List (Obj codec history)) : List (Laid codec history) :=
  objs.filterMap Obj.laid?

/-- **Objects appended one after another**: a block goes on where the last ended, in logical
    offsets, in records and in the file, and keeps every record. -/
def Continues : Nat → Nat → Nat → List (Obj codec history) → Prop
  | _, _, _, [] => True
  | logical, physical, position, .block laid :: rest =>
    laid.records.logical.begin_ = logical ∧ laid.records.physical.begin_ = physical
      ∧ laid.records.bytes.begin_ = position
      ∧ logical < laid.records.logical.end_ ∧ laid.records.logical.end_ ≤ noOffset
      ∧ laid.records.physical.end_ = physical + (laid.records.logical.end_ - logical)
      ∧ Continues laid.records.logical.end_ laid.records.physical.end_
        (position + laid.bytes.length) rest
  | logical, physical, position, .footer laid :: rest =>
    Continues logical physical (position + laid.bytes.length) rest

/-- Where a stretch that begins at an offset ends. -/
def logicalEnd (logical : Nat) (objs : List (Obj codec history)) : Nat :=
  ((blocksOf objs).getLast?.map fun laid => laid.records.logical.end_).getD logical

def physicalEnd (physical : Nat) (objs : List (Obj codec history)) : Nat :=
  ((blocksOf objs).getLast?.map fun laid => laid.records.physical.end_).getD physical

/-! ## The table of a stretch -/

/-- A block's row in a run that begins at `begin_`. -/
def Laid.row (begin_ : Nat) (laid : Laid codec history) : RunBlock :=
  { logical := laid.records.logical
    physical := laid.records.physical
    offset := laid.records.bytes.begin_ - begin_
    bytes := laid.bytes.length
    batchOffset := laid.headerBytes + segmentBlockFixedBytes
    batchBytes := laid.bodyBytes - segmentBlockFixedBytes - laid.paddingBytes
    part := 0 }

/-- A row less the part it lies in. -/
def RunBlock.described (row : RunBlock) : RunBlock := { row with part := 0 }

theorem bytesAt_append {a o rest : List UInt8} {n : Nat} (h : n ≤ o.length) :
    bytesAt (a ++ (o ++ rest)) a.length n = o.take n := by
  unfold bytesAt
  rw [List.drop_left, List.take_append_of_le_length h]

/-- What a walk that stands before an object reads of it, and what is left. -/
theorem standing {a o rest : List UInt8} {w : Walked} (hw : w.offset = a.length) :
    (∀ n ≤ o.length, bytesAt (a ++ (o ++ rest)) w.offset n = o.take n)
      ∧ (a ++ (o ++ rest)).length - w.offset = o.length + rest.length := by
  refine ⟨fun n hn => hw ▸ bytesAt_append hn, ?_⟩
  simp only [List.length_append, hw]
  omega

/-- A footer a walk stands at is passed over, except where a whole run should begin. -/
theorem objectAt_footer {start : RunStart} {whole : Bool} {a rest : List UInt8}
    (laid : LaidFooter codec) {w : Walked} (hw : w.offset = a.length)
    (hfirst : w.blocks = [] → whole = false) :
    objectAt codec history start whole (a ++ (laid.bytes ++ rest)) w
      = .ok (.footer laid.bytes.length) := by
  obtain ⟨hheader, hlength⟩ := codec.extents _ _ laid.peeked
  obtain ⟨hbytes, hremaining⟩ := @standing a laid.bytes rest w hw
  have hraw := hbytes _ (hheader.trans hlength)
  have hcrc := hbytes _ hlength
  have hnot : (w.blocks.isEmpty && whole) = false := by
    cases hb : w.blocks with
    | nil => simp [hfirst hb]
    | cons => rfl
  simp only [objectAt, hraw, hremaining, laid.written, laid.peeked]
  rw [if_neg (by omega), if_neg (by simp), if_neg (by omega), if_pos laid.family]
  simp only [headed, hraw, hremaining, hcrc, laid.crc, hnot]
  rw [if_neg (by omega)]
  rfl

/-- A block a walk stands at is the one its writer laid there. -/
theorem objectAt_block {start : RunStart} {whole : Bool} {a rest : List UInt8}
    (laid : Laid codec history) {w : Walked} (hw : w.offset = a.length)
    (hphysical : laid.records.physical.begin_ = w.physical)
    (hposition : laid.records.bytes.begin_ = start.position + w.offset)
    (hlogical : laid.records.logical.begin_ = w.logical)
    (hroom : w.blocks.length < maximumRunBlocks) :
    objectAt codec history start whole (a ++ (laid.bytes ++ rest)) w
      = .ok (.block laid.bytes.length ⟨laid.records, laid.headerBytes + segmentBlockFixedBytes,
          laid.bodyBytes - segmentBlockFixedBytes - laid.paddingBytes⟩) := by
  obtain ⟨hheader, hlength⟩ := codec.extents _ _ laid.peeked
  obtain ⟨hbytes, hremaining⟩ := @standing a laid.bytes rest w hw
  have hraw := hbytes _ (hheader.trans hlength)
  have hobject := hbytes _ le_rfl
  rw [List.take_length] at hobject
  have hchecked := laid.checked
  rw [hphysical, hposition] at hchecked
  simp only [objectAt, hraw, hremaining, laid.written, laid.peeked]
  rw [if_neg (by omega), if_neg (by simp), if_neg (by omega), if_neg (by rw [laid.family]; decide),
    if_neg (by simp [laid.family]), if_neg (by omega)]
  have hexpected : blockExpectation history start w
      = placement history w.physical (start.position + w.offset) := rfl
  simp only [hobject, hexpected, hchecked, hlogical]
  simp

/-! ## A stretch read back -/

@[simp] theorem blocksOf_nil : blocksOf ([] : List (Obj codec history)) = [] := rfl

@[simp] theorem blocksOf_block (laid : Laid codec history) (rest : List (Obj codec history)) :
    blocksOf (.block laid :: rest) = laid :: blocksOf rest := rfl

@[simp] theorem blocksOf_footer (laid : LaidFooter codec) (rest : List (Obj codec history)) :
    blocksOf (.footer laid :: rest) = blocksOf rest := rfl

@[simp] theorem blocksOf_append (a b : List (Obj codec history)) :
    blocksOf (a ++ b) = blocksOf a ++ blocksOf b := by
  simp [blocksOf]

section Turn

variable {start : RunStart} {whole : Bool} {bytes : List UInt8} {left : Nat} {w : Walked}

theorem walkRun_end (h : bytes.length ≤ w.offset) :
    walkRun codec history start whole bytes (left + 1) w = .ok (w, none) := if_pos h

theorem walkRun_footer (h : w.offset < bytes.length) {length : Nat}
    (hat : objectAt codec history start whole bytes w = .ok (.footer length)) :
    walkRun codec history start whole bytes (left + 1) w
      = walkRun codec history start whole bytes left { w with offset := w.offset + length } := by
  refine (if_neg (not_le.mpr h)).trans ?_
  simp only [hat]

theorem walkRun_block (h : w.offset < bytes.length) {length : Nat} {checked : CheckedBlock}
    (hat : objectAt codec history start whole bytes w = .ok (.block length checked)) :
    walkRun codec history start whole bytes (left + 1) w
      = walkRun codec history start whole bytes left
        ⟨w.blocks ++ [rowOf w.offset length checked], w.offset + length,
          checked.coverage.logical.end_, checked.coverage.physical.end_⟩ := by
  refine (if_neg (not_le.mpr h)).trans ?_
  simp only [hat]

end Turn

/-- What the codec says of a laid block. -/
def Laid.check (laid : Laid codec history) : CheckedBlock :=
  ⟨laid.records, laid.headerBytes + segmentBlockFixedBytes,
    laid.bodyBytes - segmentBlockFixedBytes - laid.paddingBytes⟩

theorem Laid.rowOf_check (laid : Laid codec history) {begin_ offset : Nat}
    (h : laid.records.bytes.begin_ = begin_ + offset) :
    rowOf offset laid.bytes.length laid.check = laid.row begin_ := by
  simp only [rowOf, Laid.check, Laid.row, h]
  rw [Nat.add_sub_cancel_left]

/-- **The walk over a stretch finds exactly its blocks.** The induction is on the objects that are
    left; what the walk has taken is the bytes before them. -/
theorem walkRun_objs {start : RunStart} {whole : Bool} {objs : List (Obj codec history)} :
    ∀ {left : Nat} {a : List UInt8} {w : Walked}, objs.length < left → w.offset = a.length →
      Continues w.logical w.physical (start.position + w.offset) objs →
      (w.blocks = [] → whole = true → ∀ laid rest, objs ≠ .footer laid :: rest) →
      w.blocks.length + (blocksOf objs).length ≤ maximumRunBlocks →
      ∃ logical physical, walkRun codec history start whole (a ++ flat objs) left w
        = .ok (⟨w.blocks ++ (blocksOf objs).map (Laid.row start.position),
            w.offset + (flat objs).length, logical, physical⟩, none) := by
  induction objs with
  | nil =>
    intro left a w hleft hw _ _ _
    obtain ⟨left, rfl⟩ := Nat.exists_eq_succ_of_ne_zero (Nat.ne_zero_of_lt hleft)
    refine ⟨w.logical, w.physical, ?_⟩
    rw [walkRun_end (by simp [hw])]
    simp
  | cons o rest ih =>
    intro left a w hleft hw hcont hfirst hroom
    obtain ⟨left, rfl⟩ := Nat.exists_eq_succ_of_ne_zero (Nat.ne_zero_of_lt hleft)
    have hfront := o.prefix_le
    have hfixed : envelopePrefixBytes = 32 := rfl
    have hmore : w.offset < (a ++ (o.bytes ++ flat rest)).length := by
      simp only [List.length_append, hw]
      omega
    have happ : a ++ (o.bytes ++ flat rest) = (a ++ o.bytes) ++ flat rest :=
      (List.append_assoc ..).symm
    have hoffset : w.offset + o.bytes.length = (a ++ o.bytes).length := by
      rw [List.length_append, hw]
    rw [flat_cons]
    cases o with
    | footer laid =>
      have hnot : w.blocks = [] → whole = false := by
        intro hb
        cases hwhole : whole with
        | false => rfl
        | true => exact absurd rfl (hfirst hb hwhole laid rest)
      rw [walkRun_footer hmore (objectAt_footer laid hw hnot), happ]
      have hcont' : Continues w.logical w.physical
          (start.position + (w.offset + laid.bytes.length)) rest := by
        rw [← Nat.add_assoc]
        exact hcont
      have hnot' : w.blocks = [] → whole = true → ∀ laid rest', rest ≠ .footer laid :: rest' :=
        fun hb hwhole => absurd (hnot hb) (by simp [hwhole])
      obtain ⟨logical, physical, hrec⟩ := @ih left (a ++ laid.bytes)
        { w with offset := w.offset + laid.bytes.length } (Nat.lt_of_succ_lt_succ hleft) hoffset
        hcont' hnot' hroom
      refine ⟨logical, physical, hrec.trans ?_⟩
      simp [Obj.bytes, Nat.add_assoc]
    | block laid =>
      obtain ⟨hl, hp, hb, _, _, _, hcont⟩ := hcont
      have hroom' : (w.blocks ++ [laid.row start.position]).length + (blocksOf rest).length
          ≤ maximumRunBlocks := by
        simp only [List.length_append, blocksOf_block, List.length_cons, List.length_nil] at hroom ⊢
        omega
      have hless : w.blocks.length < maximumRunBlocks := by
        simp only [List.length_append, List.length_singleton] at hroom'
        omega
      rw [walkRun_block hmore (objectAt_block laid hw hp hb hl hless), happ]
      have hrow := laid.rowOf_check hb
      simp only [Laid.check] at hrow
      rw [hrow]
      obtain ⟨logical, physical, hrec⟩ := @ih left (a ++ laid.bytes)
        ⟨w.blocks ++ [laid.row start.position], w.offset + laid.bytes.length,
          laid.records.logical.end_, laid.records.physical.end_⟩ (Nat.lt_of_succ_lt_succ hleft)
        hoffset (by rwa [← Nat.add_assoc]) (by simp) hroom'
      refine ⟨logical, physical, hrec.trans ?_⟩
      simp [Obj.bytes, Nat.add_assoc]

/-- A table goes into a run that has a part, as far as the run has room. -/
theorem Run.addBlocks_eq {rows : List RunBlock} :
    ∀ {run : Run}, run.parts ≠ [] → run.blocks.length + rows.length ≤ maximumRunBlocks →
      run.addBlocks rows = some { run with
        blocks := run.blocks ++ rows.map fun row => { row with part := run.parts.length - 1 } } := by
  induction rows with
  | nil =>
    intro run _ _
    simp [Run.addBlocks]
  | cons row rest ih =>
    intro run hparts hroom
    simp only [List.length_cons] at hroom
    have hadd : run.addBlock row = some { run with
        blocks := run.blocks ++ [{ row with part := run.parts.length - 1 }] } := by
      refine if_neg ?_
      rintro (h | h)
      · exact hparts h
      · omega
    simp only [Run.addBlocks, hadd, Option.bind_some]
    rw [ih (by exact hparts) (by simp only [List.length_append, List.length_singleton]; omega)]
    simp

/-- A table that goes in had room. -/
theorem Run.addBlocks_room {rows : List RunBlock} :
    ∀ {run run' : Run}, run.addBlocks rows = some run' → run.blocks.length ≤ maximumRunBlocks →
      run.blocks.length + rows.length ≤ maximumRunBlocks := by
  induction rows with
  | nil =>
    intro run run' _ hroom
    simpa using hroom
  | cons row rest ih =>
    intro run run' h hroom
    simp only [Run.addBlocks, Option.bind_eq_some_iff] at h
    obtain ⟨next, hnext, h⟩ := h
    unfold Run.addBlock at hnext
    split at hnext
    next => simp at hnext
    next hfree =>
      cases hnext
      have hlen := ih h (by
        simp only [List.length_append, List.length_singleton]
        have := (not_or.mp hfree).2
        omega)
      simp only [List.length_append, List.length_singleton] at hlen
      simp only [List.length_cons]
      omega

/-- The run of a stretch in one part. -/
def deviceRun (begin_ : Nat) (objs : List (Obj codec history)) : Run where
  begin_ := begin_
  size := (flat objs).length
  parts := [⟨0, flat objs⟩]
  blocks := (blocksOf objs).map (Laid.row begin_)

/-- **What `check_segment_run` makes of a stretch read back whole.** -/
theorem checkSegmentRun_objs {start : RunStart} {first : Laid codec history}
    {rest : List (Obj codec history)}
    (hcont : Continues start.base start.physical start.position (.block first :: rest))
    (hstart : history.dataStart ≤ start.position)
    (hroom : (blocksOf (.block first :: rest)).length ≤ maximumRunBlocks) :
    checkSegmentRun codec history start true (flat (.block first :: rest))
      = .ok ⟨deviceRun start.position (.block first :: rest), none⟩ := by
  have hlen : (Obj.block first :: rest).length ≤ (flat (.block first :: rest)).length := by
    have hall : ∀ objs : List (Obj codec history), objs.length ≤ (flat objs).length := by
      intro objs
      induction objs with
      | nil => simp
      | cons o objs ih =>
        have := o.prefix_le
        have hfixed : envelopePrefixBytes = 32 := rfl
        simp only [flat_cons, List.length_cons, List.length_append]
        omega
    exact hall _
  have hne : flat (.block first :: rest) ≠ [] := by
    intro h
    rw [h] at hlen
    simp at hlen
  obtain ⟨logical, physical, hwalk⟩ := @walkRun_objs codec history start true
    (.block first :: rest) ((flat (.block first :: rest)).length + 1) []
    ⟨[], 0, start.base, start.physical⟩ (by omega) rfl hcont (by simp) (by simpa using hroom)
  simp only [List.nil_append, Nat.zero_add] at hwalk
  unfold checkSegmentRun
  rw [if_neg (by
    rintro (h | h)
    · exact hne h
    · omega), hwalk]
  have hpart : ({ begin_ := start.position } : Run).addPart (flat (.block first :: rest))
      = some { begin_ := start.position, size := (flat (.block first :: rest)).length,
               parts := [⟨0, flat (.block first :: rest)⟩] } := by
    simp [Run.addPart, maximumRunParts]
  simp only [hpart, Option.bind_some]
  rw [Run.addBlocks_eq (by simp) (by simpa using hroom)]
  simp only [deviceRun, List.map_map]
  congr 1

end KwaqueStorage.SegmentRun
