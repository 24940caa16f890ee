import KwaqueStorage.Lib.Tiling
import KwaqueStorage.SegmentRun.Block
import KwaqueStorage.SegmentRun.Cut

/-!
# What a checked run holds

`check_segment_run` is given bytes that were read back and the start that led to them, and walks them
object by object. Said without the walk: objects lie one behind the other, each as long as its own prefix
names; an object that is passed is a footer whose header's checksum holds, or a block that passes its check
under the place it lies at and the records it begins with; and the blocks among them chain from the start.

A run that is accepted is such a stretch up to where no complete object follows, or where the table is
full. A stretch that cannot be gone on with, because of what lies next, is refused. `wrong_context`
says that the start was wrong rather than the bytes, and the walk says it of an object no block comes
before, once its header's checksum holds, and of a block once both do. A footer in front of that object
does not count: only a run that the cache keeps has to begin with a block.
-/

namespace KwaqueStorage.SegmentRun.Checked

open Scan Extent Layout Codec Lib
open RetryPages (load)

/-! ## A stretch of objects -/

/-- One object of a stretch: where it lies, and for a block what its check answered. -/
structure Passed where
  offset : Nat
  length : Nat
  block : Option CheckedBlock
  deriving DecidableEq

/-- The range of bytes an object takes. -/
def Passed.piece (o : Passed) : Nat × Nat := (o.offset, o.offset + o.length)

/-- The table's row of a block. -/
def Passed.row? (o : Passed) : Option RunBlock := o.block.map (rowOf o.offset o.length)

/-- The table of a stretch: its blocks, in file order. -/
def tableOf (objects : List Passed) : List RunBlock := objects.filterMap Passed.row?

/-- **Blocks that chain**: the first is the one the start names, a later one begins at the record the
    one before it ended at, and at or after its logical end. -/
def Chains (start : RunStart) (table : List RunBlock) : Prop :=
  (∀ first ∈ table.head?, first.logical.begin_ = start.base ∧ first.physical.begin_ = start.physical)
    ∧ table.IsChain fun before after =>
      after.physical.begin_ = before.physical.end_ ∧ before.logical.end_ ≤ after.logical.begin_

/-- The logical end of the last block, or the base the start names. -/
def logicalAfter (start : RunStart) (table : List RunBlock) : Nat :=
  (table.getLast?.map fun last => last.logical.end_).getD start.base

/-- Where the records of a next block begin. -/
def recordsAfter (start : RunStart) (table : List RunBlock) : Nat :=
  (table.getLast?.map fun last => last.physical.end_).getD start.physical

section Stretch

variable (digests : Digests) (policy : CodecLimits) (history : History) (start : RunStart)
  (bytes : List UInt8)

/-- **A complete object lies at a place**: a prefix that somebody wrote there, naming a length that the
    bytes have. -/
structure Lies (offset length : Nat) : Prop where
  front : offset + Scan.envelopePrefixBytes ≤ bytes.length
  written : (bytesAt bytes offset Scan.envelopePrefixBytes).all (· = 0) = false
  peeked : peekLength policy.toLimits (bytesAt bytes offset Scan.envelopePrefixBytes) = .ok length
  complete : offset + length ≤ bytes.length

/-- The family an object names. -/
def familyAt (offset length : Nat) : Nat := load (bytesAt bytes offset length) 4 2

/-- An object that may be passed where it lies. -/
def Passed.Sound (o : Passed) : Prop :=
  Lies policy bytes o.offset o.length ∧
    match o.block with
    | none => familyAt bytes o.offset o.length = footerFamily
        ∧ HeaderIntact digests (bytesAt bytes o.offset o.length)
    | some checked => familyAt bytes o.offset o.length = blockFamily
        ∧ checkSegmentBlock digests policy (bytesAt bytes o.offset o.length)
            (placement history checked.coverage.physical.begin_ (start.position + o.offset)) = .ok checked

/-- **A stretch of objects that may be passed**, from the first byte to an end. -/
structure Stretch (objects : List Passed) (end_ : Nat) : Prop where
  joined : Tiling.Joined 0 end_ (objects.map Passed.piece)
  sound : ∀ o ∈ objects, o.Sound digests policy history start bytes
  chains : Chains start (tableOf objects)

/-- **An object a stretch cannot go on with**: neither block nor footer, a footer or a foreign object
    whose header's checksum fails, a block that fails its check, or one that does not chain. -/
def Broken (objects : List Passed) (end_ length : Nat) : Prop :=
  let object := bytesAt bytes end_ length
  let expected := placement history (recordsAfter start (tableOf objects)) (start.position + end_)
  (familyAt bytes end_ length ≠ blockFamily ∧ familyAt bytes end_ length ≠ footerFamily)
    ∨ (familyAt bytes end_ length ≠ blockFamily ∧ ¬ HeaderIntact digests object)
    ∨ (familyAt bytes end_ length = blockFamily
      ∧ ∀ checked, checkSegmentBlock digests policy object expected ≠ .ok checked)
    ∨ (familyAt bytes end_ length = blockFamily
      ∧ ∃ checked, checkSegmentBlock digests policy object expected = .ok checked
        ∧ ¬ Chains start (tableOf objects ++ [rowOf end_ length checked]))

/-- **Where a run ends**: the bytes do, or, in a run that may end inside an object, the next object is
    not complete or the table is full and another block follows. -/
def Ends (whole : Bool) (run : CheckedRun) : Prop :=
  (run.cut = none ∧ run.run.size = bytes.length)
    ∨ (whole = false ∧ ∃ length, run.cut = some length ∧ bytes.length < run.run.size + length
      ∧ run.run.size + Scan.envelopePrefixBytes ≤ bytes.length
      ∧ peekLength policy.toLimits (bytesAt bytes run.run.size Scan.envelopePrefixBytes) = .ok length)
    ∨ (whole = false ∧ run.cut = none ∧ run.run.blocks.length = maximumRunBlocks
      ∧ ∃ length, Lies policy bytes run.run.size length
        ∧ familyAt bytes run.run.size length = blockFamily)

end Stretch

/-! ## What is read of an object -/

section Read

variable {digests : Digests} {policy : CodecLimits} {bytes : List UInt8} {offset length : Nat}

theorem load_bytesAt {place width : Nat} (h : place + width ≤ length) :
    load (bytesAt bytes offset length) place width = load bytes (offset + place) width := by
  unfold load RetryPages.field bytesAt
  rw [List.drop_take, List.take_take, min_eq_left (by omega), List.drop_drop]

theorem Lies.extents (h : Lies policy bytes offset length) :
    Scan.envelopePrefixBytes
        ≤ Scan.headerBytes (bytesAt bytes offset Scan.envelopePrefixBytes)
      ∧ Scan.headerBytes (bytesAt bytes offset Scan.envelopePrefixBytes) ≤ length :=
  peekLength_extents h.peeked

/-- The family a walk reads in the prefix is the object's. -/
theorem Lies.family (h : Lies policy bytes offset length) :
    (runCodec digests policy).family (bytesAt bytes offset Scan.envelopePrefixBytes)
      = familyAt bytes offset length := by
  have hextents := h.extents
  have hfixed : Scan.envelopePrefixBytes = 32 := rfl
  unfold familyAt
  rw [load_bytesAt (by omega)]
  exact load_bytesAt (by decide)

/-- The checksum a walk verifies is the object's. -/
theorem Lies.headerCrc (h : Lies policy bytes offset length) :
    (runCodec digests policy).headerCrc (bytesAt bytes offset
        (Scan.headerBytes (bytesAt bytes offset Scan.envelopePrefixBytes)))
      = decide (HeaderIntact digests (bytesAt bytes offset length)) := by
  have hextents := h.extents
  have hfixed : Scan.envelopePrefixBytes = 32 := rfl
  have hfront := h.front
  have hraw : Scan.headerBytes (bytesAt bytes offset Scan.envelopePrefixBytes)
      = load (bytesAt bytes offset length) 10 2 := by
    have hlen : (bytesAt bytes offset Scan.envelopePrefixBytes).length = 32 := length_bytesAt hfront
    rw [headerBytes_eq_load (by rw [hlen]; exact Nat.le_refl _), load_bytesAt (by decide),
      load_bytesAt (by omega)]
  have hheader : bytesAt bytes offset (load (bytesAt bytes offset length) 10 2)
      = (bytesAt bytes offset length).take (load (bytesAt bytes offset length) 10 2) := by
    unfold bytesAt
    rw [List.take_take, min_eq_left]
    rw [hraw] at hextents
    exact hextents.2
  rw [hraw, hheader]
  rfl

end Read

/-! ## What a walk makes of an object -/

section Turn

variable {digests : Digests} {policy : CodecLimits} {history : History} {start : RunStart} {whole : Bool}
  {bytes : List UInt8} {w : Walked} {length : Nat}

theorem headed_lies {refusal : Option Errc} {n : Nat} (h : Lies policy bytes w.offset length) :
    headed (runCodec digests policy) whole bytes w refusal n
      = if HeaderIntact digests (bytesAt bytes w.offset length) then
          match refusal with
          | some why => .error (objectError why w.blocks.isEmpty)
          | none => if w.blocks.isEmpty && whole then .error .wrongContext else .ok (.footer n)
        else .error .corruptData := by
  have hextents := h.extents
  have hcomplete := h.complete
  unfold headed
  simp only
  rw [if_neg (by omega), h.headerCrc]
  by_cases hintact : HeaderIntact digests (bytesAt bytes w.offset length)
  · have hpassed : ¬decide (HeaderIntact digests (bytesAt bytes w.offset length)) = false := by
      simpa using hintact
    cases refusal with
    | none => exact (if_neg hpassed).trans (if_pos hintact).symm
    | some why => exact (if_neg hpassed).trans (if_pos hintact).symm
  · rw [if_pos (by simpa using hintact), if_neg hintact]

/-- **The turn of a complete object**, by its family. -/
theorem objectAt_lies (h : Lies policy bytes w.offset length) :
    objectAt (runCodec digests policy) history start whole bytes w
      = if familyAt bytes w.offset length = footerFamily then
          headed (runCodec digests policy) whole bytes w none length
        else if familyAt bytes w.offset length ≠ blockFamily then
          headed (runCodec digests policy) whole bytes w (some .wrongContext) 0
        else if w.blocks.length = maximumRunBlocks then
          if whole then .error .outOfRange else .ok (.stop none)
        else
          match checkSegmentBlock digests policy (bytesAt bytes w.offset length)
            (placement history w.physical (start.position + w.offset)) with
          | .error why => .error (objectError why w.blocks.isEmpty)
          | .ok checked =>
            if (if w.blocks.isEmpty then checked.coverage.logical.begin_ ≠ w.logical
                else checked.coverage.logical.begin_ < w.logical) then
              .error (objectError .wrongContext w.blocks.isEmpty)
            else .ok (.block length checked) := by
  have hfront := h.front
  have hcomplete := h.complete
  have hpeeked : (runCodec digests policy).peekPrefix
      (bytesAt bytes w.offset Scan.envelopePrefixBytes) = .ok length := h.peeked
  unfold objectAt
  simp only [h.written, hpeeked, h.family]
  rw [if_neg (by omega), if_neg (by simp), if_neg (by omega)]
  rfl

theorem objectError_ne {code : Errc} {first : Bool} (h : code ≠ .wrongContext) :
    objectError code first ≠ .wrongContext := by
  cases code <;> first | exact absurd rfl h | exact nofun

theorem headed_plain {codec : RunCodec} {why : Errc} {n : Nat} (h : why ≠ .wrongContext) :
    ∃ code, headed codec whole bytes w (some why) n = .error code ∧ code ≠ .wrongContext := by
  unfold headed
  simp only
  split
  next => exact ⟨_, rfl, by decide⟩
  next =>
    split
    next => exact ⟨_, rfl, by decide⟩
    next => exact ⟨_, rfl, objectError_ne h⟩

theorem peekLength_plain {limits : Limits} {raw : List UInt8} {why : PrefixError}
    (h : peekLength limits raw = .error why) : why.code ≠ .wrongContext := by
  unfold peekLength at h
  cases hpeek : peekEnvelopePrefix raw limits (blockLimits limits) .complete with
  | ok found =>
    rw [hpeek] at h
    cases h
  | error code =>
    rw [hpeek] at h
    cases h
    exact plain_peek code hpeek

/-- **The turn where no complete object lies**: the walk stops at one that is not complete, or refuses,
    and not for the context. -/
theorem objectAt_not_lies (h : ∀ length, ¬ Lies policy bytes w.offset length) :
    (∃ code, objectAt (runCodec digests policy) history start whole bytes w = .error code
        ∧ code ≠ .wrongContext)
      ∨ (whole = false ∧ ∃ length, bytes.length < w.offset + length
        ∧ w.offset + Scan.envelopePrefixBytes ≤ bytes.length
        ∧ peekLength policy.toLimits (bytesAt bytes w.offset Scan.envelopePrefixBytes) = .ok length
        ∧ objectAt (runCodec digests policy) history start whole bytes w
          = .ok (.stop (some length))) := by
  by_cases hshort : bytes.length - w.offset < Scan.envelopePrefixBytes
  · exact .inl ⟨.malformedData, if_pos hshort, by decide⟩
  have hfixed : Scan.envelopePrefixBytes = 32 := rfl
  have hfront : w.offset + Scan.envelopePrefixBytes ≤ bytes.length := by omega
  cases hzero : (bytesAt bytes w.offset Scan.envelopePrefixBytes).all (· = 0) with
  | true =>
    refine .inl ⟨.malformedData, ?_, by decide⟩
    exact (if_neg hshort).trans (if_pos hzero)
  | false =>
    have hturn : objectAt (runCodec digests policy) history start whole bytes w = _ :=
      (if_neg hshort).trans (if_neg (by rw [hzero]; decide))
    cases hpeek : peekLength policy.toLimits (bytesAt bytes w.offset Scan.envelopePrefixBytes) with
    | error why =>
      left
      rw [hturn]
      simp only [show (runCodec digests policy).peekPrefix _ = _ from hpeek]
      split
      next => exact ⟨_, rfl, by decide⟩
      next => exact headed_plain (peekLength_plain hpeek)
    | ok length =>
      have hlong : bytes.length < w.offset + length := by
        by_contra hle
        exact h length ⟨hfront, hzero, hpeek, not_lt.mp hle⟩
      have hpast : length > bytes.length - w.offset := by omega
      rw [hturn]
      simp only [show (runCodec digests policy).peekPrefix _ = _ from hpeek, if_pos hpast]
      cases whole with
      | true =>
        obtain ⟨code, hcode, hne⟩ :=
          @headed_plain true bytes w (runCodec digests policy) .malformedData 0 (by decide)
        exact .inl ⟨code, hcode, hne⟩
      | false => exact .inr ⟨rfl, length, hlong, hfront, rfl, rfl⟩

end Turn

/-! ## Going on with a stretch -/

section Next

variable {digests : Digests} {policy : CodecLimits} {history : History} {start : RunStart} {whole : Bool}
  {bytes : List UInt8} {objects : List Passed} {w : Walked} {length : Nat}

@[simp] theorem tableOf_append {more : List Passed} :
    tableOf (objects ++ more) = tableOf objects ++ tableOf more := List.filterMap_append

@[simp] theorem tableOf_footer {offset : Nat} : tableOf [⟨offset, length, none⟩] = [] := rfl

@[simp] theorem tableOf_block {offset : Nat} {checked : CheckedBlock} :
    tableOf [⟨offset, length, some checked⟩] = [rowOf offset length checked] := rfl

/-- What the walk asks of a next block is that the table chains with it. -/
theorem chains_snoc {table : List RunBlock} {row : RunBlock} :
    Chains start (table ++ [row]) ↔ Chains start table
      ∧ row.physical.begin_ = recordsAfter start table
      ∧ if table = [] then row.logical.begin_ = start.base
        else logicalAfter start table ≤ row.logical.begin_ := by
  unfold Chains recordsAfter logicalAfter
  rw [List.isChain_append]
  rcases List.eq_nil_or_concat table with rfl | ⟨front, last, rfl⟩
  · simp
    exact and_comm
  · rw [if_neg (by simp)]
    simp only [List.concat_eq_append, List.getLast?_append, List.getLast?_singleton, Option.some_or,
      Option.map_some, Option.getD_some, List.head?_append, List.head?_cons, Option.mem_def,
      Option.some.injEq, forall_eq', List.isChain_singleton, true_and]
    cases hfront : front.head? with
    | none => simp [and_assoc]
    | some first => simp [and_assoc]

/-- **Where a walk stands**: it has passed a stretch, and knows where the last block of it ended. -/
structure Stands (digests : Digests) (policy : CodecLimits) (history : History) (start : RunStart)
    (whole : Bool) (bytes : List UInt8) (objects : List Passed) (w : Walked) : Prop where
  stretch : Stretch digests policy history start bytes objects w.offset
  table : w.blocks = tableOf objects
  logical : w.logical = logicalAfter start (tableOf objects)
  physical : w.physical = recordsAfter start (tableOf objects)
  room : w.blocks.length ≤ maximumRunBlocks
  fits : w.offset ≤ bytes.length
  begins : whole = true → ∀ first ∈ objects.head?, first.block.isSome = true

/-- The object a `wrong_context` is said of: no block comes before it, and it is what its checksums say. -/
def Misplaced (digests : Digests) (policy : CodecLimits) (history : History) (start : RunStart)
    (whole : Bool) (bytes : List UInt8) : Prop :=
  ∃ objects end_ length, Stretch digests policy history start bytes objects end_ ∧ tableOf objects = []
    ∧ (whole = true → objects = []) ∧ Lies policy bytes end_ length
    ∧ HeaderIntact digests (bytesAt bytes end_ length)
    ∧ (familyAt bytes end_ length = blockFamily → BodyIntact digests (bytesAt bytes end_ length))
    ∧ (familyAt bytes end_ length = footerFamily → whole = true)

theorem Stands.initial :
    Stands digests policy history start whole bytes [] ⟨[], 0, start.base, start.physical⟩ where
  stretch :=
    { joined := rfl
      sound := fun _ h => nomatch h
      chains := ⟨fun _ h => (nomatch h), List.isChain_nil⟩ }
  table := rfl
  logical := rfl
  physical := rfl
  room := Nat.zero_le _
  fits := Nat.zero_le _
  begins := fun _ _ h => nomatch h

/-- A stretch goes on with an object that may be passed and leaves the table chained. -/
theorem Stretch.snoc {end_ : Nat} {block : Option CheckedBlock}
    (h : Stretch digests policy history start bytes objects end_)
    (hsound : Passed.Sound digests policy history start bytes ⟨end_, length, block⟩)
    (hchains : Chains start (tableOf (objects ++ [⟨end_, length, block⟩]))) :
    Stretch digests policy history start bytes (objects ++ [⟨end_, length, block⟩])
      (end_ + length) where
  joined := by
    rw [List.map_append]
    exact Tiling.joined_append.mpr ⟨end_, h.joined, rfl, rfl⟩
  sound := by
    intro o hmem
    rcases List.mem_append.mp hmem with hmem | hmem
    · exact h.sound o hmem
    · rw [List.mem_singleton.mp hmem]
      exact hsound
  chains := hchains

/-- Only a stretch that has a block in it may be gone on with by a footer, where a run is kept. -/
theorem begins_snoc {o : Passed} (h : whole = true → ∀ first ∈ objects.head?, first.block.isSome = true)
    (ho : whole = true → objects = [] → o.block.isSome = true) :
    whole = true → ∀ first ∈ (objects ++ [o]).head?, first.block.isSome = true := by
  intro hwhole first hfirst
  cases objects with
  | nil =>
    cases hfirst
    exact ho hwhole rfl
  | cons head rest => exact h hwhole first hfirst

theorem Stands.footer (h : Stands digests policy history start whole bytes objects w)
    (hlies : Lies policy bytes w.offset length) (hfamily : familyAt bytes w.offset length = footerFamily)
    (hintact : HeaderIntact digests (bytesAt bytes w.offset length))
    (hfirst : w.blocks = [] → whole = false) :
    Stands digests policy history start whole bytes (objects ++ [⟨w.offset, length, none⟩])
      { w with offset := w.offset + length } := by
  have htable : tableOf (objects ++ [⟨w.offset, length, none⟩]) = tableOf objects := by simp
  refine ⟨h.stretch.snoc ⟨hlies, hfamily, hintact⟩ (by rw [htable]; exact h.stretch.chains), ?_, ?_, ?_,
    h.room, hlies.complete, begins_snoc h.begins ?_⟩
  · rw [htable]
    exact h.table
  · rw [htable]
    exact h.logical
  · rw [htable]
    exact h.physical
  · intro hwhole hnone
    have hblocks : w.blocks = [] := by
      rw [h.table, hnone]
      rfl
    rw [hfirst hblocks] at hwhole
    cases hwhole

theorem Stands.block {checked : CheckedBlock}
    (h : Stands digests policy history start whole bytes objects w)
    (hlies : Lies policy bytes w.offset length) (hfamily : familyAt bytes w.offset length = blockFamily)
    (hroom : w.blocks.length < maximumRunBlocks)
    (hcheck : checkSegmentBlock digests policy (bytesAt bytes w.offset length)
      (placement history w.physical (start.position + w.offset)) = .ok checked)
    (hbegins : ¬ if w.blocks.isEmpty then checked.coverage.logical.begin_ ≠ w.logical
      else checked.coverage.logical.begin_ < w.logical) :
    Stands digests policy history start whole bytes (objects ++ [⟨w.offset, length, some checked⟩])
      ⟨w.blocks ++ [rowOf w.offset length checked], w.offset + length, checked.coverage.logical.end_,
        checked.coverage.physical.end_⟩ := by
  obtain ⟨_, _, hphysical, _⟩ := checkSegmentBlock_settles.of_ok hcheck
  have hplace : checked.coverage.physical.begin_ = w.physical := hphysical
  have htable : tableOf (objects ++ [⟨w.offset, length, some checked⟩])
      = tableOf objects ++ [rowOf w.offset length checked] := by simp
  have hlast : (tableOf objects ++ [rowOf w.offset length checked]).getLast?
      = some (rowOf w.offset length checked) := List.getLast?_concat
  have hchains : Chains start (tableOf objects ++ [rowOf w.offset length checked]) := by
    refine chains_snoc.mpr ⟨h.stretch.chains, hplace.trans h.physical, ?_⟩
    rw [h.table, h.logical] at hbegins
    cases htab : tableOf objects with
    | nil =>
      rw [htab] at hbegins
      simpa [logicalAfter, rowOf] using hbegins
    | cons head rest =>
      rw [htab] at hbegins
      simpa [rowOf] using hbegins
  refine ⟨h.stretch.snoc ⟨hlies, hfamily, ?_⟩ (by rw [htable]; exact hchains), ?_, ?_, ?_, ?_,
    hlies.complete, begins_snoc h.begins fun _ _ => rfl⟩
  · show checkSegmentBlock digests policy _ (placement history checked.coverage.physical.begin_ _) = _
    rw [hplace]
    exact hcheck
  · rw [htable, ← h.table]
  · rw [htable, logicalAfter, hlast]
    rfl
  · rw [htable, recordsAfter, hlast]
    rfl
  · rw [List.length_append]
    exact hroom

/-- What one turn of a walk that stands at the end of a stretch may come to. -/
def Turned (digests : Digests) (policy : CodecLimits) (history : History) (start : RunStart)
    (whole : Bool) (bytes : List UInt8) (objects : List Passed) (w : Walked) : Except Errc Object → Prop
  | .error code => code = .wrongContext → Misplaced digests policy history start whole bytes
  | .ok (.stop cut) => whole = false ∧
      ((∃ length, cut = some length ∧ bytes.length < w.offset + length
        ∧ w.offset + Scan.envelopePrefixBytes ≤ bytes.length
        ∧ peekLength policy.toLimits (bytesAt bytes w.offset Scan.envelopePrefixBytes) = .ok length)
      ∨ (cut = none ∧ w.blocks.length = maximumRunBlocks
        ∧ ∃ length, Lies policy bytes w.offset length ∧ familyAt bytes w.offset length = blockFamily))
  | .ok (.footer length) =>
      Stands digests policy history start whole bytes (objects ++ [⟨w.offset, length, none⟩])
        { w with offset := w.offset + length } ∧ 0 < length
  | .ok (.block length checked) =>
      Stands digests policy history start whole bytes (objects ++ [⟨w.offset, length, some checked⟩])
        ⟨w.blocks ++ [rowOf w.offset length checked], w.offset + length,
          checked.coverage.logical.end_, checked.coverage.physical.end_⟩ ∧ 0 < length

theorem Lies.pos {offset : Nat} (h : Lies policy bytes offset length) : 0 < length := by
  have hextents := h.extents
  have hfixed : Scan.envelopePrefixBytes = 32 := rfl
  omega

/-- What is said of the context is said of the object at hand, and no block came before it. -/
theorem Stands.misplaced (h : Stands digests policy history start whole bytes objects w)
    (hlies : Lies policy bytes w.offset length) (hfirst : w.blocks.isEmpty = true)
    (hheader : HeaderIntact digests (bytesAt bytes w.offset length))
    (hbody : familyAt bytes w.offset length = blockFamily →
      BodyIntact digests (bytesAt bytes w.offset length))
    (hfooter : familyAt bytes w.offset length = footerFamily → whole = true) :
    Misplaced digests policy history start whole bytes := by
  have hnone : tableOf objects = [] := by
    rw [← h.table]
    exact List.isEmpty_iff.mp hfirst
  refine ⟨objects, w.offset, length, h.stretch, hnone, ?_, hlies, hheader, hbody, hfooter⟩
  intro hwhole
  cases objects with
  | nil => rfl
  | cons head rest =>
    have hsome := h.begins hwhole head rfl
    cases hblock : head.block with
    | none =>
      rw [hblock] at hsome
      cases hsome
    | some checked => simp [tableOf, Passed.row?, hblock] at hnone

/-- Another context is what a walk may answer only as long as it has no block. -/
theorem isEmpty_of_objectError {first : Bool} (h : objectError .wrongContext first = .wrongContext) :
    first = true := by
  cases first with
  | true => rfl
  | false => cases h

theorem Stands.turn_footer (h : Stands digests policy history start whole bytes objects w)
    (hlies : Lies policy bytes w.offset length)
    (hfooter : familyAt bytes w.offset length = footerFamily) :
    Turned digests policy history start whole bytes objects w
      (objectAt (runCodec digests policy) history start whole bytes w) := by
  rw [objectAt_lies hlies, if_pos hfooter, headed_lies hlies]
  by_cases hintact : HeaderIntact digests (bytesAt bytes w.offset length)
  · rw [if_pos hintact]
    dsimp only
    cases hfirst : w.blocks.isEmpty && whole with
    | true =>
      rw [if_pos rfl]
      obtain ⟨hempty, hwhole⟩ := Bool.and_eq_true_iff.mp hfirst
      intro _
      refine h.misplaced hlies hempty hintact (fun hblock => ?_) fun _ => hwhole
      rw [hfooter] at hblock
      cases hblock
    | false =>
      rw [if_neg (by decide)]
      refine ⟨h.footer hlies hfooter hintact fun hnone => ?_, hlies.pos⟩
      simpa [hnone] using hfirst
  · rw [if_neg hintact]
    exact nofun

theorem Stands.turn_foreign (h : Stands digests policy history start whole bytes objects w)
    (hlies : Lies policy bytes w.offset length)
    (hfooter : familyAt bytes w.offset length ≠ footerFamily)
    (hblock : familyAt bytes w.offset length ≠ blockFamily) :
    Turned digests policy history start whole bytes objects w
      (objectAt (runCodec digests policy) history start whole bytes w) := by
  rw [objectAt_lies hlies, if_neg hfooter, if_pos hblock, headed_lies hlies]
  by_cases hintact : HeaderIntact digests (bytesAt bytes w.offset length)
  · rw [if_pos hintact]
    intro hcode
    exact h.misplaced hlies (isEmpty_of_objectError hcode) hintact (fun heq => absurd heq hblock)
      fun heq => absurd heq hfooter
  · rw [if_neg hintact]
    exact nofun

theorem Stands.turn_block (h : Stands digests policy history start whole bytes objects w)
    (hlies : Lies policy bytes w.offset length)
    (hblock : familyAt bytes w.offset length = blockFamily) :
    Turned digests policy history start whole bytes objects w
      (objectAt (runCodec digests policy) history start whole bytes w) := by
  have hfooter : familyAt bytes w.offset length ≠ footerFamily := by
    rw [hblock]
    decide
  rw [objectAt_lies hlies, if_neg hfooter, if_neg (not_not.mpr hblock)]
  by_cases hfull : w.blocks.length = maximumRunBlocks
  · rw [if_pos hfull]
    cases whole with
    | true => exact nofun
    | false => exact ⟨rfl, .inr ⟨rfl, hfull, length, hlies, hblock⟩⟩
  rw [if_neg hfull]
  have hroom : w.blocks.length < maximumRunBlocks := Nat.lt_of_le_of_ne h.room hfull
  -- whichever check says so, both checksums held before it did
  have hwrong : HeaderIntact digests (bytesAt bytes w.offset length) ∧
      BodyIntact digests (bytesAt bytes w.offset length) →
      objectError .wrongContext w.blocks.isEmpty = .wrongContext →
      Misplaced digests policy history start whole bytes := by
    intro hintact hcode
    exact h.misplaced hlies (isEmpty_of_objectError hcode) hintact.1 (fun _ => hintact.2)
      fun heq => absurd heq hfooter
  cases hcheck : checkSegmentBlock digests policy (bytesAt bytes w.offset length)
      (placement history w.physical (start.position + w.offset)) with
  | error why =>
    intro hcode
    by_cases hwhy : why = .wrongContext
    · subst hwhy
      exact hwrong (checkSegmentBlock_settles.of_error hcheck rfl) hcode
    · exact absurd hcode (objectError_ne hwhy)
  | ok checked =>
    dsimp only
    by_cases hbegins : if w.blocks.isEmpty then checked.coverage.logical.begin_ ≠ w.logical
        else checked.coverage.logical.begin_ < w.logical
    · rw [if_pos hbegins]
      exact hwrong (checkSegmentBlock_settles.of_ok hcheck).1
    · rw [if_neg hbegins]
      exact ⟨h.block hlies hblock hroom hcheck hbegins, hlies.pos⟩

/-- **One turn of a walk** that stands at the end of a stretch. -/
theorem Stands.turn (h : Stands digests policy history start whole bytes objects w) :
    Turned digests policy history start whole bytes objects w
      (objectAt (runCodec digests policy) history start whole bytes w) := by
  by_cases hlies : ∃ length, Lies policy bytes w.offset length
  · obtain ⟨length, hlies⟩ := hlies
    by_cases hfooter : familyAt bytes w.offset length = footerFamily
    · exact h.turn_footer hlies hfooter
    · by_cases hblock : familyAt bytes w.offset length = blockFamily
      · exact h.turn_block hlies hblock
      · exact h.turn_foreign hlies hfooter hblock
  · rcases @objectAt_not_lies digests policy history start whole bytes w (not_exists.mp hlies) with
      ⟨code, hat, hne⟩ | ⟨hwhole, length, hlong, hfront, hpeek, hat⟩
    · rw [hat]
      exact fun hcode => absurd hcode hne
    · rw [hat]
      exact ⟨hwhole, .inl ⟨length, rfl, hlong, hfront, hpeek⟩⟩

end Next

/-! ## The walk -/

section Walk

variable {digests : Digests} {policy : CodecLimits} {history : History} {start : RunStart} {whole : Bool}
  {bytes : List UInt8} {objects : List Passed} {w : Walked} {length end_ : Nat}

/-- **A walk passes a stretch**, up to where it may end; and it says `wrong_context` only of a misplaced
    object. Each turn takes an object of at least one byte, so the turns left are more than the bytes. -/
theorem Stands.walk {left : Nat} : ∀ {objects : List Passed} {w : Walked},
    Stands digests policy history start whole bytes objects w → bytes.length - w.offset < left →
    match walkRun (runCodec digests policy) history start whole bytes left w with
    | .error code => code = .wrongContext → Misplaced digests policy history start whole bytes
    | .ok (w', cut) => ∃ passed, Stands digests policy history start whole bytes passed w'
        ∧ ((cut = none ∧ w'.offset = bytes.length)
          ∨ Turned digests policy history start whole bytes passed w' (.ok (.stop cut))) := by
  induction left with
  | zero =>
    intro objects w _ hleft
    exact absurd hleft (Nat.not_lt_zero _)
  | succ left ih =>
    intro objects w h hleft
    by_cases hend : bytes.length ≤ w.offset
    · rw [walkRun_end hend]
      exact ⟨objects, h, .inl ⟨rfl, Nat.le_antisymm h.fits hend⟩⟩
    have hmore : w.offset < bytes.length := not_le.mp hend
    have hturn := h.turn
    cases hat : objectAt (runCodec digests policy) history start whole bytes w with
    | error code =>
      rw [hat] at hturn
      unfold walkRun
      rw [if_neg hend, hat]
      exact hturn
    | ok object =>
      rw [hat] at hturn
      cases object with
      | stop cut =>
        unfold walkRun
        rw [if_neg hend, hat]
        exact ⟨objects, h, .inr hturn⟩
      | footer length =>
        obtain ⟨hnext, hpos⟩ := hturn
        rw [walkRun_footer hmore hat]
        refine ih hnext ?_
        dsimp only
        omega
      | block length checked =>
        obtain ⟨hnext, hpos⟩ := hturn
        rw [walkRun_block hmore hat]
        refine ih hnext ?_
        dsimp only
        omega

/-- The objects of a stretch before its last are a stretch up to that one. -/
theorem Stretch.front {o : Passed}
    (h : Stretch digests policy history start bytes (objects ++ [o]) end_) :
    Stretch digests policy history start bytes objects o.offset ∧ end_ = o.offset + o.length
      ∧ o.Sound digests policy history start bytes := by
  obtain ⟨mid, hjoined, hfrom, hto⟩ : ∃ mid, Tiling.Joined 0 mid (objects.map Passed.piece)
      ∧ o.offset = mid ∧ o.offset + o.length = end_ := by
    have hjoined := h.joined
    rw [List.map_append] at hjoined
    exact Tiling.joined_append.mp hjoined
  subst hfrom
  refine ⟨⟨hjoined, ?_, ?_⟩, hto.symm, h.sound o (List.mem_append_right _ (List.mem_singleton_self _))⟩
  · intro other hmem
    exact h.sound other (List.mem_append_left _ hmem)
  · have hchains := h.chains
    rw [tableOf_append] at hchains
    cases hblock : o.row? with
    | none =>
      simpa [tableOf, hblock] using hchains
    | some row =>
      have hrow : tableOf [o] = [row] := by simp [tableOf, hblock]
      rw [hrow] at hchains
      exact (chains_snoc.mp hchains).1

/-- What the walk finds at an object of a stretch. -/
def Passed.object (o : Passed) : Object :=
  match o.block with
  | none => .footer o.length
  | some checked => .block o.length checked

/-- **The next object of a stretch** is what the walk finds there, or the walk refuses: a footer where a
    kept run should begin, or a block the table of a kept run has no room for. -/
theorem Stands.turn_next {o : Passed} (h : Stands digests policy history start whole bytes objects w)
    (hplace : w.offset = o.offset)
    (hstretch : Stretch digests policy history start bytes (objects ++ [o]) end_)
    (hroom : whole = true ∨ (tableOf (objects ++ [o])).length ≤ maximumRunBlocks) :
    (∃ code, objectAt (runCodec digests policy) history start whole bytes w = .error code)
      ∨ objectAt (runCodec digests policy) history start whole bytes w = .ok o.object := by
  obtain ⟨hlies, hsound⟩ := hstretch.front.2.2
  obtain ⟨offset, length, block⟩ := o
  dsimp only at hplace hlies hsound
  subst hplace
  rw [objectAt_lies hlies]
  cases block with
  | none =>
    obtain ⟨hfamily, hintact⟩ := hsound
    rw [if_pos hfamily, headed_lies hlies, if_pos hintact]
    cases w.blocks.isEmpty && whole with
    | true => exact .inl ⟨_, rfl⟩
    | false => exact .inr rfl
  | some checked =>
    obtain ⟨hfamily, hcheck⟩ := hsound
    have hchains := hstretch.chains
    rw [tableOf_append, tableOf_block] at hchains hroom
    obtain ⟨_, hphysical, hlogical⟩ := chains_snoc.mp hchains
    have hexpected : checked.coverage.physical.begin_ = w.physical := hphysical.trans h.physical.symm
    rw [hexpected] at hcheck
    rw [if_neg (by rw [hfamily]; decide), if_neg (not_not.mpr hfamily)]
    by_cases hfull : w.blocks.length = maximumRunBlocks
    · left
      rw [if_pos hfull]
      rcases hroom with rfl | hroom
      · exact ⟨_, rfl⟩
      · rw [List.length_append, ← h.table, hfull] at hroom
        exact absurd hroom (by simp)
    · right
      rw [if_neg hfull, hcheck]
      dsimp only
      refine if_neg ?_
      rw [h.table, h.logical]
      cases htable : tableOf objects with
      | nil =>
        rw [htable] at hlogical
        simpa [logicalAfter, rowOf] using hlogical
      | cons head rest =>
        rw [htable] at hlogical
        simpa [rowOf] using hlogical

/-- **A walk comes to the end of a stretch**, or refuses before it. -/
theorem Stretch.reached {objects : List Passed} : ∀ {end_ : Nat},
    Stretch digests policy history start bytes objects end_ →
    (whole = true ∨ (tableOf objects).length ≤ maximumRunBlocks) →
    (∃ code, walkRun (runCodec digests policy) history start whole bytes (bytes.length + 1)
        ⟨[], 0, start.base, start.physical⟩ = .error code)
      ∨ ∃ left w, Stands digests policy history start whole bytes objects w ∧ w.offset = end_
        ∧ bytes.length - w.offset < left
        ∧ walkRun (runCodec digests policy) history start whole bytes (bytes.length + 1)
            ⟨[], 0, start.base, start.physical⟩
          = walkRun (runCodec digests policy) history start whole bytes left w := by
  induction objects using List.reverseRecOn with
  | nil =>
    intro end_ h _
    obtain rfl : 0 = end_ := h.joined
    exact .inr ⟨_, _, Stands.initial, rfl, Nat.lt_succ_self _, rfl⟩
  | append_singleton objects o ih =>
    intro end_ h hroom
    obtain ⟨hfront, hend, hlies, _⟩ := h.front
    have hroom' : whole = true ∨ (tableOf objects).length ≤ maximumRunBlocks := by
      refine hroom.imp_right fun hle => ?_
      rw [tableOf_append, List.length_append] at hle
      omega
    rcases ih hfront hroom' with herror | ⟨left, w, hstands, hoffset, hleft, hwalk⟩
    · exact .inl herror
    obtain ⟨left, rfl⟩ := Nat.exists_eq_succ_of_ne_zero (Nat.ne_zero_of_lt hleft)
    have hmore : w.offset < bytes.length := by
      have hpos := hlies.pos
      have hcomplete := hlies.complete
      omega
    have hturn := hstands.turn
    rcases hstands.turn_next hoffset h hroom with ⟨code, hat⟩ | hat
    · left
      refine ⟨code, hwalk.trans ?_⟩
      unfold walkRun
      rw [if_neg (not_le.mpr hmore), hat]
    · right
      rw [hat] at hturn
      obtain ⟨offset, length, block⟩ := o
      dsimp only at hoffset hend
      subst hoffset hend
      cases block with
      | none =>
        obtain ⟨hnext, hpos⟩ := hturn
        refine ⟨left, _, hnext, rfl, ?_, hwalk.trans (walkRun_footer hmore hat)⟩
        dsimp only at hpos ⊢
        omega
      | some checked =>
        obtain ⟨hnext, hpos⟩ := hturn
        refine ⟨left, _, hnext, rfl, ?_, hwalk.trans (walkRun_block hmore hat)⟩
        dsimp only at hpos ⊢
        omega

theorem tableOf_part {row : RunBlock} (h : row ∈ tableOf objects) : row.part = 0 := by
  obtain ⟨o, _, ho⟩ := List.mem_filterMap.mp h
  unfold Passed.row? at ho
  cases hblock : o.block with
  | none =>
    rw [hblock] at ho
    cases ho
  | some checked =>
    rw [hblock] at ho
    cases ho
    rfl

/-- The walk from the first byte. -/
theorem walk_from_start :
    match walkRun (runCodec digests policy) history start whole bytes (bytes.length + 1)
        ⟨[], 0, start.base, start.physical⟩ with
    | .error code => code = .wrongContext → Misplaced digests policy history start whole bytes
    | .ok (w, cut) => ∃ passed, Stands digests policy history start whole bytes passed w
        ∧ ((cut = none ∧ w.offset = bytes.length)
          ∨ Turned digests policy history start whole bytes passed w (.ok (.stop cut))) :=
  Stands.initial.walk (Nat.lt_succ_self _)

/-- **What becomes of a walk**: its error, or a run of the bytes with its table. -/
theorem checkSegmentRun_settled (hne : bytes ≠ []) (hstart : history.dataStart ≤ start.position) :
    checkSegmentRun (runCodec digests policy) history start whole bytes
      = (walkRun (runCodec digests policy) history start whole bytes (bytes.length + 1)
          ⟨[], 0, start.base, start.physical⟩).map
        fun out => ⟨⟨start.position, out.1.offset, [⟨0, bytes⟩], out.1.blocks⟩, out.2⟩ := by
  have hvalid : ¬ (bytes = [] ∨ start.position < history.dataStart) := by
    rintro (h | h)
    · exact hne h
    · omega
  have hpart : ({ begin_ := start.position } : Run).addPart bytes
      = some ⟨start.position, bytes.length, [⟨0, bytes⟩], []⟩ := by
    simp [Run.addPart, maximumRunParts]
  have hwalk := @walk_from_start digests policy history start whole bytes
  unfold checkSegmentRun
  rw [if_neg hvalid]
  cases hresult : walkRun (runCodec digests policy) history start whole bytes (bytes.length + 1)
      ⟨[], 0, start.base, start.physical⟩ with
  | error code => rfl
  | ok out =>
    obtain ⟨w, cut⟩ := out
    rw [hresult] at hwalk
    obtain ⟨objects, hstands, _⟩ := hwalk
    have hsame : (w.blocks.map fun row => { row with part := 0 }) = w.blocks := by
      refine (List.map_congr_left fun row hrow => ?_).trans (List.map_id _)
      rw [hstands.table] at hrow
      obtain ⟨logical, physical, offset, length, batchOffset, batchBytes, part⟩ := row
      obtain rfl : part = 0 := tableOf_part hrow
      rfl
    dsimp only
    rw [hpart, Option.bind_some, Run.addBlocks_eq (by simp) (by simpa using hstands.room)]
    simp only [List.nil_append, List.length_singleton, Nat.sub_self, hsame]
    rfl

/-- **A walk refuses a broken object.** -/
theorem Stands.turn_broken (h : Stands digests policy history start whole bytes objects w)
    (hlies : Lies policy bytes w.offset length)
    (hroom : whole = true ∨ (familyAt bytes w.offset length = blockFamily →
      (tableOf objects).length < maximumRunBlocks))
    (hbroken : Broken digests policy history start bytes objects w.offset length) :
    ∃ code, objectAt (runCodec digests policy) history start whole bytes w = .error code := by
  have hkinds : blockFamily ≠ footerFamily := by decide
  rw [objectAt_lies hlies]
  by_cases hblock : familyAt bytes w.offset length = blockFamily
  · rw [if_neg (hblock ▸ hkinds), if_neg (not_not.mpr hblock)]
    by_cases hfull : w.blocks.length = maximumRunBlocks
    · rw [if_pos hfull]
      rcases hroom with rfl | hroom
      · exact ⟨_, rfl⟩
      · rw [h.table] at hfull
        exact absurd hfull (Nat.ne_of_lt (hroom hblock))
    rw [if_neg hfull]
    cases hcheck : checkSegmentBlock digests policy (bytesAt bytes w.offset length)
        (placement history w.physical (start.position + w.offset)) with
    | error why => exact ⟨_, rfl⟩
    | ok checked =>
      rw [h.physical] at hcheck
      rcases hbroken with hbroken | hbroken | hbroken | ⟨_, checked', hcheck', hchains⟩
      · exact absurd hblock hbroken.1
      · exact absurd hblock hbroken.1
      · exact absurd hcheck (hbroken.2 checked)
      rw [hcheck] at hcheck'
      cases hcheck'
      refine ⟨_, if_pos ?_⟩
      by_contra hbegins
      apply hchains
      rw [← h.physical] at hcheck
      have hnext := (h.block hlies hblock (Nat.lt_of_le_of_ne h.room hfull) hcheck hbegins).stretch.chains
      rwa [tableOf_append, tableOf_block] at hnext
  · by_cases hfooter : familyAt bytes w.offset length = footerFamily
    · rw [if_pos hfooter, headed_lies hlies]
      rcases hbroken with hbroken | hbroken | hbroken | hbroken
      · exact absurd hfooter hbroken.2
      · rw [if_neg hbroken.2]
        exact ⟨_, rfl⟩
      · exact absurd hbroken.1 hblock
      · exact absurd hbroken.1 hblock
    · rw [if_neg hfooter, if_pos hblock]
      exact headed_refused

end Walk

/-- **A checked run**: what `check_segment_run` accepts is a stretch of the bytes from the first one to
    where no complete object follows or the table is full, its table exactly the blocks of the stretch, and
    a run for the cache begins with one. It refuses bytes in which a broken object follows a stretch that
    the table has room for. And it answers `wrong_context` only of an object that no block comes before
    and whose checksums hold, the header's for any and the body's too for a block. -/
theorem segment_run_checked (digests : Digests) (policy : CodecLimits) (history : History)
    (start : RunStart) (whole : Bool) (bytes : List UInt8) :
    (∀ checked, checkSegmentRun (runCodec digests policy) history start whole bytes = .ok checked →
      checked.run.begin_ = start.position ∧ checked.run.bytes = bytes
        ∧ Ends policy bytes whole checked
        ∧ ∃ objects, Stretch digests policy history start bytes objects checked.run.size
          ∧ checked.run.blocks = tableOf objects
          ∧ (whole = true → ∀ first ∈ objects.head?, first.block.isSome = true))
    ∧ (∀ objects end_ length, Stretch digests policy history start bytes objects end_ →
        Lies policy bytes end_ length →
        (whole = true ∨ (tableOf objects).length
          + (if familyAt bytes end_ length = blockFamily then 1 else 0) ≤ maximumRunBlocks) →
        Broken digests policy history start bytes objects end_ length →
        ∃ code, checkSegmentRun (runCodec digests policy) history start whole bytes = .error code)
    ∧ (checkSegmentRun (runCodec digests policy) history start whole bytes = .error .wrongContext →
        Misplaced digests policy history start whole bytes) := by
  by_cases hvalid : bytes = [] ∨ start.position < history.dataStart
  · have hinvalid : checkSegmentRun (runCodec digests policy) history start whole bytes
        = .error .invalidArgument := if_pos hvalid
    rw [hinvalid]
    refine ⟨fun _ h => (nomatch h), fun _ _ _ _ _ _ _ => ⟨_, rfl⟩, fun h => (nomatch h)⟩
  obtain ⟨hne, hstart⟩ := not_or.mp hvalid
  rw [checkSegmentRun_settled hne (not_lt.mp hstart)]
  have hwalk := @walk_from_start digests policy history start whole bytes
  refine ⟨?_, ?_, ?_⟩
  · intro checked hchecked
    cases hresult : walkRun (runCodec digests policy) history start whole bytes (bytes.length + 1)
        ⟨[], 0, start.base, start.physical⟩ with
    | error code =>
      rw [hresult] at hchecked
      cases hchecked
    | ok out =>
      obtain ⟨w, cut⟩ := out
      rw [hresult] at hchecked hwalk
      cases hchecked
      obtain ⟨objects, hstands, hends⟩ := hwalk
      refine ⟨rfl, List.append_nil _, ?_, objects, hstands.stretch, hstands.table, hstands.begins⟩
      rcases hends with hends | ⟨hwhole, hcut | ⟨hcut, hfull, hnext⟩⟩
      · exact .inl hends
      · exact .inr (.inl ⟨hwhole, hcut⟩)
      · exact .inr (.inr ⟨hwhole, hcut, hfull, hnext⟩)
  · intro objects end_ length hstretch hlies hroom hbroken
    have hroom' : whole = true ∨ (tableOf objects).length ≤ maximumRunBlocks :=
      hroom.imp_right fun hle => (Nat.le_add_right _ _).trans hle
    rcases hstretch.reached hroom' with ⟨code, herror⟩ | ⟨left, w, hstands, rfl, hleft, hsame⟩
    · rw [herror]
      exact ⟨code, rfl⟩
    obtain ⟨left, rfl⟩ := Nat.exists_eq_succ_of_ne_zero (Nat.ne_zero_of_lt hleft)
    have hnext : whole = true ∨ (familyAt bytes w.offset length = blockFamily →
        (tableOf objects).length < maximumRunBlocks) := by
      refine hroom.imp_right fun hle hblock => ?_
      rw [if_pos hblock] at hle
      exact hle
    obtain ⟨code, hat⟩ := hstands.turn_broken hlies hnext hbroken
    have hmore : ¬ bytes.length ≤ w.offset := by
      have hpos := hlies.pos
      have hcomplete := hlies.complete
      omega
    rw [hsame]
    unfold walkRun
    rw [if_neg hmore, hat]
    exact ⟨code, rfl⟩
  · intro hcode
    cases hresult : walkRun (runCodec digests policy) history start whole bytes (bytes.length + 1)
        ⟨[], 0, start.base, start.physical⟩ with
    | error code =>
      rw [hresult] at hcode hwalk
      cases hcode
      exact hwalk rfl
    | ok out =>
      rw [hresult] at hcode
      cases hcode

/-! ## What a `wrong_context` does not say -/

/-- A footer without a body. -/
def footerOctets : List UInt8 :=
  [75, 81, 66, 70, 6, 0, 1, 0, 1, 0, 32, 0, 0, 0, 0, 0, 0, 0, 0, 0, 0, 0, 0, 0, 0, 0, 0, 0, 18, 210, 143, 102]

/-- The header of a segment, without a body. -/
def foreignOctets : List UInt8 :=
  [75, 81, 66, 70, 3, 0, 1, 0, 1, 0, 32, 0, 0, 0, 0, 0, 0, 0, 0, 0, 0, 0, 0, 0, 0, 0, 0, 0, 20, 152, 20, 71]

/-- The header of a segment whose body is damaged. -/
def damagedOctets : List UInt8 :=
  [75, 81, 66, 70, 3, 0, 1, 0, 1, 0, 32, 0, 1, 0, 0, 0, 0, 0, 0, 0, 0, 0, 0, 0, 0, 0, 0, 0, 169, 111, 87, 112,
    0]

theorem some_pos : 0 < 512 := by decide

/-- A history and a start that the objects below are read under. -/
def someHistory : History := ⟨⟨1, 2, 3, 4, 1⟩, 512, 512, 0, 0, .v1, some_pos, Nat.zero_le _, Nat.zero_le _⟩

/-- **Neither the first object nor both checksums**: a run that may end inside an object passes over a
    footer and answers `wrong_context` for the object behind it, though the footer alone is accepted; and
    it answers so for a first object whose body fails its checksum. -/
theorem wrong_context_elsewhere :
    (checkSegmentRun (runCodec castagnoliDigests {}) someHistory ⟨512, 0, 0⟩ false
        (footerOctets ++ foreignOctets) = .error .wrongContext
      ∧ checkSegmentRun (runCodec castagnoliDigests {}) someHistory ⟨512, 0, 0⟩ false footerOctets
        = .ok ⟨⟨512, 32, [⟨0, footerOctets⟩], []⟩, none⟩)
    ∧ (checkSegmentRun (runCodec castagnoliDigests {}) someHistory ⟨512, 0, 0⟩ false damagedOctets
        = .error .wrongContext
      ∧ ¬ BodyIntact castagnoliDigests damagedOctets) := by
  decide +kernel

end KwaqueStorage.SegmentRun.Checked
