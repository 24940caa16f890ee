import KwaqueStorage.Capacity.Plan

/-!
# What a plan says

The spec lemmas of `plan_segment_capacity`. Blocks never pad, so what they take does not depend on where
they lie; a footer pads, by where it lies against the alignment. A group whose plan gets as far as the
room of the segment is therefore laid out alike from every boundary, and its plan from the data start of
an empty segment is the plan from where it is, less the footer that closes a run.
-/

namespace KwaqueStorage.Capacity

open Extent (u64Max)
open Layout Lib RetryPages

variable {fixed : Constants} {current : Position} {batches : List Batch} {isOpen : Bool}
  {entries : Nat} {shape : GroupShape} {plan : CapacityPlan}

theorem Constants.unit_pos (fixed : Constants) : 0 < fixed.unit :=
  lt_of_lt_of_le (by decide) fixed.descriptor.alignment.least

/-! ## Footers -/

/-- The bytes of a footer, before its padding. -/
theorem footerParts_bytes : footerParts.bytes = 248 := rfl

/-- **A footer ends on the boundary after it.** -/
theorem Constants.footerAt_end {position : Nat} {layout : AlignedLayout}
    (h : fixed.footerAt position = .ok layout) :
    position + layout.encodedBytes = alignUp (position + 248) fixed.unit := by
  obtain ⟨_, _, _, _, rfl⟩ := AlignedLayout.place_endsSpan_eq_ok.mp h
  rw [footerParts_bytes]
  change position + (32 + (216 + 0 + minimumPadding (position + 248) fixed.unit))
    = position + 248 + minimumPadding (position + 248) fixed.unit
  omega

/-- A footer that can be laid out can be laid out whole units before. -/
theorem Constants.footerAt_shift {position start place : Nat} {layout : AlignedLayout}
    (h : fixed.footerAt (start + place) = .ok layout) (hstart : start % fixed.unit = 0)
    (hposition : position % fixed.unit = 0) (hle : position ≤ start) :
    fixed.footerAt (position + place) = .ok { layout with position := some (position + place) } := by
  obtain ⟨hheader, hends, hbody, hmost, rfl⟩ := AlignedLayout.place_endsSpan_eq_ok.mp h
  have hpad : ∀ base, base % fixed.unit = 0 →
      minimumPadding (base + place + footerParts.bytes) fixed.unit
        = minimumPadding (place + footerParts.bytes) fixed.unit := by
    intro base hbase
    unfold minimumPadding
    rw [Nat.add_assoc, Nat.add_mod, hbase, Nat.zero_add, Nat.mod_mod]
  have hup : alignUp (position + place + footerParts.bytes) fixed.unit
      ≤ alignUp (start + place + footerParts.bytes) fixed.unit :=
    alignUp_mono fixed.unit_pos (by omega)
  refine AlignedLayout.place_endsSpan_eq_ok.mpr ⟨hheader, hup.trans hends, ?_, ?_, ?_⟩
  · rwa [hpad position hposition, ← hpad start hstart]
  · rwa [hpad position hposition, ← hpad start hstart]
  · rw [hpad position hposition, hpad start hstart]

/-- What staging a layout costs does not depend on where it lies. -/
theorem stagingCost_place (costs : Costs) (policy : Limits) (child fixedBytes : Nat)
    (layout : AlignedLayout) (place : Option Nat) :
    stagingCost costs policy child fixedBytes { layout with position := place }
      = stagingCost costs policy child fixedBytes layout := rfl

/-! ## Projections -/

variable {projection : Projection} {limits : AdmissionLimits}

theorem searchCapacity_eq_some {costs : Costs} {policy : Limits} {alignment working capacity : Nat}
    (h : searchCapacity costs policy entries alignment limits working capacity = some projection) :
    ∃ size, 0 < size ∧ size ≤ capacity
      ∧ tryCapacity costs policy entries alignment limits working size = .fits projection := by
  induction capacity with
  | zero => cases h
  | succ capacity ih =>
    rw [searchCapacity] at h
    split at h
    next => cases h
    next =>
      obtain ⟨size, hpos, hle, hsize⟩ := ih h
      exact ⟨size, hpos, hle.trans (Nat.le_succ _), hsize⟩
    next fits hfits =>
      cases h
      exact ⟨capacity + 1, Nat.succ_pos _, le_refl _, hfits⟩

theorem tailPage_ne_fits {costs : Costs} {policy : Limits} {alignment working tail refs : Nat}
    {attempt : Attempt} (h : tailPage costs policy alignment limits working tail refs = .inl attempt) :
    attempt ≠ .fits projection := by
  unfold tailPage at h
  split at h
  next => cases h
  next =>
    split at h
    next =>
      cases h
      exact nofun
    next =>
      split at h
      next => cases h
      next =>
        cases h
        exact nofun

theorem tailPage_le {costs : Costs} {policy : Limits} {alignment working count refs tail : Nat}
    (h : tailPage costs policy alignment limits working count refs = .inr tail) :
    tail ≤ if count = 0 then 0 else policy.config.maxPageBytes := by
  unfold tailPage at h
  split at h
  next hzero =>
    cases h
    rw [if_pos hzero]
  next hsome =>
    rw [if_neg hsome]
    split at h
    next => cases h
    next layout hlayout =>
      split at h
      next =>
        cases h
        rw [AlignedLayout.make_encodedBytes hlayout]
        obtain ⟨_, _, _, hmost, _⟩ := AlignedLayout.make_eq_ok.mp hlayout
        exact hmost
      next => cases h

/-- **What a page capacity that fares well projects**: so many pages and their references in the root,
    which ends on a boundary, and no page larger than the policy's. -/
structure Projects (policy : Limits) (limits : AdmissionLimits) (entries alignment : Nat)
    (projection : Projection) : Prop where
  pages : projection.pages = (entries + projection.entriesPerPage - 1) / projection.entriesPerPage
  root : projection.root = alignUp (288 + 48 * projection.pages) alignment
  most : projection.pages ≤ min limits.maximumRetryPages policy.config.maxObjectPages
  disk : projection.disk ≤ projection.pages * policy.config.maxPageBytes

/-- Full pages, and one that holds the rest if there is one. -/
theorem pages_eq {capacity : Nat} (hpos : 0 < capacity) : (entries + capacity - 1) / capacity
    = entries / capacity + if entries % capacity = 0 then 0 else 1 := by
  have hsplit := Nat.div_add_mod entries capacity
  have hlt := Nat.mod_lt entries hpos
  split
  next hzero =>
    have hform : entries + capacity - 1 = capacity * (entries / capacity) + (capacity - 1) := by omega
    have hnone : (capacity - 1) / capacity = 0 := Nat.div_eq_of_lt (by omega)
    rw [hform, Nat.mul_add_div hpos, hnone]
  next hrest =>
    have hform : entries + capacity - 1
        = capacity * (entries / capacity + 1) + (entries % capacity - 1) := by
      rw [Nat.mul_add]
      omega
    have hnone : (entries % capacity - 1) / capacity = 0 := Nat.div_eq_of_lt (by omega)
    rw [hform, Nat.mul_add_div hpos, hnone, Nat.add_zero]

theorem tryCapacity_fits {costs : Costs} {policy : Limits} {alignment working capacity : Nat}
    (hpos : 0 < capacity)
    (h : tryCapacity costs policy entries alignment limits working capacity = .fits projection) :
    Projects policy limits entries alignment projection := by
  unfold tryCapacity at h
  dsimp only at h
  split at h
  next => cases h
  next hpages =>
    split at h
    next => cases h
    next refs hrefs =>
      split at h
      next => cases h
      next memory hmemory =>
        split at h
        next => cases h
        next root hroot =>
          split at h
          next => cases h
          next =>
            split at h
            next => cases h
            next full hfull =>
              split at h
              next => cases h
              next =>
                split at h
                next attempt htail =>
                  exact absurd h (tailPage_ne_fits htail)
                next tail htail =>
                  cases h
                  refine ⟨rfl, ?_, not_lt.mp hpages, ?_⟩
                  · rw [AlignedLayout.make_encodedBytes hroot]
                    unfold EnvelopeParts.bytes
                    dsimp only [envelopePrefixBytes, sealedFooterFixedBytes, pageRefWireBytes]
                    congr 1
                    omega
                  · have hmost : full.encodedBytes ≤ policy.config.maxPageBytes := by
                      rw [AlignedLayout.make_encodedBytes hfull]
                      obtain ⟨_, _, _, hmost, _⟩ := AlignedLayout.make_eq_ok.mp hfull
                      exact hmost
                    have hfulls := Nat.mul_le_mul_left (entries / capacity) hmost
                    have hrest := tailPage_le htail
                    dsimp only
                    rw [pages_eq hpos, Nat.add_mul]
                    split at hrest
                    next hzero =>
                      rw [if_pos hzero]
                      omega
                    next hsome =>
                      rw [if_neg hsome]
                      omega

/-- **What is projected for a seal** of so many entries, which the limits allow. -/
theorem Constants.project_eq_some (h : fixed.project entries = some projection) :
    Projects fixed.policy fixed.limits entries fixed.unit projection
      ∧ entries ≤ min fixed.limits.maximumRetryEntries fixed.policy.config.maxObjectEntries := by
  unfold Constants.project projectRetries at h
  split at h
  next => cases h
  next hentries =>
    split at h
    next => cases h
    next =>
      obtain ⟨size, hpos, _, hsize⟩ := searchCapacity_eq_some h
      exact ⟨tryCapacity_fits hpos hsize, not_lt.mp hentries⟩

/-! ## Blocks -/

/-- The bytes of a block: a batch in its envelope. -/
def Batch.blockBytes (batch : Batch) : Nat := 176 + batch.size

/-- The bytes of a group's blocks. -/
def blocksBytes (batches : List Batch) : Nat := (batches.map Batch.blockBytes).sum

theorem blockLayout_eq_ok {policy : Limits} {unit size position : Nat} {layout : AlignedLayout} :
    blockLayout policy unit size position = .ok layout
      ↔ headerFits envelopePrefixBytes policy ∧ position + (176 + size) ≤ u64Max
        ∧ segmentBlockFixedBytes + size ≤ bodyLimit policy (blockLimits policy)
        ∧ 176 + size ≤ (blockLimits policy).maxEncodedBytes
        ∧ layout = ⟨envelopePrefixBytes, segmentBlockFixedBytes + size, 0, unit, some position⟩ := by
  have hbytes : envelopePrefixBytes + (segmentBlockFixedBytes + size) = 176 + size := by
    simp only [envelopePrefixBytes, segmentBlockFixedBytes]
    omega
  unfold blockLayout
  rw [AlignedLayout.place_continues_eq_ok]
  unfold EnvelopeParts.bytes
  dsimp only
  rw [hbytes]

/-- What a plan takes a batch for, wherever it lies. -/
structure BlockFits (fixed : Constants) (batch : Batch) (staging : Nat) : Prop where
  append : validateInitialAppend batch fixed.descriptor.segment = .ok ()
  counts : validateBatchCounts fixed.policy batch.originalCount batch.retainedCount batch.headerCount
    = true
  header : headerFits envelopePrefixBytes fixed.policy
  body : segmentBlockFixedBytes + batch.size ≤ bodyLimit fixed.policy (blockLimits fixed.policy)
  encoded : batch.blockBytes ≤ (blockLimits fixed.policy).maxEncodedBytes
  staged : ∃ cost, stagingCost fixed.costs fixed.policy batch.fragments segmentBlockFixedBytes
    ⟨envelopePrefixBytes, segmentBlockFixedBytes + batch.size, 0, fixed.unit, none⟩ = some cost
      ∧ staging = cost.additional

/-- **A block of a plan**: it fits, follows the records before it, and ends at a position. -/
theorem planBlock_eq_ok {sums sums' : BlockSums} {batch : Batch} :
    planBlock fixed sums batch = .ok sums'
      ↔ ∃ staging, BlockFits fixed batch staging ∧ batch.logical.begin_ = sums.logical
        ∧ sums.position + batch.blockBytes ≤ u64Max
        ∧ sums' =
          { output := { sums.output with
              stagingBytes := sums.output.stagingBytes + staging
              blocks := sums.output.blocks + batch.blockBytes }
            position := sums.position + batch.blockBytes
            logical := batch.logical.end_
            records := sums.records + batch.retainedCount } := by
  have hencoded : ∀ place, AlignedLayout.encodedBytes
      ⟨envelopePrefixBytes, segmentBlockFixedBytes + batch.size, 0, fixed.unit, place⟩
        = batch.blockBytes := by
    intro place
    simp only [AlignedLayout.encodedBytes, envelopePrefixBytes, segmentBlockFixedBytes,
      Batch.blockBytes]
    omega
  unfold planBlock
  cases happend : validateInitialAppend batch fixed.descriptor.segment with
  | error code =>
    refine iff_of_false ?_ ?_
    · cases code <;> simp
    · rintro ⟨staging, hfits, _⟩
      cases happend.symm.trans hfits.append
  | ok u =>
    simp only [bind_eq_ok, require_eq_ok, exists_const, expect_eq_ok, pure_eq_ok,
      toOption_eq_some, blockLayout_eq_ok]
    constructor
    · rintro ⟨hlogical, hcounts, layout, ⟨hheader, hplace, hbody, hmost, rfl⟩, cost, hcost, rfl⟩
      rw [hencoded]
      exact ⟨cost.additional, ⟨happend, hcounts, hheader, hbody, hmost, cost, hcost, rfl⟩, hlogical,
        hplace, rfl⟩
    · rintro ⟨staging, hfits, hlogical, hplace, rfl⟩
      obtain ⟨cost, hcost, rfl⟩ := hfits.staged
      refine ⟨hlogical, hfits.counts, _, ⟨hfits.header, hplace, hfits.body, hfits.encoded, rfl⟩, cost,
        hcost, ?_⟩
      rw [hencoded]

/-- Batches that follow one another in the records of their range. -/
def Follows : Nat → List Batch → Nat → Prop
  | begin_, [], end_ => begin_ = end_
  | begin_, batch :: rest, end_ => batch.logical.begin_ = begin_ ∧ Follows batch.logical.end_ rest end_

/-- The records a group keeps. -/
def recordsOf (batches : List Batch) : Nat := (batches.map Batch.retainedCount).sum

/-- **The blocks of a plan**: each fits, they follow one another, and they end at a position. What they
    add to the sums does not depend on where they lie. -/
theorem planBlocks_eq_ok {sums sums' : BlockSums} : planBlocks fixed sums batches = .ok sums'
      ↔ ∃ staging, List.Forall₂ (BlockFits fixed) batches staging
        ∧ Follows sums.logical batches sums'.logical
        ∧ (batches = [] ∨ sums.position + blocksBytes batches ≤ u64Max)
        ∧ sums' =
          { output := { sums.output with
              stagingBytes := sums.output.stagingBytes + staging.sum
              blocks := sums.output.blocks + blocksBytes batches }
            position := sums.position + blocksBytes batches
            logical := sums'.logical
            records := sums.records + recordsOf batches } := by
  induction batches generalizing sums with
  | nil =>
    rw [planBlocks]
    constructor
    · intro h
      cases h
      exact ⟨[], List.Forall₂.nil, rfl, .inl rfl, rfl⟩
    · rintro ⟨staging, hfits, hfollows, _, heq⟩
      cases hfits
      rw [heq, ← show sums.logical = sums'.logical from hfollows]
      rfl
  | cons batch rest ih =>
    have hbytes : blocksBytes (batch :: rest) = batch.blockBytes + blocksBytes rest := rfl
    have hrecords : recordsOf (batch :: rest) = batch.retainedCount + recordsOf rest := rfl
    rw [planBlocks, bind_eq_ok]
    constructor
    · rintro ⟨next, hblock, hrest⟩
      obtain ⟨staging, hfits, hbegin, hends, rfl⟩ := planBlock_eq_ok.mp hblock
      obtain ⟨more, hmore, hfollows, hmost, heq⟩ := ih.mp hrest
      refine ⟨staging :: more, List.Forall₂.cons hfits hmore, ⟨hbegin, hfollows⟩, .inr ?_, ?_⟩
      · rcases hmost with rfl | hmost
        · exact hends
        · dsimp only at hmost
          omega
      · rw [heq]
        dsimp only
        rw [hbytes, hrecords, List.sum_cons]
        simp only [Nat.add_assoc]
    · rintro ⟨staging, hall, ⟨hbegin, hfollows⟩, hmost, heq⟩
      cases hall with
      | @cons _ cost _ more hfits hmore =>
        have hends := hmost.resolve_left (List.cons_ne_nil _ _)
        rw [hbytes] at hends
        refine ⟨_, planBlock_eq_ok.mpr ⟨cost, hfits, hbegin, by omega, rfl⟩, ?_⟩
        refine ih.mpr ⟨more, hmore, hfollows, .inr (by dsimp only; omega), ?_⟩
        rw [heq]
        dsimp only
        rw [hbytes, hrecords, List.sum_cons]
        simp only [Nat.add_assoc]

/-! ## The shape of a group -/

/-- Where the blocks of a group begin: after the footer that closes a run held open. -/
def startOf (fixed : Constants) (current : Position) (isOpen : Bool) : Nat :=
  if isOpen then alignUp (current.bytes + 248) fixed.unit else current.bytes

/-- **A group that an empty segment could take**, planned from a position. -/
structure Admits (fixed : Constants) (current : Position) (batches : List Batch) (isOpen : Bool)
    (entries : Nat) : Prop where
  nonempty : batches ≠ []
  length_le : batches.length ≤ maximumSegmentGroupBlocks
  entries_le : entries ≤ batches.length
  from_start : fixed.dataStart ≤ current.bytes
  begins : isOpen = true ∨ current.bytes % fixed.unit = 0
  able : fixed.tiny = false ∧ fixed.footerBytes.isSome = true
  closes : isOpen = true → ∃ layout, fixed.footerAt current.bytes = .ok layout
    ∧ (fixed.footerStaging layout).isSome = true
  fits : ∃ staging, List.Forall₂ (BlockFits fixed) batches staging
  follows : ∃ logical, Follows current.logical batches logical
  footed : ∃ layout, fixed.footerAt (startOf fixed current isOpen + blocksBytes batches) = .ok layout
    ∧ (fixed.footerStaging layout).isSome = true
  io : alignUp (startOf fixed current isOpen + blocksBytes batches + 248) fixed.unit
    ≤ current.bytes + maximumFileIoBytes
  count : batches.length ≤ fixed.limits.maximumBlocks
  published : fixed.pointerBytes.isSome = true ∧ fixed.descriptorBytes.isSome = true
  fresh : ∃ projection, fixed.project batches.length = some projection
    ∧ fixed.dataStart + alignUp (blocksBytes batches + 248) fixed.unit + projection.root
      ≤ fixed.descriptor.maximumDataBytes

/-- What the first half of a plan counted for a group. -/
structure Shaped (fixed : Constants) (current : Position) (batches : List Batch) (isOpen : Bool)
    (shape : GroupShape) : Prop where
  records : shape.records = recordsOf batches
  closing : current.bytes + shape.output.closing = startOf fixed current isOpen
  incoming : current.bytes + shape.incoming
    = alignUp (startOf fixed current isOpen + blocksBytes batches + 248) fixed.unit

/-- A group begins on a boundary. -/
theorem startOf_mod (h : isOpen = true ∨ current.bytes % fixed.unit = 0) :
    startOf fixed current isOpen % fixed.unit = 0 := by
  unfold startOf
  split
  next => exact alignUp_mod fixed.unit_pos
  next hclosed => exact h.resolve_left hclosed

theorem le_startOf : current.bytes ≤ startOf fixed current isOpen := by
  unfold startOf
  split
  next => exact (Nat.le_add_right _ _).trans le_alignUp
  next => exact le_refl _

/-- What closing a run first adds to a plan. -/
theorem planClosing_eq_ok {output : CapacityPlan} {position : Nat} :
    planClosing fixed current isOpen = .ok (output, position)
      ↔ (isOpen = true → fixed.footerBytes.isSome = true ∧ ∃ layout staging,
          fixed.footerAt current.bytes = .ok layout ∧ fixed.footerStaging layout = some staging
            ∧ output = { stagingBytes := staging.additional, closing := layout.encodedBytes })
        ∧ (isOpen = false → output = {})
        ∧ position = startOf fixed current isOpen := by
  unfold planClosing startOf
  cases isOpen with
  | false =>
    simp only [Bool.false_eq_true, if_false, false_implies, true_and, pure_eq_ok, Prod.mk.injEq,
      forall_const]
    constructor
    · rintro ⟨rfl, rfl⟩
      exact ⟨rfl, rfl⟩
    · rintro ⟨rfl, rfl⟩
      exact ⟨rfl, rfl⟩
  | true =>
    simp only [if_true, bind_eq_ok, expect_eq_ok, toOption_eq_some, pure_eq_ok, Prod.mk.injEq,
      forall_const, reduceCtorEq, false_implies, true_and, Option.isSome_iff_exists]
    constructor
    · rintro ⟨bytes, hbytes, layout, hlayout, staging, hstaging, rfl, rfl⟩
      exact ⟨⟨⟨bytes, hbytes⟩, layout, staging, hlayout, hstaging, rfl⟩, Constants.footerAt_end hlayout⟩
    · rintro ⟨⟨⟨bytes, hbytes⟩, layout, staging, hlayout, hstaging, rfl⟩, rfl⟩
      exact ⟨bytes, hbytes, layout, hlayout, staging, hstaging, rfl, Constants.footerAt_end hlayout⟩

/-- What closing a run first leaves in the sums. -/
theorem planClosing_output {output : CapacityPlan} {position : Nat}
    (h : planClosing fixed current isOpen = .ok (output, position)) :
    output.blocks = 0 ∧ current.bytes + output.closing = startOf fixed current isOpen := by
  obtain ⟨hopen, hclosed, _⟩ := planClosing_eq_ok.mp h
  unfold startOf
  cases isOpen with
  | false =>
    rw [hclosed rfl]
    exact ⟨rfl, rfl⟩
  | true =>
    obtain ⟨_, layout, staging, hlayout, _, rfl⟩ := hopen rfl
    exact ⟨rfl, Constants.footerAt_end hlayout⟩

/-- The span of a group is as long from every boundary. -/
theorem spanOf_eq {start blocks : Nat} (hstart : start % fixed.unit = 0) :
    alignUp (start + blocks + 248) fixed.unit = start + alignUp (blocks + 248) fixed.unit := by
  rw [Nat.add_assoc, alignUp_add hstart]

/-- **The first half of a plan** passes only a group that an empty segment could take, and counts what
    it takes here. -/
theorem planShape_ok (h : planShape fixed current batches isOpen entries = .ok shape) :
    Admits fixed current batches isOpen entries ∧ Shaped fixed current batches isOpen shape := by
  unfold planShape at h
  simp only [bind_eq_ok, require_eq_ok, exists_const, expect_eq_ok, pure_eq_ok, Prod.exists,
    planBlocks_eq_ok, toOption_eq_some, checkedAdd_eq_some] at h
  obtain ⟨⟨hne, hlength, hentries, hfrom, hbegins⟩, htiny, output, position, hclosing, sums,
    ⟨costs, hfits, hfollows, _, hsums⟩, bytes, hbytes, footer, hfooter, staging, hstaging, span,
    ⟨rfl, _⟩, incoming, ⟨rfl, _⟩, ⟨hio, hcount⟩, pointer, hpointer, descriptor, hdescriptor, fresh,
    hfresh, emptyEnd, ⟨rfl, _⟩, sealedEnd, ⟨rfl, _⟩, hroom, rfl⟩ := h
  obtain ⟨hblocks, hstart⟩ := planClosing_output hclosing
  obtain ⟨hopen, hclosed, rfl⟩ := planClosing_eq_ok.mp hclosing
  have hmod : startOf fixed current isOpen % fixed.unit = 0 := startOf_mod hbegins
  have hposition : sums.position = startOf fixed current isOpen + blocksBytes batches := by rw [hsums]
  have hsumBlocks : sums.output.blocks = blocksBytes batches := by rw [hsums, hblocks, Nat.zero_add]
  have hsumClosing : sums.output.closing = output.closing := by rw [hsums]
  have hrecords : sums.records = recordsOf batches := by rw [hsums, Nat.zero_add]
  rw [hposition] at hfooter
  have hends := Constants.footerAt_end hfooter
  have hspan := @spanOf_eq fixed _ (blocksBytes batches) hmod
  rw [hsumBlocks, hsumClosing] at hio
  rw [hsumBlocks] at hroom
  refine ⟨⟨hne, hlength, hentries, hfrom, hbegins, ⟨htiny, ?_⟩, ?_, ⟨costs, hfits⟩, ⟨_, hfollows⟩,
    ⟨footer, hfooter, ?_⟩, ?_, hcount, ⟨?_, ?_⟩, fresh, hfresh, ?_⟩,
    ⟨hrecords, ?_, ?_⟩⟩
  · rw [hbytes]
    rfl
  · intro hisOpen
    obtain ⟨_, layout, cost, hlayout, hcost, _⟩ := hopen hisOpen
    exact ⟨layout, hlayout, by rw [hcost]; rfl⟩
  · rw [hstaging]
    rfl
  · omega
  · rw [hpointer]
    rfl
  · rw [hdescriptor]
    rfl
  · omega
  · dsimp only
    rw [hsumClosing, hstart]
  · dsimp only
    rw [hsumBlocks, hsumClosing]
    omega

theorem Constants.footerAt_fits {position : Nat} {layout : AlignedLayout}
    (h : fixed.footerAt position = .ok layout) : alignUp (position + 248) fixed.unit ≤ u64Max := by
  obtain ⟨_, hends, _⟩ := AlignedLayout.place_endsSpan_eq_ok.mp h
  exact hends

/-- What closing a run first leaves, when it can be closed. -/
theorem Admits.planClosing (h : Admits fixed current batches isOpen entries) :
    ∃ output, Capacity.planClosing fixed current isOpen
      = .ok (output, startOf fixed current isOpen) := by
  cases hisOpen : isOpen with
  | false =>
    exact ⟨{}, planClosing_eq_ok.mpr ⟨nofun, fun _ => rfl, rfl⟩⟩
  | true =>
    obtain ⟨layout, hlayout, hstaging⟩ := h.closes hisOpen
    obtain ⟨staging, hstaging⟩ := Option.isSome_iff_exists.mp hstaging
    exact ⟨_, planClosing_eq_ok.mpr ⟨fun _ => ⟨h.able.2, layout, staging, hlayout, hstaging, rfl⟩,
      nofun, rfl⟩⟩

/-- **A group that an empty segment could take** passes the first half of its plan. -/
theorem Admits.planShape (h : Admits fixed current batches isOpen entries) :
    ∃ shape, Capacity.planShape fixed current batches isOpen entries = .ok shape := by
  obtain ⟨output, hclosing⟩ := h.planClosing
  obtain ⟨hblocks, hstart⟩ := planClosing_output hclosing
  obtain ⟨costs, hfits⟩ := h.fits
  obtain ⟨logical, hfollows⟩ := h.follows
  obtain ⟨footer, hfooter, hstaging⟩ := h.footed
  obtain ⟨bytes, hbytes⟩ := Option.isSome_iff_exists.mp h.able.2
  obtain ⟨staging, hstaging⟩ := Option.isSome_iff_exists.mp hstaging
  obtain ⟨pointer, hpointer⟩ := Option.isSome_iff_exists.mp h.published.1
  obtain ⟨descriptor, hdescriptor⟩ := Option.isSome_iff_exists.mp h.published.2
  obtain ⟨fresh, hfresh, hroom⟩ := h.fresh
  have hmod : startOf fixed current isOpen % fixed.unit = 0 := startOf_mod h.begins
  have hends := Constants.footerAt_end hfooter
  have hmost := Constants.footerAt_fits hfooter
  have hspan := @spanOf_eq fixed _ (blocksBytes batches) hmod
  have hmaximum := fixed.descriptor.maximum_fits
  have hio := h.io
  have hup : startOf fixed current isOpen + blocksBytes batches + 248
      ≤ alignUp (startOf fixed current isOpen + blocksBytes batches + 248) fixed.unit := le_alignUp
  unfold Capacity.planShape
  simp only [bind_eq_ok, require_eq_ok, exists_const, expect_eq_ok, pure_eq_ok, Prod.exists,
    planBlocks_eq_ok, toOption_eq_some, checkedAdd_eq_some]
  refine ⟨_, ⟨h.nonempty, h.length_le, h.entries_le, h.from_start, h.begins⟩, h.able.1, output, _,
    hclosing, ⟨_, _, logical, _⟩, ⟨costs, hfits, hfollows, .inr (by omega), rfl⟩, bytes,
    hbytes, footer, hfooter, staging, hstaging, _, ⟨rfl, ?_⟩, _, ⟨rfl, ?_⟩, ⟨?_, h.count⟩, pointer,
    hpointer, descriptor, hdescriptor, fresh, hfresh, _, ⟨rfl, ?_⟩, _, ⟨rfl, ?_⟩, ?_, rfl⟩
  all_goals
    dsimp only
    omega

/-! ## Fits and rolls -/

theorem countsFull_eq_false {blocks records footers : Nat} (hblocks : 0 < blocks)
    (hfooters : footers ≤ 4294967295) :
    countsFull fixed current blocks records footers = false
      ↔ current.physical + records ≤ u64Max
        ∧ current.blocks + blocks ≤ fixed.limits.maximumBlocks
        ∧ current.footers + footers ≤ 4294967295 := by
  unfold countsFull
  rw [Bool.or_eq_false_iff, Bool.or_eq_false_iff, decide_eq_false_iff_not, decide_eq_false_iff_not,
    Option.isNone_eq_false_iff, Option.isSome_iff_exists]
  simp only [checkedAdd_eq_some, exists_eq_left]
  omega

theorem sealedEndOf_eq_some {incoming sealedEnd : Nat} :
    sealedEndOf current incoming (some projection) = some sealedEnd
      ↔ sealedEnd = current.bytes + incoming + projection.root
        ∧ current.bytes + incoming + projection.root ≤ u64Max := by
  unfold sealedEndOf
  simp only [Option.bind_eq_bind, Option.bind_eq_some_iff, checkedAdd_eq_some, Option.elim_some]
  constructor
  · rintro ⟨_, ⟨rfl, _⟩, rfl, hle⟩
    exact ⟨rfl, hle⟩
  · rintro ⟨rfl, hle⟩
    exact ⟨_, ⟨rfl, by omega⟩, rfl, hle⟩

/-- **A segment takes a group** when its counts and its extent have room for it and for the root of the
    seal after it. -/
structure HasRoom (fixed : Constants) (current : Position) (batches : List Batch) (isOpen : Bool)
    (shape : GroupShape) (projection : Projection) : Prop where
  physical : current.physical + shape.records ≤ u64Max
  blocks : current.blocks + batches.length ≤ fixed.limits.maximumBlocks
  footers : current.footers + footersOf isOpen ≤ 4294967295
  bytes : current.bytes + shape.incoming + projection.root ≤ fixed.descriptor.maximumDataBytes

theorem rollReasons_eq_empty (hne : batches ≠ []) :
    rollReasons fixed current batches.length isOpen (some projection) shape = {}
      ↔ HasRoom fixed current batches isOpen shape projection := by
  have hmaximum := fixed.descriptor.maximum_fits
  have hlength : 0 < batches.length := List.length_pos_iff.mpr hne
  have hfooters : footersOf isOpen ≤ 4294967295 := by
    unfold footersOf
    split
    next => decide
    next => decide
  unfold rollReasons
  rw [RollReasons.mk.injEq]
  have hcount := @countsFull_eq_false fixed current batches.length shape.records (footersOf isOpen)
    hlength hfooters
  have hsize : ((sealedEndOf current shape.incoming (some projection)).elim true
      fun sealedEnd => decide (fixed.descriptor.maximumDataBytes < sealedEnd)) = false
      ↔ current.bytes + shape.incoming + projection.root ≤ fixed.descriptor.maximumDataBytes := by
    cases hend : sealedEndOf current shape.incoming (some projection) with
    | none =>
      refine iff_of_false nofun ?_
      intro hle
      exact nomatch hend.symm.trans (sealedEndOf_eq_some.mpr ⟨rfl, by omega⟩)
    | some sealedEnd =>
      obtain ⟨rfl, _⟩ := sealedEndOf_eq_some.mp hend
      rw [Option.elim_some, decide_eq_false_iff_not, not_lt]
  rw [hsize, hcount]
  constructor
  · rintro ⟨hbytes, ⟨hphysical, hblocks, hfooters⟩, _⟩
    exact ⟨hphysical, hblocks, hfooters, hbytes⟩
  · intro h
    exact ⟨h.bytes, ⟨h.physical, h.blocks, h.footers⟩, rfl⟩

theorem planRoom_fits (hne : batches ≠ []) :
    (planRoom fixed current batches isOpen entries shape).decision = .fits
      ↔ ∃ projection, fixed.project (current.retryEntries + entries) = some projection
        ∧ HasRoom fixed current batches isOpen shape projection := by
  unfold planRoom
  cases hretry : fixed.project (current.retryEntries + entries) with
  | none =>
    refine iff_of_false nofun ?_
    rintro ⟨projection, h, _⟩
    cases h
  | some projection =>
    dsimp only
    split
    next hreasons =>
      refine iff_of_false nofun ?_
      rintro ⟨other, heq, hroom⟩
      cases heq
      exact hreasons ((rollReasons_eq_empty hne).mpr hroom)
    next hreasons =>
      exact iff_of_true rfl ⟨projection, rfl, (rollReasons_eq_empty hne).mp (not_not.mp hreasons)⟩

theorem planRoom_eq (hne : batches ≠ [])
    (hretry : fixed.project (current.retryEntries + entries) = some projection)
    (hroom : HasRoom fixed current batches isOpen shape projection) :
    planRoom fixed current batches isOpen entries shape
      = fittingPlan current batches isOpen entries shape projection := by
  unfold planRoom
  rw [hretry]
  dsimp only
  rw [if_neg (not_not.mpr ((rollReasons_eq_empty hne).mpr hroom))]

/-- **A plan fits** exactly when the group is one an empty segment could take and this one has room. -/
theorem plan_fits {retryEntries : Option Nat} :
    (planSegmentCapacity fixed current batches isOpen retryEntries = .ok plan ∧ plan.decision = .fits)
      ↔ ∃ shape projection,
        planShape fixed current batches isOpen (retryEntries.getD batches.length) = .ok shape
        ∧ fixed.project (current.retryEntries + retryEntries.getD batches.length) = some projection
        ∧ HasRoom fixed current batches isOpen shape projection
        ∧ plan = fittingPlan current batches isOpen (retryEntries.getD batches.length) shape
            projection := by
  unfold planSegmentCapacity
  dsimp only
  cases hshape : planShape fixed current batches isOpen (retryEntries.getD batches.length) with
  | error exit =>
    refine iff_of_false ?_ ?_
    · cases exit with
      | failed code =>
        rintro ⟨h, _⟩
        cases h
      | impossible output =>
        rintro ⟨h, hfits⟩
        cases h
        cases hfits
    · rintro ⟨shape, projection, h, _⟩
      cases h
  | ok shape =>
    have hne := (planShape_ok hshape).1.nonempty
    constructor
    · rintro ⟨h, hfits⟩
      cases h
      obtain ⟨projection, hretry, hroom⟩ := (planRoom_fits hne).mp hfits
      exact ⟨shape, projection, rfl, hretry, hroom, planRoom_eq hne hretry hroom⟩
    · rintro ⟨shape', projection, heq, hretry, hroom, rfl⟩
      cases heq
      exact ⟨congrArg Except.ok (planRoom_eq hne hretry hroom), rfl⟩

/-- A plan that makes the segment roll passed its first half. -/
theorem plan_rolls {retryEntries : Option Nat}
    (h : planSegmentCapacity fixed current batches isOpen retryEntries = .ok plan)
    (hroll : plan.decision = .rollRequired) :
    Admits fixed current batches isOpen (retryEntries.getD batches.length) := by
  unfold planSegmentCapacity at h
  dsimp only at h
  cases hshape : planShape fixed current batches isOpen (retryEntries.getD batches.length) with
  | error exit =>
    rw [hshape] at h
    cases exit with
    | failed code => cases h
    | impossible output =>
      cases h
      cases hroll
  | ok shape => exact (planShape_ok hshape).1


/-- A position that lies ahead of another by a group: its blocks, the footer after them, and the one that
    closes a run before it. -/
structure Ahead (fixed : Constants) (current : Position) (batches : List Batch) (isOpen : Bool)
    (entries : Nat) (counted : Position) : Prop where
  physical : counted.physical = current.physical + recordsOf batches
  bytes : counted.bytes
    = alignUp (startOf fixed current isOpen + blocksBytes batches + 248) fixed.unit
  blocks : counted.blocks = current.blocks + batches.length
  footers : counted.footers = current.footers + footersOf isOpen
  retryEntries : counted.retryEntries = current.retryEntries + entries

/-- **What a plan that fits counted**: the end of the group from where it was planned, and the root of a
    seal after it within the extent. -/
structure Counted (fixed : Constants) (current : Position) (batches : List Batch) (isOpen : Bool)
    (entries : Nat) (plan : CapacityPlan) (counted : Position) : Prop where
  admits : Admits fixed current batches isOpen entries
  ends : plan.endPosition = some counted
  closing : current.bytes + plan.closing = startOf fixed current isOpen
  ahead : Ahead fixed current batches isOpen entries counted
  blocks : counted.blocks ≤ fixed.limits.maximumBlocks
  footers : counted.footers ≤ 4294967295
  room : ∃ projection, fixed.project counted.retryEntries = some projection
    ∧ counted.bytes + projection.root ≤ fixed.descriptor.maximumDataBytes
    ∧ plan.disk.data = counted.bytes + projection.root ∧ plan.disk.retryBundle = projection.disk

theorem plan_counted {retryEntries : Option Nat}
    (h : planSegmentCapacity fixed current batches isOpen retryEntries = .ok plan)
    (hfits : plan.decision = .fits) : ∃ counted,
      Counted fixed current batches isOpen (retryEntries.getD batches.length) plan counted := by
  obtain ⟨shape, projection, hshape, hretry, hroom, rfl⟩ := plan_fits.mp ⟨h, hfits⟩
  obtain ⟨hadmits, hshaped⟩ := planShape_ok hshape
  refine ⟨_, hadmits, rfl, hshaped.closing, ⟨?_, hshaped.incoming, rfl, rfl, rfl⟩, hroom.blocks,
    hroom.footers, projection, hretry, hroom.bytes, rfl, rfl⟩
  exact congrArg _ hshaped.records

end KwaqueStorage.Capacity
