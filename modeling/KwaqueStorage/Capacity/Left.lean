import KwaqueStorage.Capacity.Sealable

/-!
# What is left of a segment

Whoever owns the segments asks how many bytes of blocks the next group of one may hold, to make the
successor before the room is gone. `left` does not plan a group for that: it takes the root of the next
seal and the footers off the extent by a rounding of its own. For a group of one block the two agree to
the byte, at every residue and with or without a run held open, as long as the group is one that some
segment could take. A group whose footer would not fit the page limit where it falls is impossible
whatever is left.

The deadline of the segment, and the writer a restart found, of which nothing is left, are not modelled.
-/

namespace KwaqueStorage.Capacity

open Extent (u64Max)
open Layout Lib RetryPages

/-- `segment_left`. -/
structure SegmentLeft where
  bytes : Nat := 0
  blocks : Nat := 0
  retryEntries : Nat := 0
  deriving DecidableEq

section

variable (fixed : Constants)

/-- The most entries a seal may publish. -/
def Constants.sealFacts : Nat :=
  min fixed.limits.maximumRetryEntries fixed.policy.config.maxObjectEntries

/-- The entries a batch of a stream new to the segment adds, while its seal can take one more. -/
def Writer.nextEntries (w : Writer) : Nat :=
  if w.reserved.endPosition.retryEntries < fixed.sealFacts then 1 else 0

/-- Where the blocks of the next group would begin: past a footer that closes a run held open. -/
def Writer.nextStart (w : Writer) (footer : Nat) : Option Nat :=
  if w.run.isSome then
    (checkedAdd w.reserved.endPosition.bytes (footer + fixed.unit - 1)).map
      fun past => past / fixed.unit * fixed.unit
  else some w.reserved.endPosition.bytes

/-- `segment_writer::left`. -/
def Writer.left (w : Writer) : SegmentLeft :=
  let reserved := w.reserved.endPosition
  match fixed.project (reserved.retryEntries + w.nextEntries fixed), fixed.footerBytes with
  | some projection, some footer =>
    if reserved.footers = 4294967295 ∨ fixed.limits.maximumBlocks ≤ reserved.blocks
        ∨ fixed.descriptor.maximumDataBytes ≤ projection.root then {}
    else
      let room := (fixed.descriptor.maximumDataBytes - projection.root) / fixed.unit * fixed.unit
      match (w.nextStart fixed footer).bind (checkedAdd · footer) with
      | none => {}
      | some taken =>
        if room ≤ taken then {}
        else
          { bytes := room - taken
            blocks := fixed.limits.maximumBlocks - reserved.blocks
            retryEntries := fixed.sealFacts - reserved.retryEntries }
  | _, _ => {}

end

variable {fixed : Constants} {w w' : Writer}

/-- A footer takes as many bytes in every segment, before its padding. -/
theorem make_footerBytes {descriptor : SegmentDescriptor}
    {dataStart metadataAlignment finalizationBytes footer : Nat} {limits : AdmissionLimits}
    {policy : Limits} {costs : Costs}
    (h : Constants.make descriptor dataStart limits policy costs metadataAlignment finalizationBytes
      = .ok fixed) (hfooter : fixed.footerBytes = some footer) :
    footer = 248 ∧ fixed.limits.maximumBlocks ≤ 4294967295 := by
  unfold Constants.make AdmissionLimits.validate at h
  simp only [bind_eq_ok, require_eq_ok, exists_const] at h
  obtain ⟨⟨_, hblocks, _⟩, _, _, h⟩ := h
  split at h
  next =>
    cases h
    cases hfooter
  next =>
    cases h
    refine ⟨?_, hblocks⟩
    unfold footerConstants at hfooter
    dsimp only at hfooter
    split at hfooter
    next => cases hfooter
    next layout hlayout =>
      obtain ⟨_, _, _, _, rfl⟩ := AlignedLayout.make_eq_ok.mp hlayout
      have hbytes : ∀ padding, 32 + (216 + 0 + padding) - padding = 248 := by
        intro padding
        omega
      split at hfooter
      next => cases hfooter
      next =>
        split at hfooter
        next =>
          cases hfooter
          exact hbytes _
        next =>
          cases hfooter
          exact hbytes _

/-! ## The records of a segment -/

/-- Each block keeps few records. -/
def Sparse (w : Writer) : Prop := w.reserved.endPosition.physical ≤ 4096 * w.reserved.endPosition.blocks

theorem sparse_reachable (hstart : fixed.dataStart % fixed.unit = 0)
    (horigin : fixed.descriptor.physicalOrigin = 0) (h : (system fixed).Reachable w) : Sparse w := by
  refine h.invariant ?_ ?_
  · rintro w ⟨logical, rfl⟩
    change fixed.descriptor.physicalOrigin ≤ 4096 * 0
    omega
  · intro w action w' hreach hsparse _ hstep
    have hkept := kept_reachable hstart hreach
    unfold Sparse at hsparse ⊢
    rcases step_cases hstep with ⟨batches, retryEntries, prepared, _, hprepared, rfl⟩ | ⟨_, hclose⟩
      | ⟨index, children, hold, granted, prepared, frozen, _, hmem, hfrozen, rfl⟩
    · exact hsparse
    · unfold Writer.closeRun at hclose
      split at hclose
      next =>
        cases hclose
        exact hsparse
      next =>
        simp only [bind_eq_ok, pure_eq_ok] at hclose
        obtain ⟨cut, hcut, rfl⟩ := hclose
        obtain ⟨bytes, rfl, _⟩ := makeClosing_eq hcut
        exact hsparse
    · obtain ⟨plan, counted, hcounted, hahead, hwithin, _⟩ :=
        hkept.freeze (hkept.prepared prepared hmem) hfrozen
      obtain ⟨hphysical, _, _, hblocks, _⟩ := Position.within_eq_true.mp hwithin
      obtain ⟨staging, hfit⟩ := hcounted.admits.fits
      have hrecords := recordsOf_le hfit
      rw [hphysical, hblocks, hahead.physical, hahead.blocks]
      omega

/-! ## Exactness -/

/-- A plan that is not impossible passed its first half. -/
theorem plan_possible {current : Position} {batches : List Batch} {isOpen : Bool}
    {retryEntries : Option Nat} {plan : CapacityPlan}
    (h : planSegmentCapacity fixed current batches isOpen retryEntries = .ok plan)
    (hpossible : plan.decision ≠ .impossible) :
    ∃ shape, planShape fixed current batches isOpen (retryEntries.getD batches.length) = .ok shape
      ∧ plan = planRoom fixed current batches isOpen (retryEntries.getD batches.length) shape := by
  unfold planSegmentCapacity at h
  dsimp only at h
  split at h
  next => cases h
  next =>
    cases h
    exact absurd rfl hpossible
  next shape hshape =>
    cases h
    exact ⟨shape, hshape, rfl⟩

/-- Where the next group begins, as `left` counts it. -/
theorem nextStart_eq {footer start : Nat} (hfooter : footer = 248) :
    (w.nextStart fixed footer).bind (checkedAdd · footer) = some start
      ↔ start = startOf fixed w.reserved.endPosition w.run.isSome + 248
        ∧ (w.run.isSome = true → w.reserved.endPosition.bytes + 248 + (fixed.unit - 1) ≤ u64Max)
        ∧ startOf fixed w.reserved.endPosition w.run.isSome + 248 ≤ u64Max := by
  subst hfooter
  have hpos := fixed.unit_pos
  have hunit : 248 + fixed.unit - 1 = 248 + (fixed.unit - 1) := by omega
  unfold Writer.nextStart startOf
  split
  next hrun =>
    rw [hunit]
    simp only [Option.bind_eq_some_iff, Option.map_eq_some_iff, checkedAdd_eq_some]
    rw [alignUp_eq_div hpos, Nat.add_assoc]
    constructor
    · rintro ⟨_, ⟨_, ⟨rfl, hfits⟩, rfl⟩, rfl, hle⟩
      rw [← Nat.add_assoc] at hle ⊢
      exact ⟨rfl, fun _ => by omega, hle⟩
    · rintro ⟨rfl, hfits, hle⟩
      have hmost := hfits hrun
      exact ⟨_, ⟨_, ⟨rfl, by omega⟩, rfl⟩, rfl, hle⟩
  next hrun =>
    simp only [Option.bind_some, checkedAdd_eq_some]
    constructor
    · rintro ⟨rfl, hle⟩
      exact ⟨rfl, fun h => absurd h hrun, hle⟩
    · rintro ⟨rfl, _, hle⟩
      exact ⟨rfl, hle⟩

/-- **What `left` answers**: some bytes are left for a block exactly when the counts have room for it, a seal
    after it has a root, and with a footer it ends within the last boundary before that root. -/
theorem le_left_iff {bytes : Nat} (hbytes : 0 < bytes) (hfooter : fixed.footerBytes = some 248)
    (haligned : w.run = none → w.reserved.endPosition.bytes % fixed.unit = 0) :
    bytes ≤ (w.left fixed).bytes
      ↔ w.reserved.endPosition.footers ≠ 4294967295
        ∧ w.reserved.endPosition.blocks < fixed.limits.maximumBlocks
        ∧ ∃ projection, fixed.project (w.reserved.endPosition.retryEntries + w.nextEntries fixed)
            = some projection
          ∧ projection.root < fixed.descriptor.maximumDataBytes
          ∧ startOf fixed w.reserved.endPosition w.run.isSome + bytes + 248
            ≤ (fixed.descriptor.maximumDataBytes - projection.root) / fixed.unit * fixed.unit := by
  have hpos := fixed.unit_pos
  have hmaximum := fixed.descriptor.maximum_fits
  unfold Writer.left
  dsimp only
  rw [hfooter]
  cases hproject : fixed.project (w.reserved.endPosition.retryEntries + w.nextEntries fixed) with
  | none =>
    refine iff_of_false (fun h => ?_) ?_
    · exact absurd h (not_le.mpr hbytes)
    · rintro ⟨_, _, projection, h, _⟩
      cases h
  | some projection =>
    dsimp only
    have hroom := Nat.div_mul_le_self (fixed.descriptor.maximumDataBytes - projection.root) fixed.unit
    split
    next hfull =>
      refine iff_of_false (fun h => absurd h (not_le.mpr hbytes)) ?_
      rintro ⟨hfooters, hblocks, other, h, hroot, _⟩
      cases h
      rcases hfull with hfull | hfull | hfull
      · exact hfooters hfull
      · omega
      · omega
    next hopen =>
      simp only [not_or, not_le] at hopen
      cases htaken : (w.nextStart fixed 248).bind (checkedAdd · 248) with
      | none =>
        refine iff_of_false (fun h => absurd h (not_le.mpr hbytes)) ?_
        rintro ⟨_, _, other, h, hroot, hend⟩
        cases h
        -- what ends within the extent does not pass the largest position either
        have hstart : startOf fixed w.reserved.endPosition w.run.isSome % fixed.unit = 0 := by
          refine startOf_mod ?_
          cases hrun : w.run with
          | none => exact .inr (haligned hrun)
          | some begin_ => exact .inl rfl
        refine nomatch htaken.symm.trans ((nextStart_eq rfl).mpr ⟨rfl, fun hrun => ?_, by omega⟩)
        have hstep : startOf fixed w.reserved.endPosition w.run.isSome + fixed.unit
            ≤ (fixed.descriptor.maximumDataBytes - projection.root) / fixed.unit * fixed.unit :=
          next_boundary_le hstart (Nat.mul_mod_left _ _) (by omega)
        have hpast : w.reserved.endPosition.bytes + 248
            ≤ startOf fixed w.reserved.endPosition w.run.isSome := by
          rw [startOf, if_pos hrun]
          exact le_alignUp
        omega
      | some taken =>
        obtain ⟨rfl, _⟩ := (nextStart_eq rfl).mp htaken
        dsimp only
        split
        next hless =>
          refine iff_of_false (fun h => absurd h (not_le.mpr hbytes)) ?_
          rintro ⟨_, _, other, h, _, hend⟩
          cases h
          omega
        next hmore =>
          constructor
          · intro hle
            refine ⟨hopen.1, hopen.2.1, projection, rfl, hopen.2.2, ?_⟩
            dsimp only at hle
            omega
          · rintro ⟨_, _, other, h, _, hend⟩
            cases h
            dsimp only
            omega

/-- **`left` and the plan agree on a block**, if some segment could take it. -/
theorem fits_iff_le_left {descriptor : SegmentDescriptor}
    {dataStart metadataAlignment finalizationBytes : Nat} {limits : AdmissionLimits} {policy : Limits}
    {costs : Costs} {batch : Batch} {plan : CapacityPlan}
    (hmake : Constants.make descriptor dataStart limits policy costs metadataAlignment finalizationBytes
      = .ok fixed) (hreach : (system fixed).Reachable w)
    (hfooters : w.run.isSome = true → w.reserved.endPosition.footers ≠ 4294967294)
    (hplan : planSegmentCapacity fixed w.reserved.endPosition [batch] w.run.isSome
      (some (w.nextEntries fixed)) = .ok plan)
    (hpossible : plan.decision ≠ .impossible) :
    plan.decision = .fits ↔ batch.blockBytes ≤ (w.left fixed).bytes := by
  obtain ⟨⟨hstart, horigin⟩, _⟩ := make_constants hmake
  have hkept := kept_reachable hstart hreach
  have hsparse := sparse_reachable hstart horigin hreach
  obtain ⟨shape, hshape, rfl⟩ := plan_possible hplan hpossible
  obtain ⟨hadmits, hshaped⟩ := planShape_ok hshape
  obtain ⟨footer, hfooter⟩ := Option.isSome_iff_exists.mp hadmits.able.2
  obtain ⟨rfl, hmost⟩ := make_footerBytes hmake hfooter
  have hbytes : 0 < batch.blockBytes := by
    unfold Batch.blockBytes
    omega
  have hblocks : blocksBytes [batch] = batch.blockBytes := List.sum_singleton
  have hincoming := hshaped.incoming
  rw [hblocks] at hincoming
  rw [planRoom_fits (List.cons_ne_nil _ _), le_left_iff hbytes hfooter hkept.aligned]
  have hends : ∀ root, w.reserved.endPosition.bytes + shape.incoming + root
        ≤ fixed.descriptor.maximumDataBytes
      ↔ root < fixed.descriptor.maximumDataBytes
        ∧ startOf fixed w.reserved.endPosition w.run.isSome + batch.blockBytes + 248
          ≤ (fixed.descriptor.maximumDataBytes - root) / fixed.unit * fixed.unit := by
    intro root
    have hup := @le_alignUp (startOf fixed w.reserved.endPosition w.run.isSome + batch.blockBytes + 248)
      fixed.unit
    rw [hincoming, ← alignUp_le_iff fixed.unit_pos]
    omega
  constructor
  · rintro ⟨projection, hprojection, hroom⟩
    have hcount := hroom.footers
    have hone : 1 ≤ footersOf w.run.isSome := by
      unfold footersOf
      split
      next => decide
      next => decide
    refine ⟨by omega, hroom.blocks, projection, hprojection, (hends projection.root).mp hroom.bytes⟩
  · rintro ⟨hcount, hless, projection, hprojection, hroom⟩
    refine ⟨projection, hprojection, ?_, hless, ?_, (hends projection.root).mpr hroom⟩
    · obtain ⟨staging, hfit⟩ := hadmits.fits
      have hrecords := recordsOf_le hfit
      unfold Sparse at hsparse
      rw [hshaped.records]
      change _ ≤ 18446744073709551615
      rw [List.length_singleton] at hrecords
      omega
    · have hclosed := hkept.footers
      unfold Writer.closedFooters at hclosed
      unfold footersOf
      split
      next hrun =>
        rw [if_pos hrun] at hclosed
        have hslip := hfooters hrun
        omega
      next hrun =>
        rw [if_neg hrun] at hclosed
        omega

/-- **What is left is exact.** In every state of a segment's writer, for every group of one block that adds a
    retry entry, or none when the seal can take no more: if some bytes are left, a group that some segment
    could take fits exactly when its block takes no more than these; if none are left, no group fits. The
    last two of the footers a segment can count are left out where a run is held open. -/
theorem segment_left_exact {descriptor : SegmentDescriptor}
    {dataStart metadataAlignment finalizationBytes : Nat} {limits : AdmissionLimits} {policy : Limits}
    {costs : Costs} {batch : Batch} {plan : CapacityPlan}
    (hmake : Constants.make descriptor dataStart limits policy costs metadataAlignment finalizationBytes
      = .ok fixed) (hreach : (system fixed).Reachable w)
    (hplan : planSegmentCapacity fixed w.reserved.endPosition [batch] w.run.isSome
      (some (w.nextEntries fixed)) = .ok plan) :
    (0 < (w.left fixed).bytes → plan.decision ≠ .impossible →
        (w.run.isSome = true → w.reserved.endPosition.footers ≠ 4294967294) →
        (plan.decision = .fits ↔ batch.blockBytes ≤ (w.left fixed).bytes))
      ∧ ((w.left fixed).bytes = 0 → plan.decision ≠ .fits) := by
  refine ⟨fun _ hpossible hfooters => fits_iff_le_left hmake hreach hfooters hplan hpossible, ?_⟩
  intro hnone hfits
  have hpossible : plan.decision ≠ .impossible := by
    rw [hfits]
    exact nofun
  have hfooters : w.run.isSome = true → w.reserved.endPosition.footers ≠ 4294967294 := by
    intro hrun
    obtain ⟨shape, projection, _, _, hroom, _⟩ := plan_fits.mp ⟨hplan, hfits⟩
    have hcount := hroom.footers
    rw [hrun, footersOf, if_pos rfl] at hcount
    omega
  have hle := (fits_iff_le_left hmake hreach hfooters hplan hpossible).mp hfits
  rw [hnone] at hle
  unfold Batch.blockBytes at hle
  omega

/-- A group of one block was frozen without a footer. -/
def heldWriter : Writer := ⟨⟨⟨1, 1, 988, 1, 0, 1⟩, none⟩, some 512, []⟩

theorem heldWriter_reachable : (system exampleConstants).Reachable heldWriter := by
  refine @System.Run.of_exec _ _ _ (Writer.start exampleConstants 0) _ [.prepare [exampleBatch 0 300] none,
    .freeze 0 [exampleBatch 0 300] 4096 true] (.init ⟨0, rfl⟩) ?_
  decide +kernel

/-- Witness: with a run held open, the block that takes what is left to the byte fits. -/
theorem example_left_exact :
    (heldWriter.left exampleConstants).bytes = 1800
    ∧ ∃ plan, planSegmentCapacity exampleConstants heldWriter.reserved.endPosition
          [exampleBatch 1 1624] heldWriter.run.isSome (some (heldWriter.nextEntries exampleConstants))
        = .ok plan
      ∧ plan.decision = .fits := by
  have hleft : (heldWriter.left exampleConstants).bytes = 1800 := by decide +kernel
  obtain ⟨plan, hplan, hpossible⟩ : ∃ plan, planSegmentCapacity exampleConstants
      heldWriter.reserved.endPosition [exampleBatch 1 1624] heldWriter.run.isSome
      (some (heldWriter.nextEntries exampleConstants)) = .ok plan ∧ plan.decision ≠ .impossible :=
    ⟨_, rfl, nofun⟩
  refine ⟨hleft, plan, hplan, ?_⟩
  refine ((segment_left_exact example_make heldWriter_reachable hplan).1 ?_ hpossible ?_).mpr ?_
  · rw [hleft]
    decide
  · intro _
    decide
  · rw [hleft]
    decide

/-- Pages of one unit. -/
def onePagePolicy : Limits := ⟨{ maxPageBytes := 512 }, by decide⟩

def onePageConstants : Constants :=
  { exampleConstants with policy := onePagePolicy, closingStaging := none, retryWireCapacity := 2 }

theorem onePage_make : Constants.make exampleSegment 512 {} onePagePolicy exampleCosts 512 8388608
    = .ok onePageConstants := by
  have hwire : wireCapacityFor onePagePolicy 512 = 2 := by decide +kernel
  have hmake : Constants.make exampleSegment 512 {} onePagePolicy exampleCosts 512 8388608
      = .ok { onePageConstants with retryWireCapacity := wireCapacityFor onePagePolicy 512 } := rfl
  rw [hmake, hwire]
  rfl

/-- **A block within what is left that no segment takes.** With pages of one unit, the footer after a block
    of 476 bytes would begin in the last 248 bytes of a unit and pad past the page. It is refused although
    2824 bytes are left, and a larger block is taken. -/
theorem footer_past_page :
    Constants.make exampleSegment 512 {} onePagePolicy exampleCosts 512 8388608 = .ok onePageConstants
    ∧ ((Writer.start onePageConstants 0).left onePageConstants).bytes = 2824
    ∧ (exampleBatch 0 300).blockBytes = 476
    ∧ (exampleBatch 0 300).blockBytes ≤ (blockLimits onePagePolicy).maxEncodedBytes
    ∧ (planSegmentCapacity onePageConstants (Writer.start onePageConstants 0).reserved.endPosition
        [exampleBatch 0 300] false (some ((Writer.start onePageConstants 0).nextEntries onePageConstants))).map
          CapacityPlan.decision = .ok .impossible
    ∧ (planSegmentCapacity onePageConstants (Writer.start onePageConstants 0).reserved.endPosition
        [exampleBatch 0 500] false (some ((Writer.start onePageConstants 0).nextEntries onePageConstants))).map
          CapacityPlan.decision = .ok .fits := by
  refine ⟨onePage_make, ?_, rfl, ?_, ?_, ?_⟩
  · decide +kernel
  · decide
  · decide +kernel
  · decide +kernel

end KwaqueStorage.Capacity
