import KwaqueStorage.Capacity.Sealable
import KwaqueStorage.Records.Size

/-!
# The disk bound of a segment

A segment is admitted to a device against the most it may come to hold there: its extent, and the retry
bundle of a seal with as many facts as its extent has room for blocks. Blocks pack, so the smallest block
bounds the facts.

The bundle is projected at that one count. A seal of fewer facts may hold them in larger pages, whose
references leave more of the memory, and then pad more: the bound does not cover it. Where the pages of
no smaller count take more than those of the most facts, it covers every plan.
-/

namespace KwaqueStorage.Capacity

open Extent (u64Max)
open Layout Lib RetryPages
open Records (recordEncodedSize)

/-- A record with no key, value or header. -/
def emptyRecord : Records.Record := ⟨{}, none, none, []⟩

/-- `assigned_batch_fixed_bytes`. -/
def assignedBatchFixedBytes : Nat := 184

/-- The most facts a segment could come to hold, if no block is smaller than so many bytes. -/
def mostFacts (descriptor : SegmentDescriptor) (limits : AdmissionLimits) (policy : Limits)
    (block : Nat) : Nat :=
  min (min limits.maximumRetryEntries limits.maximumBlocks)
    (min policy.config.maxObjectEntries (descriptor.maximumDataBytes / block))

/-- The smallest block: its child is one record, uncompressed. -/
def smallestBlock (record : Nat) : Nat :=
  2 * envelopePrefixBytes + segmentBlockFixedBytes + assignedBatchFixedBytes + record

/-- `segment_disk_bound`. -/
def segmentDiskBound (descriptor : SegmentDescriptor) (limits : AdmissionLimits) (policy : Limits)
    (costs : Costs) (finalizationBytes : Nat) : Except Errc Nat := do
  limits.validate
  let record ← expect (recordEncodedSize emptyRecord policy).toOption .invalidArgument
  let unit := descriptor.alignment.bytes
  let projected := projectRetries costs policy
    (mostFacts descriptor limits policy (smallestBlock record.encodedBytes)) unit limits
    finalizationBytes (wireCapacityFor policy unit)
  -- a count of facts no seal could publish is never reached, and the most pages stand in for it
  let pages := min limits.maximumRetryPages policy.config.maxObjectPages
  let page := (policy.config.maxPageBytes / unit + 1) * unit
  expect (checkedAdd descriptor.maximumDataBytes (projected.elim (pages * page) Projection.disk))
    .outOfRange

/-- The bytes of the smallest batch: its envelope, its fixed part and a record with nothing in it. -/
def smallestBatch : Nat := envelopePrefixBytes + assignedBatchFixedBytes + 7

/-- A batch of a sequence: no batch is smaller than one of a single empty record. -/
def Batch.Valid (batch : Batch) : Prop := smallestBatch ≤ batch.size

theorem emptyRecord_size {policy : Limits} {sizes : Records.RecordSizes}
    (h : recordEncodedSize emptyRecord policy = .ok sizes) : sizes.encodedBytes = 7 := by
  unfold recordEncodedSize emptyRecord Records.initialSize Records.finishSize Records.addHeaderSizes
    Records.nullableEncodedSize at h
  simp only [bind_eq_ok, require_eq_ok, exists_const, pure_eq_ok, addOr_eq_ok, Except.ok.injEq] at h
  obtain ⟨_, ⟨_, _, _, ⟨_, rfl⟩, _, ⟨_, rfl⟩, _, ⟨rfl, _⟩, _, ⟨rfl, _⟩, rfl⟩, _, rfl, _, _, ⟨rfl, _⟩, _,
    rfl⟩ := h
  rfl

/-! ## What a writer has taken -/

variable {fixed : Constants} {w w' : Writer}

theorem blocksBytes_ge {batches : List Batch} (h : ∀ batch ∈ batches, batch.Valid) :
    399 * batches.length ≤ blocksBytes batches := by
  induction batches with
  | nil => exact le_refl _
  | cons batch rest ih =>
    have hbatch : 223 ≤ batch.size := h batch (List.mem_cons_self ..)
    have hrest := ih fun other hmem => h other (List.mem_cons_of_mem _ hmem)
    have hbytes : blocksBytes (batch :: rest) = 176 + batch.size + blocksBytes rest := rfl
    rw [hbytes, List.length_cons]
    omega

/-- **Facts and blocks**: each fact was added with a block of its own, and each block takes at least the
    smallest. -/
structure Packed (fixed : Constants) (position : Position) : Prop where
  facts : position.retryEntries ≤ position.blocks
  blocks : fixed.dataStart + 399 * position.blocks ≤ position.bytes

/-- The most facts of a segment, by the smallest block. -/
def Constants.facts (fixed : Constants) : Nat :=
  mostFacts fixed.descriptor fixed.limits fixed.policy (smallestBlock 7)

/-- **The pages of no smaller count take more**: if a seal of so many entries, fewer than the most facts,
    and one of the most facts can be projected, the first takes no more on the device. -/
def Modest (fixed : Constants) (entries : Nat) : Prop :=
  ∀ projection most, entries < fixed.facts → fixed.project entries = some projection →
    fixed.project fixed.facts = some most → projection.disk ≤ most.disk

theorem Packed.counted {current counted : Position} {batches : List Batch} {isOpen : Bool}
    {entries : Nat} {plan : CapacityPlan} (h : Packed fixed current)
    (hcounted : Counted fixed current batches isOpen entries plan counted)
    (hvalid : ∀ batch ∈ batches, batch.Valid) : Packed fixed counted := by
  have hpast : current.bytes ≤ startOf fixed current isOpen := le_startOf
  have hup := @le_alignUp (startOf fixed current isOpen + blocksBytes batches + 248) fixed.unit
  have hblocks := blocksBytes_ge hvalid
  have hentries := hcounted.admits.entries_le
  have hfacts := h.facts
  have hbytes := h.blocks
  constructor
  · rw [hcounted.ahead.retryEntries, hcounted.ahead.blocks]
    omega
  · rw [hcounted.ahead.bytes, hcounted.ahead.blocks]
    omega

/-- **The bound** of a segment whose work limits admit groups. -/
theorem segmentDiskBound_eq {descriptor : SegmentDescriptor}
    {dataStart metadataAlignment finalizationBytes bound : Nat} {limits : AdmissionLimits}
    {policy : Limits} {costs : Costs}
    (hmake : Constants.make descriptor dataStart limits policy costs metadataAlignment finalizationBytes
      = .ok fixed) (htiny : fixed.tiny = false)
    (h : segmentDiskBound descriptor limits policy costs finalizationBytes = .ok bound) :
    bound = fixed.descriptor.maximumDataBytes + (fixed.project fixed.facts).elim
      (min fixed.limits.maximumRetryPages fixed.policy.config.maxObjectPages
        * ((fixed.policy.config.maxPageBytes / fixed.unit + 1) * fixed.unit)) Projection.disk := by
  obtain ⟨_, rfl, rfl, rfl, rfl, rfl, hwire⟩ := make_constants hmake
  unfold segmentDiskBound at h
  simp only [bind_eq_ok, expect_eq_ok, toOption_eq_some, checkedAdd_eq_some] at h
  obtain ⟨_, _, record, hrecord, rfl, _⟩ := h
  unfold Constants.project Constants.facts
  rw [hwire htiny, emptyRecord_size hrecord]
  rfl

/-- **A plan that fits is within the bound** when the entries after it are modest. -/
theorem Packed.bounded {descriptor : SegmentDescriptor}
    {dataStart metadataAlignment finalizationBytes bound : Nat} {limits : AdmissionLimits}
    {policy : Limits} {costs : Costs} {current counted : Position} {batches : List Batch} {isOpen : Bool}
    {entries : Nat} {plan : CapacityPlan}
    (hmake : Constants.make descriptor dataStart limits policy costs metadataAlignment finalizationBytes
      = .ok fixed)
    (hbound : segmentDiskBound descriptor limits policy costs finalizationBytes = .ok bound)
    (h : Packed fixed current)
    (hcounted : Counted fixed current batches isOpen entries plan counted)
    (hvalid : ∀ batch ∈ batches, batch.Valid)
    (hmodest : Modest fixed (current.retryEntries + entries)) :
    plan.disk.data + plan.disk.retryBundle ≤ bound := by
  rw [segmentDiskBound_eq hmake hcounted.admits.able.1 hbound]
  obtain ⟨projection, hprojection, hroom, hdata, hbundle⟩ := hcounted.room
  obtain ⟨hprojects, hmost⟩ := Constants.project_eq_some hprojection
  rw [hdata, hbundle]
  refine Nat.add_le_add hroom ?_
  cases hfacts : fixed.project fixed.facts with
  | none =>
    -- no seal of the most facts can be projected, and the most pages stand in for it
    have hpage : fixed.policy.config.maxPageBytes
        ≤ (fixed.policy.config.maxPageBytes / fixed.unit + 1) * fixed.unit := by
      rw [Nat.mul_comm]
      exact (Nat.lt_mul_div_succ _ fixed.unit_pos).le
    exact hprojects.disk.trans (Nat.mul_le_mul hprojects.most hpage)
  | some most =>
    rw [Option.elim_some]
    have hpacked := h.counted hcounted hvalid
    have hle : counted.retryEntries ≤ fixed.facts := by
      have hfit : counted.blocks ≤ fixed.descriptor.maximumDataBytes / 399 := by
        rw [Nat.le_div_iff_mul_le (by decide)]
        have := hpacked.blocks
        omega
      have hfew := hpacked.facts
      have hcount := hcounted.blocks
      change counted.retryEntries ≤ min _ (min _ (fixed.descriptor.maximumDataBytes / 399))
      omega
    rcases Nat.lt_or_eq_of_le hle with hlt | heq
    · rw [← hcounted.ahead.retryEntries] at hmodest
      exact hmodest projection most hlt hprojection hfacts
    · rw [heq] at hprojection
      obtain rfl := Option.some.inj (hprojection.symm.trans hfacts)
      exact le_refl _

theorem Packed.start {logical : Nat} : Packed fixed (Writer.start fixed logical).reserved.endPosition :=
  ⟨le_refl _, le_refl _⟩

theorem Packed.closeRun (h : Packed fixed w.reserved.endPosition) (hclose : w.closeRun fixed = .ok w') :
    Packed fixed w'.reserved.endPosition ∧ w'.prepared = w.prepared := by
  unfold Writer.closeRun at hclose
  split at hclose
  next =>
    cases hclose
    exact ⟨h, rfl⟩
  next =>
    simp only [bind_eq_ok, pure_eq_ok] at hclose
    obtain ⟨cut, hcut, rfl⟩ := hclose
    obtain ⟨bytes, rfl, _⟩ := makeClosing_eq hcut
    exact ⟨⟨h.facts, h.blocks.trans (Nat.le_add_right _ _)⟩, rfl⟩

theorem Packed.freeze (h : Packed fixed w.reserved.endPosition) (hkept : Kept fixed w)
    {prepared : Prepared} {children : List Batch} {hold : Nat} {granted : Bool} {frozen : Frozen}
    (hmade : Made fixed prepared)
    (hfreeze : w.freezeOwned fixed prepared children hold granted = .ok frozen)
    (hvalid : ∀ batch ∈ children, batch.Valid) : Packed fixed frozen.reserved.endPosition := by
  obtain ⟨plan, counted, hcounted, hahead, hwithin, htaken, _⟩ := hkept.freeze hmade hfreeze
  obtain ⟨_, _, _, hblocks, hentries⟩ := Position.within_eq_true.mp hwithin
  have hleast := blocksBytes_ge hvalid
  have hcount : prepared.retryEntries ≤ children.length := hcounted.admits.entries_le
  have hfacts := h.facts
  have hbytes := h.blocks
  constructor
  · rw [hentries, hblocks, hahead.retryEntries, hahead.blocks]
    omega
  · rw [hblocks, hahead.blocks]
    omega

end KwaqueStorage.Capacity
