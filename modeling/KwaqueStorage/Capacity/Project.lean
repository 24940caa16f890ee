import KwaqueStorage.RetryPages.Page

/-!
# What a seal's retry bundle takes

Before a segment takes a group, it projects what sealing it afterwards would write: the root in its data
file and the retry pages beside it. The projection searches for the most entries a page may hold such
that every object of the bundle can be staged, encoded and validated within the memory the seal is given.
What an allocation costs is told by a charge function, and need not grow with what is asked for.
-/

namespace KwaqueStorage.Capacity

open Extent (u64Max)
open Layout Lib RetryPages

/-- What an allocation is charged, and the sizes in memory of what the planner counts. -/
structure Costs where
  charge : Nat → Nat
  pageRef : Nat
  completedRetry : Nat
  fragmentDescriptor : Nat
  deleterControl : Nat

/-- `segment_admission_limits`. -/
structure AdmissionLimits where
  maximumBlocks : Nat := 65536
  maximumRetryEntries : Nat := 65536
  maximumRetryPages : Nat := 256
  metadataBytes : Nat := 65536
  workingBytes : Nat := 8388608
  executionBytes : Nat := 65536
  deriving DecidableEq

/-- `maximum_file_io_bytes`. -/
def maximumFileIoBytes : Nat := 67108864

/-- `maximum_contiguous_allocation_bytes`. -/
def maximumContiguousAllocationBytes : Nat := 131072

/-- `segment_admission_limits::validate`. Its counts are 32-bit. -/
def AdmissionLimits.validate (limits : AdmissionLimits) : Except Errc Unit :=
  require (0 < limits.maximumBlocks ∧ limits.maximumBlocks ≤ 4294967295
    ∧ 0 < limits.maximumRetryEntries ∧ 0 < limits.maximumRetryPages
    ∧ limits.maximumRetryEntries ≤ maximumObjectEntries
    ∧ limits.maximumRetryPages ≤ maximumObjectPages
    ∧ 0 < limits.metadataBytes ∧ limits.metadataBytes ≤ 1048576
    ∧ limits.metadataBytes ≤ limits.workingBytes ∧ limits.workingBytes ≤ maximumFileIoBytes
    ∧ 4096 ≤ limits.executionBytes ∧ limits.executionBytes ≤ maximumContiguousAllocationBytes)
    .invalidArgument

section

variable (costs : Costs) (policy : Limits)

/-- `charged`: nothing costs nothing, and a charge is never below the request nor above one
    allocation. -/
def charged (request : Nat) : Option Nat :=
  if request = 0 then some 0
  else if costs.charge request < request
      ∨ policy.config.maxAllocationBytes < costs.charge request then none
  else some (costs.charge request)

/-- `padded_prefix_cost`. -/
structure PrefixCost where
  backing : Nat
  fragments : Nat
  deriving DecidableEq

/-- `plan_padded_prefix`: one combined allocation when it fits and costs no more than two. -/
def planPaddedPrefix (fixed : Nat) : Option PrefixCost :=
  if fixed = 0 ∨ 320 < fixed then none
  else
    let combined := charged costs policy (envelopePrefixBytes + fixed)
    match charged costs policy envelopePrefixBytes, charged costs policy fixed with
    | some header, some fields =>
      match combined with
      | some one => if one ≤ header + fields then some ⟨one, 1⟩ else some ⟨header + fields, 2⟩
      | none => some ⟨header + fields, 2⟩
    | _, _ => combined.map fun one => ⟨one, 1⟩

/-- `staging_allocation`. -/
structure Staging where
  additional : Nat
  backing : Nat
  fragments : Nat
  deriving DecidableEq

/-- `staging_cost`: what encoding an object around so many fragments of a child allocates. -/
def stagingCost (childFragments fixed : Nat) (layout : AlignedLayout) : Option Staging := do
  let first ← planPaddedPrefix costs policy fixed
  let padding := if layout.paddingBytes ≠ 0 then 1 else 0
  let nodes := childFragments + first.fragments + padding
  guard (nodes ≤ policy.config.maxBufferFragments)
  let pad ← charged costs policy layout.paddingBytes
  let descriptors ← charged costs policy (nodes * costs.fragmentDescriptor)
  let single ← charged costs policy costs.fragmentDescriptor
  let control ← charged costs policy costs.deleterControl
  let backing := first.backing + pad
  let extra := backing + descriptors + (first.fragments + padding) * (single + control)
  guard (layout.paddingBytes + fixed ≤ layout.bodyBytes)
  let tail := layout.bodyBytes - layout.paddingBytes - fixed
  guard (backing + tail ≤ u64Max ∧ extra + tail ≤ u64Max
    ∧ extra + tail ≤ policy.config.maxOperationBytes ∧ backing + tail ≤ policy.config.maxRetainedBytes)
  some ⟨extra, backing, nodes⟩

/-- `metadata_charge`. -/
def metadataCharge (count width remaining : Nat) : Option Nat :=
  if count = 0 then some 0
  else if maximumContiguousAllocationBytes / width < count then none
  else if costs.charge (count * width) < count * width ∨ remaining < costs.charge (count * width)
      ∨ policy.config.maxAllocationBytes < costs.charge (count * width) then none
  else some (costs.charge (count * width))

/-- `object_fits_workspace`. -/
def objectFitsWorkspace (fixed tail decoded : Nat) (layout : AlignedLayout)
    (working metadataLimit : Nat) : Bool :=
  match stagingCost costs policy (if tail = 0 then 0 else 1) fixed layout with
  | none => false
  | some extra =>
    let nodes := extra.fragments
    let descriptors := costs.charge (nodes * costs.fragmentDescriptor)
    let controls := costs.charge costs.deleterControl
    let backing := if tail = 0 then 0 else costs.charge tail
    let retained := extra.backing + backing
    let metadata := decoded + 3 * (descriptors + nodes * controls)
    let needed := extra.additional + backing + decoded + 3 * (descriptors + nodes * controls)
    decide (tail ≤ backing ∧ nodes * costs.fragmentDescriptor ≤ descriptors
      ∧ costs.deleterControl ≤ controls ∧ backing ≤ policy.config.maxAllocationBytes
      ∧ descriptors ≤ policy.config.maxAllocationBytes
      ∧ controls ≤ policy.config.maxAllocationBytes
      ∧ needed ≤ working ∧ needed ≤ policy.config.maxOperationBytes
      ∧ retained ≤ policy.config.maxRetainedBytes
      ∧ metadata ≤ min metadataLimit policy.config.maxMetadataBytes)

/-- `retry_projection`. -/
structure Projection where
  pages : Nat
  entriesPerPage : Nat
  root : Nat
  disk : Nat
  deriving DecidableEq

/-- `wire_capacity_for`. -/
def wireCapacityFor (alignment : Nat) : Nat :=
  match retryPageCapacity envelopePrefixBytes alignment policy with
  | .ok capacity => capacity
  | .error _ => 0

/-- `sealed_footer_fixed_bytes`. -/
def sealedFooterFixedBytes : Nat := 256

/-- `page_ref_wire_bytes`. -/
def pageRefWireBytes : Nat := 48

/-- The layout of a sealed root of so many pages. -/
def sealedRootLayout (pages alignment : Nat) : Except Errc AlignedLayout :=
  AlignedLayout.make ⟨envelopePrefixBytes, sealedFooterFixedBytes, pages * pageRefWireBytes⟩ alignment
    policy policy.page

/-- How one page capacity fares in the search. -/
inductive Attempt
  /-- No smaller capacity is tried. -/
  | refused
  /-- The next smaller one is. -/
  | next
  | fits (projection : Projection)
  deriving DecidableEq

section Search

variable (entries alignment : Nat) (limits : AdmissionLimits) (working : Nat)

/-- What is left of the metadata for a seal. -/
def sealMetadata : Nat := min limits.metadataBytes policy.config.maxMetadataBytes

/-- Whether a page of so many entries can be staged beside the references of the root. -/
def pageFits (count refs : Nat) (layout : AlignedLayout) : Bool :=
  match metadataCharge costs policy count costs.completedRetry (sealMetadata policy limits - refs) with
  | none => false
  | some memory =>
    objectFitsWorkspace costs policy retryPageFixedBytes (count * completedRetryWireBytes)
      (memory + refs) layout working (sealMetadata policy limits)

/-- The last page, which holds what no full page does: none when every page is full. -/
def tailPage (tailEntries refs : Nat) : Attempt ⊕ Nat :=
  if tailEntries = 0 then .inr 0
  else
    match retryPageLayout envelopePrefixBytes tailEntries alignment policy with
    | .error _ => .inl .refused
    | .ok layout =>
      if pageFits costs policy limits working tailEntries refs layout then .inr layout.encodedBytes
      else .inl .next

/-- One turn of the search of `project_retries`, at a page capacity. -/
def tryCapacity (capacity : Nat) : Attempt :=
  let pages := (entries + capacity - 1) / capacity
  if min limits.maximumRetryPages policy.config.maxObjectPages < pages then .refused
  else
    match metadataCharge costs policy pages costs.pageRef (sealMetadata policy limits) with
    | none => .next
    | some refs =>
      match metadataCharge costs policy (min entries capacity) costs.completedRetry
          (sealMetadata policy limits - refs) with
      | none => .next
      | some memory =>
        match sealedRootLayout policy pages alignment with
        | .error _ => .refused
        | .ok root =>
          if !objectFitsWorkspace costs policy sealedFooterFixedBytes (pages * pageRefWireBytes) refs
              root working (sealMetadata policy limits) then .next
          else
            match retryPageLayout envelopePrefixBytes capacity alignment policy with
            | .error _ => .refused
            | .ok full =>
              if entries ≠ 0 ∧ !objectFitsWorkspace costs policy retryPageFixedBytes
                  (capacity * completedRetryWireBytes) (memory + refs) full working
                  (sealMetadata policy limits) then .next
              else
                match tailPage costs policy alignment limits working (entries % capacity) refs with
                | .inl attempt => attempt
                | .inr tail =>
                  .fits ⟨pages, capacity, root.encodedBytes,
                    entries / capacity * full.encodedBytes + tail⟩

/-- The search of `project_retries`, downward from a page capacity. -/
def searchCapacity : Nat → Option Projection
  | 0 => none
  | capacity + 1 =>
    match tryCapacity costs policy entries alignment limits working (capacity + 1) with
    | .refused => none
    | .next => searchCapacity capacity
    | .fits projection => some projection

/-- `project_retries`. -/
def projectRetries (wireCapacity : Nat) : Option Projection :=
  if min limits.maximumRetryEntries policy.config.maxObjectEntries < entries then none
  else if wireCapacity = 0 then none
  else searchCapacity costs policy entries alignment limits working (min wireCapacity (max 1 entries))

end Search

end

end KwaqueStorage.Capacity
