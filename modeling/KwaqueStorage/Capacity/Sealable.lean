import KwaqueStorage.Capacity.Writer

/-!
# A segment stays sealable

A group is taken only when its plan fits, and a plan counts the most the group can take: the footer that
closes a run before it and a footer of its own. However the group then freezes, it ends no later than that;
a footer that is left out now and closes the run later ends no later either, since rounding up to the
boundary twice loses nothing against once. So at every point the reserved bytes, a footer that closes a run
held open and the root of a seal end within the extent.
-/

namespace KwaqueStorage.Capacity

open Extent (u64Max)
open Layout Lib RetryPages

variable {fixed : Constants} {w w' : Writer}

/-- Whether a boundary leaves a run open: groups lie before it and no footer ends it. -/
def Boundary.isOpen (fixed : Constants) (boundary : Boundary) : Bool :=
  boundary.footer.isNone && decide (boundary.endPosition.bytes ≠ fixed.dataStart)

/-- Where a segment ends once the run held open at a boundary, if there is one, is closed. -/
def Boundary.closedEnd (fixed : Constants) (boundary : Boundary) : Nat :=
  startOf fixed boundary.endPosition (boundary.isOpen fixed)

theorem Boundary.closedEnd_of_open {boundary : Boundary} (h : boundary.isOpen fixed = true) :
    boundary.closedEnd fixed = alignUp (boundary.endPosition.bytes + 248) fixed.unit := by
  unfold Boundary.closedEnd
  rw [h]
  rfl

theorem Boundary.closedEnd_of_closed {boundary : Boundary} (h : boundary.isOpen fixed = false) :
    boundary.closedEnd fixed = boundary.endPosition.bytes := by
  unfold Boundary.closedEnd
  rw [h]
  rfl

/-- The footers of a segment once the run held open, if there is one, is closed. -/
def Writer.closedFooters (w : Writer) : Nat :=
  w.reserved.endPosition.footers + if w.run.isSome then 1 else 0

/-- **A boundary that can be sealed**: a seal with the retry entries taken so far has a root, and with the
    run held open closed it ends within the extent. -/
def Boundary.Sealable (fixed : Constants) (boundary : Boundary) : Prop :=
  ∃ projection, fixed.project boundary.endPosition.retryEntries = some projection
    ∧ boundary.closedEnd fixed + projection.root ≤ fixed.descriptor.maximumDataBytes

/-- A prepared group carries the plan that was made for it. -/
structure Made (fixed : Constants) (prepared : Prepared) : Prop where
  planned : planSegmentCapacity fixed prepared.base.endPosition prepared.inputs
    (prepared.base.isOpen fixed) (some prepared.retryEntries) = .ok prepared.plan
  fits : prepared.plan.decision = .fits
  closed : prepared.closed = if prepared.base.isOpen fixed
    then some (prepared.base.close prepared.plan.closing) else none

/-- **What a writer keeps.** -/
structure Kept (fixed : Constants) (w : Writer) : Prop where
  from_start : fixed.dataStart ≤ w.reserved.endPosition.bytes
  untouched : w.reserved.endPosition.bytes = fixed.dataStart → w.reserved.endPosition.retryEntries = 0
  run_iff : w.run.isSome = w.reserved.isOpen fixed
  aligned : w.run = none → w.reserved.endPosition.bytes % fixed.unit = 0
  footers : w.closedFooters ≤ 4294967295
  prepared : ∀ prepared ∈ w.prepared, Made fixed prepared
  sealable : w.reserved.endPosition.bytes ≠ fixed.dataStart → w.reserved.Sealable fixed

/-! ## The pieces of a freeze -/

variable {children : List Batch}

theorem placeBlocks_eq {policy : Limits} {unit position bound : Nat}
    (h : placeBlocks policy unit position children = .ok bound) :
    bound = position + blocksBytes children := by
  induction children generalizing position with
  | nil =>
    cases h
    rfl
  | cons batch rest ih =>
    rw [placeBlocks, bind_eq_ok] at h
    obtain ⟨layout, hlayout, hrest⟩ := h
    obtain ⟨_, _, _, _, rfl⟩ := blockLayout_eq_ok.mp hlayout
    have hbytes : blocksBytes (batch :: rest) = 176 + batch.size + blocksBytes rest := rfl
    rw [ih hrest, hbytes]
    simp only [AlignedLayout.encodedBytes, envelopePrefixBytes, segmentBlockFixedBytes]
    omega

/-- **A run is closed at the boundary after its footer.** -/
theorem makeClosing_eq {before cut : Boundary} (h : makeClosing fixed before = .ok cut) :
    ∃ bytes, cut = before.close bytes
      ∧ before.endPosition.bytes + bytes = alignUp (before.endPosition.bytes + 248) fixed.unit := by
  unfold makeClosing at h
  simp only [bind_eq_ok, expect_eq_ok, toOption_eq_some, pure_eq_ok] at h
  obtain ⟨layout, hlayout, _, _, rfl⟩ := h
  exact ⟨layout.encodedBytes, rfl, Constants.footerAt_end hlayout⟩

theorem blocksBytes_pos (h : children ≠ []) : 0 < blocksBytes children := by
  cases children with
  | nil => exact absurd rfl h
  | cons batch rest =>
    have hbytes : blocksBytes (batch :: rest) = 176 + batch.size + blocksBytes rest := rfl
    omega

/-- A run is closed first only where one is held open. -/
theorem endingOf_closeFirst {before : Boundary} {run : Option Nat} {hold : Nat} {granted : Bool}
    (h : (endingOf fixed before run children hold granted).closeFirst = true) :
    run.isSome = true := by
  cases run with
  | none => cases h
  | some begin_ => rfl

/-- Where a freeze begins: at the reserved end, or past the footer that closes the run held open there. -/
theorem startFor_eq {before start : Boundary} {isOpen : Bool} {ending : Ending}
    (h : startFor fixed before ending = .ok start) (hopen : ending.closeFirst = true → isOpen = true) :
    start.endPosition.bytes ≤ startOf fixed before.endPosition isOpen
      ∧ before.endPosition.bytes ≤ start.endPosition.bytes
      ∧ start.endPosition.physical = before.endPosition.physical
      ∧ start.endPosition.blocks = before.endPosition.blocks
      ∧ start.endPosition.retryEntries = before.endPosition.retryEntries
      ∧ start.endPosition.footers + 1 ≤ before.endPosition.footers + footersOf isOpen := by
  unfold startFor at h
  split at h
  next hclose =>
    obtain ⟨bytes, rfl, hbytes⟩ := makeClosing_eq h
    obtain rfl := hopen hclose
    exact ⟨hbytes.le, Nat.le_add_right _ _, rfl, rfl, rfl, le_refl _⟩
  next =>
    cases h
    refine ⟨le_startOf, le_refl _, rfl, rfl, rfl, ?_⟩
    unfold footersOf
    split
    next => omega
    next => exact le_refl _

theorem footerFor_eq {position : Nat} {ending : Ending} {footer : Option Span}
    (h : footerFor fixed position ending = .ok footer) :
    footer = if ending.footed then some ⟨position, alignUp (position + 248) fixed.unit⟩ else none := by
  unfold footerFor at h
  split at h
  next hfooted =>
    simp only [bind_eq_ok, expect_eq_ok, toOption_eq_some, pure_eq_ok] at h
    obtain ⟨padded, hpadded, rfl⟩ := h
    rw [if_pos hfooted, Constants.footerAt_end hpadded]
  next hfooted =>
    cases h
    rw [if_neg hfooted]

/-- **However a group freezes**, it ends within what lies ahead of the reserved end by a group, also once
    a run it leaves open is closed. -/
theorem layOut_within {before : Boundary} {run : Option Nat} {counted : Position} {entries hold : Nat}
    {granted : Bool} {frozen : Frozen}
    (h : layOut fixed before run counted children entries hold granted = .ok frozen)
    (hahead : Ahead fixed before.endPosition children run.isSome entries counted)
    (hfrom : fixed.dataStart ≤ before.endPosition.bytes) (hne : children ≠ []) :
    frozen.reserved.endPosition.within counted = true
      ∧ frozen.reserved.closedEnd fixed ≤ counted.bytes
      ∧ frozen.run.isSome = frozen.reserved.isOpen fixed
      ∧ (frozen.run = none → frozen.reserved.endPosition.bytes % fixed.unit = 0)
      ∧ Writer.closedFooters ⟨frozen.reserved, frozen.run, []⟩ ≤ counted.footers
      ∧ before.endPosition.bytes + blocksBytes children ≤ frozen.reserved.endPosition.bytes := by
  unfold layOut at h
  simp only [bind_eq_ok, require_eq_ok, exists_const, pure_eq_ok] at h
  obtain ⟨_, start, hstart, position, hplaced, footer, hfooter, rfl⟩ := h
  obtain ⟨hmost, hleast, hphysical, hblocks, hentries, hfooters⟩ := startFor_eq hstart endingOf_closeFirst
  generalize endingOf fixed before run children hold granted = ending at hfooter ⊢
  obtain rfl := placeBlocks_eq hplaced
  obtain rfl := footerFor_eq hfooter
  have hpos := blocksBytes_pos hne
  -- the boundary after the blocks and a footer is at most the one the plan counted
  have hup : alignUp (start.endPosition.bytes + blocksBytes children + 248) fixed.unit ≤ counted.bytes := by
    rw [hahead.bytes]
    exact alignUp_mono fixed.unit_pos (by omega)
  have hpast := @le_alignUp (start.endPosition.bytes + blocksBytes children + 248) fixed.unit
  have hcounted : ∀ (bytes footers : Nat), bytes ≤ counted.bytes
      → footers ≤ start.endPosition.footers + 1 →
      Position.within ⟨counted.logical, start.endPosition.physical + recordsOf children, bytes,
        start.endPosition.blocks + children.length, footers, start.endPosition.retryEntries + entries⟩
        counted = true := by
    intro bytes footers hbytes hfooters'
    refine decide_eq_true ⟨?_, hbytes, ?_, ?_, ?_⟩
    · rw [hahead.physical, hphysical]
    · rw [hahead.footers]
      exact hfooters'.trans hfooters
    · rw [hahead.blocks, hblocks]
    · rw [hahead.retryEntries, hentries]
  have hclosed : start.endPosition.footers + 1 ≤ counted.footers := by
    rw [hahead.footers]
    exact hfooters
  obtain ⟨closeFirst, footed⟩ := ending
  cases footed with
  | true =>
    refine ⟨hcounted _ _ hup (le_refl _), hup, rfl, fun _ => alignUp_mod fixed.unit_pos, hclosed, ?_⟩
    change before.endPosition.bytes + blocksBytes children ≤ alignUp _ _
    omega
  | false =>
    have hpast' : fixed.dataStart < start.endPosition.bytes + blocksBytes children := by omega
    have hbytes : start.endPosition.bytes + blocksBytes children ≤ counted.bytes := by omega
    have hheld : (if run.isNone || closeFirst then some start.endPosition.bytes else run).isSome
        = true := by
      cases run with
      | none => rfl
      | some begin_ => cases closeFirst <;> rfl
    have hisOpen : Boundary.isOpen fixed ⟨⟨counted.logical, start.endPosition.physical + recordsOf children,
        start.endPosition.bytes + blocksBytes children, start.endPosition.blocks + children.length,
        start.endPosition.footers, start.endPosition.retryEntries + entries⟩, none⟩ = true :=
      decide_eq_true hpast'.ne'
    refine ⟨hcounted _ _ hbytes (Nat.le_add_right _ _), ?_, hheld.trans hisOpen.symm, ?_,
      ?_, Nat.add_le_add_right hleast _⟩
    · exact (Boundary.closedEnd_of_open hisOpen).le.trans hup
    · intro hnone
      rw [show (if run.isNone || closeFirst then some start.endPosition.bytes else run) = none
        from hnone] at hheld
      cases hheld
    · change start.endPosition.footers + (if (if run.isNone || closeFirst then
        some start.endPosition.bytes else run).isSome then 1 else 0) ≤ counted.footers
      rw [if_pos hheld]
      exact hclosed

/-! ## Steps -/

variable {batches : List Batch} {prepared : Prepared}

theorem prepareGroup_eq_ok {retryEntries : Option Nat}
    (h : w.prepareGroup fixed batches retryEntries = .ok (some prepared)) :
    planSegmentCapacity fixed w.reserved.endPosition batches w.run.isSome
        (some (retryEntries.getD batches.length)) = .ok prepared.plan
      ∧ prepared.plan.decision = .fits
      ∧ prepared = ⟨w.reserved, if w.run.isSome then some (w.reserved.close prepared.plan.closing)
          else none, prepared.plan, batches, retryEntries.getD batches.length⟩ := by
  unfold Writer.prepareGroup at h
  rw [bind_eq_ok] at h
  obtain ⟨plan, hplan, h⟩ := h
  split at h
  next hfits =>
    cases h
    exact ⟨hplan, hfits, rfl⟩
  next => cases h

/-- **What a step does**: a group is prepared where its plan fits, the run is closed, or a prepared group is
    frozen. -/
theorem step_cases {action : Action} (h : w.step fixed action = some w') :
    (∃ batches retryEntries prepared, action = .prepare batches retryEntries
      ∧ w.prepareGroup fixed batches retryEntries = .ok (some prepared)
      ∧ w' = { w with prepared := w.prepared ++ [prepared] })
    ∨ (action = .closeRun ∧ w.closeRun fixed = .ok w')
    ∨ ∃ index children hold granted prepared frozen, action = .freeze index children hold granted
      ∧ prepared ∈ w.prepared ∧ w.freezeOwned fixed prepared children hold granted = .ok frozen
      ∧ w' = ⟨frozen.reserved, frozen.run, w.prepared.eraseIdx index⟩ := by
  cases action with
  | prepare batches retryEntries =>
    rw [Writer.step] at h
    split at h
    next prepared hprepared =>
      cases h
      exact .inl ⟨batches, retryEntries, prepared, rfl, hprepared, rfl⟩
    next => cases h
  | closeRun => exact .inr (.inl ⟨rfl, toOption_eq_some.mp h⟩)
  | freeze index children hold granted =>
    simp only [Writer.step, Option.bind_eq_bind, Option.bind_eq_some_iff] at h
    obtain ⟨prepared, hprepared, frozen, hfrozen, hw'⟩ := h
    cases hw'
    exact .inr (.inr ⟨index, children, hold, granted, prepared, frozen, rfl,
      List.mem_of_getElem? hprepared, toOption_eq_some.mp hfrozen, rfl⟩)

/-! ## What a writer keeps -/

/-- What a freeze goes by was planned at the base of the group. -/
theorem freezePlan_planned {plan : CapacityPlan} (hmade : Made fixed prepared)
    (h : freezePlan fixed prepared children = .ok plan) :
    planSegmentCapacity fixed prepared.base.endPosition children (prepared.base.isOpen fixed)
      (some prepared.retryEntries) = .ok plan := by
  unfold freezePlan at h
  split at h
  next hsame =>
    cases h
    rw [hsame]
    exact hmade.planned
  next =>
    have hclosed : prepared.closed.isSome = prepared.base.isOpen fixed := by
      rw [hmade.closed]
      cases prepared.base.isOpen fixed with
      | true => rfl
      | false => rfl
    rwa [hclosed] at h

/-- **The base of a group, or the base once its run was closed**: from either the group's plan counted
    what lies ahead. -/
theorem Kept.ahead (hkept : Kept fixed w) {plan : CapacityPlan} {counted : Position}
    (hmade : Made fixed prepared) (hbase : prepared.base = w.reserved ∨ prepared.closed = some w.reserved)
    (hcounted : Counted fixed prepared.base.endPosition children (prepared.base.isOpen fixed) prepared.retryEntries plan counted)
    :
    Ahead fixed w.reserved.endPosition children w.run.isSome prepared.retryEntries counted := by
  rcases hbase with hbase | hclosed
  · rw [hkept.run_iff, ← hbase]
    exact hcounted.ahead
  · -- the run was closed since: the base moved past the footer the plan counted for that
    rw [hmade.closed] at hclosed
    split at hclosed
    next hisOpen =>
      obtain ⟨first, hfirst⟩ := plan_counted hmade.planned hmade.fits
      have hclose := hfirst.closing
      have hahead := hcounted.ahead
      rw [hisOpen] at hclose hahead
      have hreserved := Option.some.inj hclosed
      have hrun : w.run.isSome = false := by
        rw [hkept.run_iff, ← hreserved]
        rfl
      rw [hrun, ← hreserved]
      refine { hahead with bytes := ?_ }
      rw [hahead.bytes, ← hclose]
      rfl
    next => cases hclosed

theorem Position.within_eq_true {taken counted : Position} : taken.within counted = true
    ↔ taken.physical = counted.physical ∧ taken.bytes ≤ counted.bytes ∧ taken.footers ≤ counted.footers
      ∧ taken.blocks = counted.blocks ∧ taken.retryEntries = counted.retryEntries :=
  decide_eq_true_iff

theorem Kept.start {logical : Nat} (hstart : fixed.dataStart % fixed.unit = 0) :
    Kept fixed (Writer.start fixed logical) := by
  refine ⟨le_refl _, fun _ => rfl, ?_, fun _ => hstart, Nat.zero_le _, nofun,
    fun h => absurd rfl h⟩
  exact (decide_eq_false (not_not.mpr rfl)).symm

theorem Kept.prepare (hkept : Kept fixed w) {retryEntries : Option Nat}
    (h : w.prepareGroup fixed batches retryEntries = .ok (some prepared)) :
    Kept fixed { w with prepared := w.prepared ++ [prepared] } := by
  obtain ⟨hplan, hfits, hprepared⟩ := prepareGroup_eq_ok h
  rw [hkept.run_iff] at hplan hprepared
  refine { hkept with prepared := ?_ }
  intro other hmem
  rcases List.mem_append.mp hmem with hold | hnew
  · exact hkept.prepared other hold
  · obtain rfl := List.mem_singleton.mp hnew
    rw [hprepared]
    exact ⟨hplan, hfits, rfl⟩

theorem Kept.closeRun (hkept : Kept fixed w) (h : w.closeRun fixed = .ok w') : Kept fixed w' := by
  unfold Writer.closeRun at h
  split at h
  next =>
    cases h
    exact hkept
  next begin_ hrun =>
    simp only [bind_eq_ok, pure_eq_ok] at h
    obtain ⟨cut, hcut, rfl⟩ := h
    obtain ⟨bytes, rfl, hbytes⟩ := makeClosing_eq hcut
    have hisOpen : w.reserved.isOpen fixed = true := by
      rw [← hkept.run_iff, hrun]
      rfl
    have hne : w.reserved.endPosition.bytes ≠ fixed.dataStart :=
      of_decide_eq_true (Bool.and_eq_true_iff.mp hisOpen).2
    obtain ⟨projection, hprojection, hroom⟩ := hkept.sealable hne
    rw [Boundary.closedEnd_of_open hisOpen, ← hbytes] at hroom
    have hfooters := hkept.footers
    unfold Writer.closedFooters at hfooters
    rw [hrun] at hfooters
    refine ⟨?_, fun hstart => ?_, rfl, fun _ => ?_, hfooters, hkept.prepared,
      fun _ => ⟨projection, hprojection, hroom⟩⟩
    · exact hkept.from_start.trans (Nat.le_add_right _ _)
    · have hfrom := hkept.from_start
      change w.reserved.endPosition.bytes + bytes = fixed.dataStart at hstart
      exact absurd (by omega) hne
    · change (w.reserved.endPosition.bytes + bytes) % fixed.unit = 0
      rw [hbytes]
      exact alignUp_mod fixed.unit_pos

/-- **The check at the end of a freeze never refuses**: what was laid out takes no more than its plan
    counted, whichever way the group froze. -/
theorem Kept.layOut_within (hkept : Kept fixed w) {plan : CapacityPlan} {counted : Position} {hold : Nat}
    {granted : Bool} {frozen : Frozen} (hmade : Made fixed prepared)
    (hbase : prepared.base = w.reserved ∨ prepared.closed = some w.reserved)
    (hplan : freezePlan fixed prepared children = .ok plan) (hfits : plan.decision = .fits)
    (hends : plan.endPosition = some counted)
    (h : layOut fixed w.reserved w.run counted children prepared.retryEntries hold granted = .ok frozen) :
    frozen.reserved.endPosition.within counted = true
      ∧ Kept fixed { w with reserved := frozen.reserved, run := frozen.run }
      ∧ w.reserved.endPosition.bytes + blocksBytes children ≤ frozen.reserved.endPosition.bytes := by
  obtain ⟨end_, hcounted⟩ := plan_counted (freezePlan_planned hmade hplan) hfits
  obtain rfl := Option.some.inj (hcounted.ends.symm.trans hends)
  have hne := hcounted.admits.nonempty
  obtain ⟨hwithin, hclosed, hrun, haligned, hfooters, htaken⟩ :=
    Capacity.layOut_within h (hkept.ahead hmade hbase hcounted) hkept.from_start hne
  have hpos := blocksBytes_pos hne
  have hfrom := hkept.from_start
  have hpast : fixed.dataStart < frozen.reserved.endPosition.bytes := by omega
  obtain ⟨projection, hprojection, hroom, _⟩ := hcounted.room
  have hentries := (Position.within_eq_true.mp hwithin).2.2.2.2
  refine ⟨hwithin, ⟨hpast.le, fun hstart => absurd hstart hpast.ne', hrun, haligned,
    hfooters.trans hcounted.footers, hkept.prepared, fun _ => ⟨projection, ?_, ?_⟩⟩, htaken⟩
  · rw [hentries]
    exact hprojection
  · exact (Nat.add_le_add_right hclosed _).trans hroom

/-- **What a freeze takes**: what its plan counted lies ahead of the reserved end, and the new one is within
    that. -/
theorem Kept.freeze (hkept : Kept fixed w) {hold : Nat} {granted : Bool} {frozen : Frozen}
    (hmade : Made fixed prepared) (h : w.freezeOwned fixed prepared children hold granted = .ok frozen) :
    ∃ plan counted, Counted fixed prepared.base.endPosition children (prepared.base.isOpen fixed)
        prepared.retryEntries plan counted
      ∧ Ahead fixed w.reserved.endPosition children w.run.isSome prepared.retryEntries counted
      ∧ frozen.reserved.endPosition.within counted = true
      ∧ w.reserved.endPosition.bytes + blocksBytes children ≤ frozen.reserved.endPosition.bytes
      ∧ Kept fixed { w with reserved := frozen.reserved, run := frozen.run } := by
  unfold Writer.freezeOwned at h
  simp only [bind_eq_ok, require_eq_ok, exists_const, expect_eq_ok, pure_eq_ok] at h
  obtain ⟨_, ⟨_, _, hbase⟩, plan, hplan, ⟨hfits, _⟩, counted, hends, frozen', hlaid, _, rfl⟩ := h
  obtain ⟨end_, hcounted⟩ := plan_counted (freezePlan_planned hmade hplan) hfits
  obtain rfl := Option.some.inj (hcounted.ends.symm.trans hends)
  obtain ⟨hwithin, hafter, htaken⟩ := hkept.layOut_within hmade hbase hplan hfits hends hlaid
  exact ⟨plan, end_, hcounted, hkept.ahead hmade hbase hcounted, hwithin, htaken, hafter⟩

/-- **Every writer keeps it**, along every run of preparing, freezing and closing. -/
theorem kept_reachable (hstart : fixed.dataStart % fixed.unit = 0)
    (h : (system fixed).Reachable w) : Kept fixed w := by
  refine h.invariant ?_ ?_
  · rintro w ⟨logical, rfl⟩
    exact Kept.start hstart
  · intro w action w' _ hkept _ hstep
    rcases step_cases hstep with ⟨batches, retryEntries, prepared, _, hprepared, rfl⟩ | ⟨_, hclose⟩
      | ⟨index, children, hold, granted, prepared, frozen, _, hmem, hfrozen, rfl⟩
    · exact hkept.prepare hprepared
    · exact hkept.closeRun hclose
    · obtain ⟨_, _, _, _, _, _, hfreeze⟩ := hkept.freeze (hkept.prepared prepared hmem) hfrozen
      exact { hfreeze with
        prepared := fun other hmem' => hkept.prepared other (List.mem_of_mem_eraseIdx hmem') }

/-! ## An empty segment -/

/-- Where an empty segment begins. -/
def emptyPosition (fixed : Constants) (logical : Nat) : Position :=
  { logical, physical := fixed.descriptor.physicalOrigin, bytes := fixed.dataStart }

/-- **What the constants of a segment say of it**, beside what they were made from. -/
theorem make_constants {descriptor : SegmentDescriptor} {dataStart metadataAlignment finalizationBytes : Nat}
    {limits : AdmissionLimits} {policy : Limits} {costs : Costs}
    (h : Constants.make descriptor dataStart limits policy costs metadataAlignment finalizationBytes
      = .ok fixed) :
    (fixed.dataStart % fixed.unit = 0 ∧ fixed.descriptor.physicalOrigin = 0)
      ∧ fixed.descriptor = descriptor ∧ fixed.limits = limits ∧ fixed.policy = policy
      ∧ fixed.costs = costs ∧ fixed.finalizationBytes = finalizationBytes
      ∧ (fixed.tiny = false → fixed.retryWireCapacity = wireCapacityFor policy fixed.unit) := by
  unfold Constants.make at h
  simp only [bind_eq_ok, require_eq_ok, exists_const] at h
  obtain ⟨_, _, _, ⟨_, horigin, _, haligned⟩, h⟩ := h
  split at h
  next htiny =>
    cases h
    refine ⟨⟨haligned, horigin⟩, rfl, rfl, rfl, rfl, rfl, fun hlarge => ?_⟩
    cases htiny.symm.trans hlarge
  next =>
    cases h
    exact ⟨⟨haligned, horigin⟩, rfl, rfl, rfl, rfl, rfl, fun _ => rfl⟩

/-- The records of a group are few, as each batch's are. -/
theorem recordsOf_le {staging : List Nat} (h : List.Forall₂ (BlockFits fixed) batches staging) :
    recordsOf batches ≤ 4096 * batches.length := by
  induction h with
  | nil => exact le_refl _
  | @cons batch cost rest more hfits _ ih =>
    obtain ⟨_, _, hretained, horiginal, _⟩ := of_decide_eq_true hfits.counts
    have hmost := fixed.policy.maxOriginalRecords_le
    have hrecords : recordsOf (batch :: rest) = batch.retainedCount + recordsOf rest := rfl
    rw [hrecords, List.length_cons]
    omega

/-- **A group that an empty segment could take** is admitted where an empty segment begins. -/
theorem Admits.empty {current : Position} {isOpen : Bool} {entries count : Nat}
    (h : Admits fixed current batches isOpen entries) (hcount : count ≤ batches.length)
    (hstart : fixed.dataStart % fixed.unit = 0) :
    Admits fixed (emptyPosition fixed current.logical) batches false count := by
  have hmod : startOf fixed current isOpen % fixed.unit = 0 := startOf_mod h.begins
  have hle : fixed.dataStart ≤ startOf fixed current isOpen := h.from_start.trans le_startOf
  obtain ⟨layout, hlayout, hstaging⟩ := h.footed
  refine ⟨h.nonempty, h.length_le, hcount, le_refl _, .inr hstart, h.able, nofun, h.fits, h.follows,
    ⟨_, Constants.footerAt_shift hlayout hmod hstart hle, ?_⟩, ?_, h.count, h.published, h.fresh⟩
  · unfold Constants.footerStaging
    rw [stagingCost_place]
    exact hstaging
  · have hio := h.io
    have hpast : current.bytes ≤ startOf fixed current isOpen := le_startOf
    rw [spanOf_eq hmod] at hio
    change alignUp (fixed.dataStart + blocksBytes batches + 248) fixed.unit ≤ _
    rw [spanOf_eq hstart]
    change _ ≤ fixed.dataStart + maximumFileIoBytes
    omega

/-- **An empty segment takes a group** it could take exactly when the seal of the retry entries that the
    group adds has a root for which there is room. -/
theorem Admits.fits_empty {current : Position} {isOpen : Bool} {entries count : Nat}
    (h : Admits fixed current batches isOpen entries) (hcount : count ≤ batches.length)
    (hstart : fixed.dataStart % fixed.unit = 0) (horigin : fixed.descriptor.physicalOrigin = 0) :
    (∃ fresh, planSegmentCapacity fixed (emptyPosition fixed current.logical) batches false (some count)
        = .ok fresh ∧ fresh.decision = .fits)
      ↔ ∃ projection, fixed.project count = some projection
        ∧ fixed.dataStart + alignUp (blocksBytes batches + 248) fixed.unit + projection.root
          ≤ fixed.descriptor.maximumDataBytes := by
  have hempty := h.empty hcount hstart
  obtain ⟨shape, hshape⟩ := hempty.planShape
  have hshaped := (planShape_ok hshape).2
  have hincoming : fixed.dataStart + shape.incoming
      = fixed.dataStart + alignUp (blocksBytes batches + 248) fixed.unit := by
    rw [← spanOf_eq hstart]
    exact hshaped.incoming
  have hproject : (emptyPosition fixed current.logical).retryEntries + (some count).getD batches.length
      = count := Nat.zero_add count
  constructor
  · rintro ⟨fresh, hfresh, hfits⟩
    obtain ⟨shape', projection, hshape', hprojection, hroom, _⟩ := plan_fits.mp ⟨hfresh, hfits⟩
    cases hshape'.symm.trans hshape
    rw [hproject] at hprojection
    refine ⟨projection, hprojection, ?_⟩
    rw [← hincoming]
    exact hroom.bytes
  · rintro ⟨projection, hprojection, hle⟩
    obtain ⟨staging, hblocks⟩ := h.fits
    have hrecords := recordsOf_le hblocks
    have hlength := h.length_le
    unfold maximumSegmentGroupBlocks at hlength
    refine ⟨_, plan_fits.mpr ⟨shape, projection, hshape, ?_, ⟨?_, ?_, ?_, ?_⟩, rfl⟩⟩
    · rw [hproject]
      exact hprojection
    · rw [hshaped.records]
      change fixed.descriptor.physicalOrigin + _ ≤ 2 ^ 64 - 1
      omega
    · exact (Nat.zero_add _).le.trans h.count
    · change 0 + footersOf false ≤ 4294967295
      decide
    · change fixed.dataStart + shape.incoming + projection.root ≤ _
      rw [hincoming]
      exact hle

/-- **A segment that takes a group could be sealed before it**, if a seal without the group has a root. -/
theorem Kept.sealable_before (hkept : Kept fixed w) {retryEntries : Option Nat} {plan : CapacityPlan}
    {projection : Projection}
    (hplan : planSegmentCapacity fixed w.reserved.endPosition batches w.run.isSome retryEntries = .ok plan)
    (hfits : plan.decision = .fits)
    (hprojection : fixed.project w.reserved.endPosition.retryEntries = some projection) :
    w.reserved.closedEnd fixed + projection.root ≤ fixed.descriptor.maximumDataBytes := by
  by_cases hstart : w.reserved.endPosition.bytes = fixed.dataStart
  · -- nothing was taken yet, and a root of no pages is no longer than any other
    obtain ⟨counted, hcounted⟩ := plan_counted hplan hfits
    obtain ⟨other, hother, hroom, _⟩ := hcounted.room
    rw [hkept.untouched hstart] at hprojection
    have hnone : projection.pages = 0 := by
      rw [(Constants.project_eq_some hprojection).1.pages, Nat.zero_add]
      cases projection.entriesPerPage with
      | zero => rfl
      | succ size => exact Nat.div_eq_of_lt (Nat.lt_succ_self size)
    have hroot : projection.root ≤ other.root := by
      rw [(Constants.project_eq_some hprojection).1.root, (Constants.project_eq_some hother).1.root, hnone]
      exact alignUp_mono fixed.unit_pos (by omega)
    have hclosed : w.reserved.isOpen fixed = false := by
      unfold Boundary.isOpen
      rw [Bool.and_eq_false_iff]
      exact .inr (decide_eq_false (not_not.mpr hstart))
    have hahead : w.reserved.endPosition.bytes ≤ counted.bytes := by
      have hpast : w.reserved.endPosition.bytes ≤ startOf fixed w.reserved.endPosition w.run.isSome :=
        le_startOf
      have hup := @le_alignUp (startOf fixed w.reserved.endPosition w.run.isSome + blocksBytes batches
        + 248) fixed.unit
      rw [hcounted.ahead.bytes]
      omega
    rw [Boundary.closedEnd_of_closed hclosed]
    omega
  · obtain ⟨other, hother, hroom⟩ := hkept.sealable hstart
    obtain rfl := Option.some.inj (hprojection.symm.trans hother)
    exact hroom

/-- **A segment stays sealable.** For every segment's constants and every run of its writer: no freeze of a
    group that was planned to fit takes more than its plan counted. Once a group was taken, what is
    reserved, a footer that closes a run held open and the root of a seal with the retry entries so far end
    within the extent, and before the first group they do if one is taken. A group that makes a segment
    roll fits an empty one, where each of its batches may add a retry entry; with another count of these it
    fits exactly when the root of their seal does. -/
theorem segment_stays_sealable {descriptor : SegmentDescriptor}
    {dataStart metadataAlignment finalizationBytes : Nat} {limits : AdmissionLimits} {policy : Limits}
    {costs : Costs}
    (hmake : Constants.make descriptor dataStart limits policy costs metadataAlignment finalizationBytes
      = .ok fixed) :
    (∀ w, (system fixed).Reachable w →
      (∀ prepared ∈ w.prepared, prepared.base = w.reserved ∨ prepared.closed = some w.reserved →
        ∀ children plan counted hold granted frozen,
          freezePlan fixed prepared children = .ok plan → plan.decision = .fits →
          plan.endPosition = some counted →
          layOut fixed w.reserved w.run counted children prepared.retryEntries hold granted = .ok frozen →
          frozen.reserved.endPosition.within counted = true)
      ∧ (w.reserved.endPosition.bytes ≠ fixed.dataStart → w.reserved.Sealable fixed)
      ∧ ∀ batches retryEntries plan projection,
          planSegmentCapacity fixed w.reserved.endPosition batches w.run.isSome retryEntries = .ok plan →
          plan.decision = .fits →
          fixed.project w.reserved.endPosition.retryEntries = some projection →
          w.reserved.closedEnd fixed + projection.root ≤ fixed.descriptor.maximumDataBytes)
    ∧ ∀ current batches isOpen retryEntries plan,
      planSegmentCapacity fixed current batches isOpen retryEntries = .ok plan →
      plan.decision = .rollRequired →
      (∃ fresh, planSegmentCapacity fixed (emptyPosition fixed current.logical) batches false none
        = .ok fresh ∧ fresh.decision = .fits)
      ∧ ∀ count ≤ batches.length,
        ((∃ fresh, planSegmentCapacity fixed (emptyPosition fixed current.logical) batches false
            (some count) = .ok fresh ∧ fresh.decision = .fits)
          ↔ ∃ projection, fixed.project count = some projection
            ∧ fixed.dataStart + alignUp (blocksBytes batches + 248) fixed.unit + projection.root
              ≤ fixed.descriptor.maximumDataBytes) := by
  obtain ⟨⟨hstart, horigin⟩, _⟩ := make_constants hmake
  refine ⟨fun w hreach => ?_, ?_⟩
  · have hkept := kept_reachable hstart hreach
    refine ⟨?_, hkept.sealable, fun batches retryEntries plan projection => hkept.sealable_before⟩
    intro prepared hmem hbase children plan counted hold granted frozen hplan hfits hends hlaid
    exact (hkept.layOut_within (hkept.prepared prepared hmem) hbase hplan hfits hends hlaid).1
  · intro current batches isOpen retryEntries plan hplan hroll
    have hadmits := plan_rolls hplan hroll
    refine ⟨?_, fun count hcount => hadmits.fits_empty hcount hstart horigin⟩
    exact (hadmits.fits_empty (le_refl _) hstart horigin).mpr hadmits.fresh

/-- Allocations that cost what is asked for, and sizes in memory as the source has them. -/
def exampleCosts : Costs := ⟨id, 40, 144, 32, 32⟩

/-- A segment of eight units. -/
def exampleSegment : SegmentDescriptor where
  segment := ⟨5, 1, 2, 3, 4⟩
  alignment := ⟨512, by decide, by decide, 9, rfl⟩
  maximumDataBytes := 4096
  maximum_fits := by decide

/-- Its constants, under the ceilings. -/
def exampleConstants : Constants where
  descriptor := exampleSegment
  dataStart := 512
  limits := {}
  policy := {}
  costs := exampleCosts
  finalizationBytes := 8388608
  tiny := false
  footerBytes := some 248
  closingStaging := some 951
  pointerBytes := some 512
  descriptorBytes := some 512
  retryWireCapacity := 408

/-- One record of so many bytes in its batch, at a place of the range. -/
def exampleBatch (logical size : Nat) : Batch :=
  ⟨1, 2, 3, 4, ⟨logical, logical + 1⟩, 1, 1, 0, size, 1⟩

/-- A group is frozen without a footer, and its run is closed under the group prepared over it. -/
def exampleActions : List Action :=
  [.prepare [exampleBatch 0 300] none, .freeze 0 [exampleBatch 0 300] 4096 true,
    .prepare [exampleBatch 1 300] none]

theorem example_make : Constants.make exampleSegment 512 {} {} exampleCosts 512 8388608
    = .ok exampleConstants := by
  have hwire : wireCapacityFor {} 512 = 408 := by decide +kernel
  have hmake : Constants.make exampleSegment 512 {} {} exampleCosts 512 8388608
      = .ok { exampleConstants with retryWireCapacity := wireCapacityFor {} 512 } := rfl
  rw [hmake, hwire]
  rfl

/-- Witness: with a run held open the segment can still be sealed; a group that it has no room for fits an
    empty one. -/
theorem example_stays_sealable :
    (∃ w, (system exampleConstants).exec (Writer.start exampleConstants 0) exampleActions = some w
      ∧ w.run = some 512 ∧ w.reserved.Sealable exampleConstants)
    ∧ (∃ plan, planSegmentCapacity exampleConstants ⟨1, 1, 988, 1, 0, 1⟩ [exampleBatch 1 1900] true none
        = .ok plan ∧ plan.decision = .rollRequired)
    ∧ ∃ fresh, planSegmentCapacity exampleConstants (emptyPosition exampleConstants 1)
        [exampleBatch 1 1900] false none = .ok fresh ∧ fresh.decision = .fits := by
  obtain ⟨hruns, hrolls⟩ := segment_stays_sealable example_make
  obtain ⟨plan, hplan, hroll⟩ : ∃ plan, planSegmentCapacity exampleConstants ⟨1, 1, 988, 1, 0, 1⟩
      [exampleBatch 1 1900] true none = .ok plan ∧ plan.decision = .rollRequired := ⟨_, rfl, rfl⟩
  obtain ⟨w, hexec, hrun, hbytes⟩ : ∃ w, (system exampleConstants).exec (Writer.start exampleConstants 0)
      exampleActions = some w ∧ w.run = some 512 ∧ w.reserved.endPosition.bytes = 988 :=
    ⟨_, rfl, rfl, rfl⟩
  have hreach : (system exampleConstants).Reachable w :=
    System.Run.of_exec (.init ⟨0, rfl⟩) hexec
  refine ⟨⟨w, hexec, hrun, (hruns w hreach).2.1 ?_⟩, ⟨plan, hplan, hroll⟩, (hrolls _ _ _ _ _ hplan hroll).1⟩
  rw [hbytes]
  decide

end KwaqueStorage.Capacity
