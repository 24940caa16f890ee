import KwaqueStorage.Pins.State
import KwaqueStorage.Lib.Count

/-!
# The three tables and the two counters

An entry's place in the table is its segment, its disposition and, for a discard, its sequence: a
segment has one boundary, whatever footer it pins (`Entry.slot`). The tables are in the order of
these places, so the lookups by segment and by canonical order that the owner makes are lookups of a
place. The counters say how many segments and decisions are tracked (`Kept`), and every call but a cut
keeps that on its own; adopting one needs to know what the cut took.
-/

namespace KwaqueStorage.Pins

open Extent Lib

/-! ## Places -/

namespace Entry

/-- An entry's place: its canonical key, but for the footer a boundary pins. -/
def slot (e : Entry) : SegmentContext ×ₗ ℕ ×ₗ ℕ :=
  toLex (e.segment, toLex (e.disposition.code, if e.isBoundary then 0 else e.locator))

end Entry

/-- The place of a segment's boundary. -/
def boundarySlot (segment : SegmentContext) : SegmentContext ×ₗ ℕ ×ₗ ℕ :=
  toLex (segment, toLex (1, 0))

theorem lex_lt {α : Type*} [LinearOrder α] {a b : α} {c d e f : ℕ} :
    (toLex (a, toLex (c, d)) : α ×ₗ ℕ ×ₗ ℕ) < toLex (b, toLex (e, f))
      ↔ a < b ∨ (a = b ∧ (c < e ∨ (c = e ∧ d < f))) := by
  simp [Prod.Lex.toLex_lt_toLex]

theorem lex_eq {α : Type*} {a b : α} {c d e f : ℕ} :
    (toLex (a, toLex (c, d)) : α ×ₗ ℕ ×ₗ ℕ) = toLex (b, toLex (e, f))
      ↔ a = b ∧ c = e ∧ d = f := by
  simp

section Slots

variable {e pin : Entry} {segment : SegmentContext} {l : List Entry}

theorem code_eq_one : e.disposition.code = 1 ↔ e.isBoundary = true := by
  unfold Entry.isBoundary
  cases e.disposition <;> simp [Disposition.code]

theorem one_le_code : 1 ≤ e.disposition.code := by
  cases e.disposition <;> decide

theorem discard_code (h : pin.isDiscard = true) :
    pin.disposition.code = 3 ∧ pin.isBoundary = false := by
  unfold Entry.isDiscard at h
  simp only [decide_eq_true_eq] at h
  simp [h, Disposition.code, Entry.isBoundary]

theorem slot_lt_boundary : e.slot < boundarySlot segment ↔ e.segment < segment := by
  have hcode := @one_le_code e
  unfold Entry.slot boundarySlot
  rw [lex_lt]
  constructor
  · rintro (hlt | ⟨_, hlt | ⟨_, hlt⟩⟩)
    · exact hlt
    · omega
    · omega
  · exact .inl

theorem slot_eq_boundary :
    e.slot = boundarySlot segment ↔ e.segment = segment ∧ e.isBoundary = true := by
  unfold Entry.slot boundarySlot
  rw [lex_eq, code_eq_one]
  constructor
  · rintro ⟨hsegment, hboundary, _⟩
    exact ⟨hsegment, hboundary⟩
  · rintro ⟨hsegment, hboundary⟩
    exact ⟨hsegment, hboundary, by rw [if_pos hboundary]⟩

theorem discard_slot (h : pin.isDiscard = true) : pin.slot = pin.key := by
  unfold Entry.slot Entry.key
  rw [if_neg (by rw [(discard_code h).2]; simp)]

/-- Against a discard the two orders are one. -/
theorem key_lt_discard (h : pin.isDiscard = true) : e.key < pin.key ↔ e.slot < pin.slot := by
  rw [discard_slot h]
  by_cases hboundary : e.isBoundary = true
  · have hcode := code_eq_one.mpr hboundary
    have hpin := (discard_code h).1
    unfold Entry.slot Entry.key
    rw [lex_lt, lex_lt]
    constructor
    · rintro (hlt | ⟨heq, _⟩)
      · exact .inl hlt
      · exact .inr ⟨heq, .inl (by omega)⟩
    · rintro (hlt | ⟨heq, _⟩)
      · exact .inl hlt
      · exact .inr ⟨heq, .inl (by omega)⟩
  · have hsame : e.slot = e.key := by
      unfold Entry.slot Entry.key
      rw [if_neg hboundary]
    rw [hsame]

theorem discard_lt_key (h : pin.isDiscard = true) : pin.key < e.key ↔ pin.slot < e.slot := by
  rw [discard_slot h]
  by_cases hboundary : e.isBoundary = true
  · have hcode := code_eq_one.mpr hboundary
    have hpin := (discard_code h).1
    unfold Entry.slot Entry.key
    rw [lex_lt, lex_lt]
    constructor
    · rintro (hlt | ⟨heq, hlt | ⟨heq', _⟩⟩)
      · exact .inl hlt
      · omega
      · omega
    · rintro (hlt | ⟨heq, hlt | ⟨heq', _⟩⟩)
      · exact .inl hlt
      · omega
      · omega
  · have hsame : e.slot = e.key := by
      unfold Entry.slot Entry.key
      rw [if_neg hboundary]
    rw [hsame]

theorem key_eq_discard (h : pin.isDiscard = true) : e.key = pin.key ↔ e.slot = pin.slot := by
  have h₁ := @key_lt_discard e pin h
  have h₂ := @discard_lt_key e pin h
  constructor
  · intro heq
    apply le_antisymm
    · exact not_lt.mp fun hlt => lt_irrefl pin.key (heq ▸ h₂.mpr hlt)
    · exact not_lt.mp fun hlt => lt_irrefl pin.key (by rw [heq] at h₁; exact h₁.mpr hlt)
  · intro heq
    apply le_antisymm
    · exact not_lt.mp fun hlt => lt_irrefl pin.slot (by have := h₂.mp hlt; rwa [heq] at this)
    · exact not_lt.mp fun hlt => lt_irrefl pin.slot (by have := h₁.mp hlt; rwa [heq] at this)

/-- The place a search for a segment ends at is that of its boundary. -/
theorem lowerBound_segment :
    lowerBound Entry.segment segment l = lowerBound Entry.slot (boundarySlot segment) l :=
  lowerBound_congr fun _ => slot_lt_boundary.symm

theorem before_segment :
    before Entry.segment segment l = before Entry.slot (boundarySlot segment) l :=
  before_congr fun _ => slot_lt_boundary.symm

theorem boundaryIn_eq : boundaryIn l segment = lookup Entry.slot (boundarySlot segment) l := by
  unfold boundaryIn lookup
  rw [lowerBound_segment, Option.filter_filter]
  congr 1
  funext e
  rw [Bool.eq_iff_iff]
  simp only [Bool.and_eq_true, decide_eq_true_eq, slot_eq_boundary]

/-- A search for a discard's key ends at its place. -/
theorem lookup_discard (h : pin.isDiscard = true) :
    lookup Entry.key pin.key l = lookup Entry.slot pin.slot l :=
  lookup_congr (fun _ => key_lt_discard h) fun _ => key_eq_discard h

theorem lookup_held (h : pin.isDiscard = true) {held : List HeldDiscard} :
    lookup (fun h => h.pin.key) pin.key held = lookup (fun h => h.pin.slot) pin.slot held :=
  lookup_congr (fun _ => key_lt_discard h) fun _ => key_eq_discard h

theorem insertAt_held (h : pin.isDiscard = true) {prepare : Cursor} {released : Bool}
    {held : List HeldDiscard} :
    insertAt (fun h => h.pin.key) ⟨pin, prepare, released⟩ held
      = insertAt (fun h => h.pin.slot) ⟨pin, prepare, released⟩ held := by
  unfold insertAt
  rw [lowerBound_congr fun _ => key_lt_discard h, before_congr fun _ => key_lt_discard h]

end Slots

theorem slot_lt_key {a b : Entry} (h : a.slot < b.slot) : a.key < b.key := by
  unfold Entry.slot at h
  unfold Entry.key
  rw [lex_lt] at h ⊢
  rcases h with hlt | ⟨heq, hlt | ⟨hcode, hlt⟩⟩
  · exact .inl hlt
  · exact .inr ⟨heq, .inl hlt⟩
  · refine .inr ⟨heq, .inr ⟨hcode, ?_⟩⟩
    by_cases hb : b.isBoundary = true
    · rw [if_pos hb] at hlt
      omega
    · have ha : ¬ a.isBoundary = true := by
        rw [← code_eq_one, hcode, code_eq_one]
        exact hb
      rwa [if_neg ha, if_neg hb] at hlt

/-- A table in the order of its places is in canonical order. -/
theorem ordered_key {l : List Entry} (h : Ordered Entry.slot l) : Ordered Entry.key l :=
  List.Pairwise.imp slot_lt_key h

theorem weak_segment {l : List Entry} (h : Ordered Entry.slot l) : Weak Entry.segment l := by
  refine List.Pairwise.imp ?_ h
  intro a b hlt
  unfold Entry.slot at hlt
  rw [lex_lt] at hlt
  rcases hlt with hlt | ⟨heq, _⟩
  · exact hlt.le
  · exact heq.le

/-- **A segment's boundary is found where it is.** -/
theorem boundaryIn_eq_some {l : List Entry} (h : Ordered Entry.slot l) {segment : SegmentContext}
    {e : Entry} : boundaryIn l segment = some e
      ↔ e ∈ l ∧ e.segment = segment ∧ e.isBoundary = true := by
  rw [boundaryIn_eq, h.lookup_eq_some, slot_eq_boundary]

theorem boundaryIn_eq_none {l : List Entry} (h : Ordered Entry.slot l) {segment : SegmentContext} :
    boundaryIn l segment = none ↔ ∀ e ∈ l, ¬ (e.segment = segment ∧ e.isBoundary = true) := by
  rw [boundaryIn_eq, h.lookup_eq_none]
  simp only [ne_eq, slot_eq_boundary]

/-! ## What is tracked -/

namespace Owner

/-- The segments with a boundary entry or a footer that waits for one. -/
def tracked (o : Owner) : Finset SegmentContext :=
  ((o.entries.filter Entry.isBoundary).map Entry.segment ++ o.pending.map Boundary.segment).toFinset

/-- The discards that are carried or held. -/
def decided (o : Owner) : Finset Entry :=
  (o.entries.filter Entry.isDiscard ++ o.discards.map HeldDiscard.pin).toFinset

variable {segment : SegmentContext}

theorem mem_tracked {o : Owner} : segment ∈ o.tracked
    ↔ (∃ e ∈ o.entries, e.isBoundary = true ∧ e.segment = segment)
      ∨ ∃ b ∈ o.pending, b.segment = segment := by
  simp only [tracked, List.toFinset_append, Finset.mem_union, List.mem_toFinset, List.mem_map,
    List.mem_filter, and_assoc]

theorem mem_decided {o : Owner} {pin : Entry} : pin ∈ o.decided
    ↔ (pin ∈ o.entries ∧ pin.isDiscard = true) ∨ ∃ h ∈ o.discards, h.pin = pin := by
  simp only [decided, List.toFinset_append, Finset.mem_union, List.mem_toFinset, List.mem_map,
    List.mem_filter]

/-- **What every call keeps.** -/
structure Kept (o : Owner) : Prop where
  entries : Ordered Entry.slot o.entries
  plain : ∀ e ∈ o.entries, e.isBoundary = true ∨ e.isDiscard = true
  pending : Ordered Boundary.segment o.pending
  discards : Ordered (fun h => h.pin.slot) o.discards
  pins : ∀ h ∈ o.discards, h.pin.isDiscard = true
  apart : ∀ h ∈ o.discards, ∀ e ∈ o.entries, h.pin.slot ≠ e.slot
  segments : o.segments = o.tracked.card
  decisions : o.decisions = o.decided.card
  segments_le : o.segments ≤ o.limits.segments
  decisions_le : o.decisions ≤ o.limits.decisions
  limits : o.limits.valid = true

variable {o o' : Owner}

/-- No discard is counted twice. -/
theorem Kept.nodup_decided (h : o.Kept) :
    (o.entries.filter Entry.isDiscard ++ o.discards.map HeldDiscard.pin).Nodup := by
  rw [List.nodup_append]
  refine ⟨(h.entries.filter _).nodup, ?_, ?_⟩
  · apply List.Pairwise.map _ _ h.discards
    intro a b hlt heq
    simp only [heq] at hlt
    exact lt_irrefl _ hlt
  · intro a ha b hb heq
    subst heq
    obtain ⟨held, hheld, rfl⟩ := List.mem_map.mp hb
    exact h.apart held hheld _ (List.mem_filter.mp ha).1 rfl

/-- The counts are of the tables' own lengths. -/
theorem Kept.card_decided (h : o.Kept) :
    o.decided.card = (o.entries.filter Entry.isDiscard).length + o.discards.length := by
  unfold decided
  rw [List.toFinset_card_of_nodup h.nodup_decided, List.length_append, List.length_map]

theorem Kept.limits_le (h : o.Kept) : o.limits.segments ≤ 8192 ∧ o.limits.decisions ≤ 1024 := by
  obtain ⟨_, hsegments, _, hdecisions⟩ := of_decide_eq_true h.limits
  exact ⟨hsegments, hdecisions⟩

/-! ## Footers -/

/-- **What an observation does**: nothing for the footer that is pinned, and else it is the one that
    waits. -/
theorem observe_cases {b : Boundary} (h : o.observe b = .ok o') :
    (∃ e, boundaryIn o.entries b.segment = some e ∧ e.locator = b.footer.begin_
      ∧ lookup Boundary.segment b.segment o.pending = none ∧ o' = o)
    ∨ (∃ old, lookup Boundary.segment b.segment o.pending = some old
      ∧ o' = { o with pending := replaceAt Boundary.segment b o.pending })
    ∨ (lookup Boundary.segment b.segment o.pending = none
      ∧ ((∃ e, boundaryIn o.entries b.segment = some e
          ∧ o' = { o with pending := insertAt Boundary.segment b o.pending })
        ∨ (boundaryIn o.entries b.segment = none ∧ o.segments ≠ o.limits.segments
          ∧ o' = { o with pending := insertAt Boundary.segment b o.pending,
                          segments := o.segments + 1 }))) := by
  unfold observe at h
  split at h
  next => cases h
  next =>
    simp only at h
    split at h
    next => cases h
    next =>
      split at h
      next old hold =>
        split at h
        next => cases h
        next => exact .inr (.inl ⟨old, hold, (Except.ok.inj h).symm⟩)
      next hnone =>
        cases hentry : boundaryIn o.entries b.segment with
        | none =>
          simp only [hentry, Option.any_none, Option.isNone_none, if_true, true_and] at h
          split at h
          next hfalse => cases hfalse
          next =>
            split at h
            next => cases h
            next hroom => exact .inr (.inr ⟨hnone, .inr ⟨rfl, hroom, (Except.ok.inj h).symm⟩⟩)
        | some e =>
          simp only [hentry, Option.any_some, Option.isNone_some, decide_eq_true_eq] at h
          split at h
          next heq => exact .inl ⟨e, rfl, heq.symm, hnone, (Except.ok.inj h).symm⟩
          next =>
            simp only [Bool.false_eq_true, false_and, if_false] at h
            exact .inr (.inr ⟨hnone, .inl ⟨e, rfl, (Except.ok.inj h).symm⟩⟩)

/-- The footers that wait, after an observation that is not of the pinned one. -/
theorem Kept.observe (hkept : o.Kept) {b : Boundary} (h : o.observe b = .ok o') : o'.Kept := by
  rcases observe_cases h with ⟨_, _, _, _, rfl⟩ | ⟨old, hold, rfl⟩ | ⟨hnone, hnew⟩
  · exact hkept
  · obtain ⟨hmem, hsegment⟩ := hkept.pending.lookup_eq_some.mp hold
    obtain ⟨hordered, hin⟩ := hkept.pending.replaceAt hmem hsegment
    have htracked : { o with pending := replaceAt Boundary.segment b o.pending }.tracked
        = o.tracked := by
      ext segment
      rw [mem_tracked, mem_tracked]
      apply or_congr_right
      constructor
      · rintro ⟨x, hx, rfl⟩
        rcases (hin x).mp hx with rfl | ⟨hx, _⟩
        · exact ⟨old, hmem, hsegment⟩
        · exact ⟨x, hx, rfl⟩
      · rintro ⟨x, hx, rfl⟩
        by_cases hkey : x.segment = b.segment
        · exact ⟨b, (hin b).mpr (.inl rfl), hkey.symm⟩
        · exact ⟨x, (hin x).mpr (.inr ⟨hx, hkey⟩), rfl⟩
    exact { hkept with pending := hordered, segments := hkept.segments.trans (congrArg _ htracked.symm) }
  · have hfresh := hkept.pending.lookup_eq_none.mp hnone
    have hordered := hkept.pending.insertAt hfresh
    have hmem : ∀ segment, segment ∈ { o with
        pending := insertAt Boundary.segment b o.pending }.tracked
          ↔ segment = b.segment ∨ segment ∈ o.tracked := by
      intro segment
      rw [mem_tracked, mem_tracked]
      simp only [mem_insertAt, exists_eq_or_imp]
      constructor
      · rintro (he | rfl | hb)
        · exact .inr (.inl he)
        · exact .inl rfl
        · exact .inr (.inr hb)
      · rintro (rfl | he | hb)
        · exact .inr (.inl rfl)
        · exact .inl he
        · exact .inr (.inr hb)
    rcases hnew with ⟨e, he, rfl⟩ | ⟨hno, hroom, rfl⟩
    · have htracked : { o with pending := insertAt Boundary.segment b o.pending }.tracked
          = o.tracked := by
        ext segment
        rw [hmem]
        constructor
        · rintro (rfl | h)
          · obtain ⟨he, hsegment, hboundary⟩ := (boundaryIn_eq_some hkept.entries).mp he
            exact mem_tracked.mpr (.inl ⟨e, he, hboundary, hsegment⟩)
          · exact h
        · exact .inr
      exact { hkept with pending := hordered, segments := hkept.segments.trans (congrArg _ htracked.symm) }
    · have hnot : b.segment ∉ o.tracked := by
        rw [mem_tracked]
        rintro (⟨e, he, hboundary, hsegment⟩ | ⟨x, hx, hsegment⟩)
        · exact (boundaryIn_eq_none hkept.entries).mp hno e he ⟨hsegment, hboundary⟩
        · exact hfresh x hx hsegment
      have htracked : { o with pending := insertAt Boundary.segment b o.pending,
                               segments := o.segments + 1 }.tracked
          = insert b.segment o.tracked := by
        ext segment
        rw [Finset.mem_insert, ← hmem]
        rfl
      refine { hkept with pending := hordered, segments := ?_, segments_le := ?_ }
      · rw [htracked, Finset.card_insert_of_notMem hnot, ← hkept.segments]
      · have := hkept.segments_le
        simp only
        omega

/-! ## Discards -/

/-- **What holding a discard does**: nothing for one that is carried or held, and else it is held. -/
theorem hold_cases {d : Decision} (h : o.hold d = .ok o') :
    o' = o ∨ (lookup Entry.slot (discardPin d).slot o.entries = none
      ∧ lookup (fun h => h.pin.slot) (discardPin d).slot o.discards = none
      ∧ o.decisions ≠ o.limits.decisions
      ∧ o' = { o with
        discards := insertAt (fun h => h.pin.slot) ⟨discardPin d, d.prepare, false⟩ o.discards
        decisions := o.decisions + 1 }) := by
  have hdiscard : (discardPin d).isDiscard = true := rfl
  unfold hold at h
  simp only [lookup_discard hdiscard, lookup_held hdiscard] at h
  split at h
  next => cases h
  next =>
    split at h
    next =>
      split at h
      next => exact .inl (Except.ok.inj h).symm
      next => cases h
    next hcarried =>
      split at h
      next =>
        split at h
        next => exact .inl (Except.ok.inj h).symm
        next => cases h
      next hheld =>
        split at h
        next => cases h
        next hroom =>
          rw [insertAt_held hdiscard] at h
          exact .inr ⟨hcarried, hheld, hroom, (Except.ok.inj h).symm⟩

theorem Kept.hold (hkept : o.Kept) {d : Decision} (h : o.hold d = .ok o') : o'.Kept := by
  rcases hold_cases h with rfl | ⟨hcarried, hheld, hroom, rfl⟩
  · exact hkept
  have hnew := hkept.discards.lookup_eq_none.mp hheld
  have hapart := hkept.entries.lookup_eq_none.mp hcarried
  refine ⟨hkept.entries, hkept.plain, hkept.pending, hkept.discards.insertAt hnew, ?_, ?_,
    hkept.segments, ?_, hkept.segments_le, ?_, hkept.limits⟩
  · intro held hmem
    rcases mem_insertAt.mp hmem with rfl | hmem
    · rfl
    · exact hkept.pins held hmem
  · intro held hmem e he heq
    rcases mem_insertAt.mp hmem with rfl | hmem
    · exact hapart e he heq.symm
    · exact hkept.apart held hmem e he heq
  · have hnot : discardPin d ∉ o.decided := by
      rw [mem_decided]
      rintro (⟨he, _⟩ | ⟨held, hmem, hpin⟩)
      · exact hapart _ he rfl
      · exact hnew held hmem (by rw [hpin])
    have hdecided : { o with
        discards := insertAt (fun h => h.pin.slot) ⟨discardPin d, d.prepare, false⟩ o.discards
        decisions := o.decisions + 1 }.decided = insert (discardPin d) o.decided := by
      ext pin
      rw [Finset.mem_insert, mem_decided, mem_decided]
      simp only [mem_insertAt, exists_eq_or_imp]
      constructor
      · rintro (he | rfl | hb)
        · exact .inr (.inl he)
        · exact .inl rfl
        · exact .inr (.inr hb)
      · rintro (rfl | he | hb)
        · exact .inr (.inl rfl)
        · exact .inl he
        · exact .inr (.inr hb)
    rw [hdecided, Finset.card_insert_of_notMem hnot, ← hkept.decisions]
  · have := hkept.decisions_le
    simp only
    omega

/-- What is released keeps its pin and its PREPARE. -/
theorem release_same {prepare : Cursor} {released : Bool} {l : List HeldDiscard}
    : ∀ {l' : List HeldDiscard}, release segment prepare released l = some l' →
      l'.map (fun h => (h.pin, h.prepare)) = l.map (fun h => (h.pin, h.prepare)) := by
  induction l with
  | nil =>
    intro l' h
    cases h
  | cons held rest ih =>
    intro l' h
    unfold release at h
    split at h
    next =>
      obtain ⟨_, ⟨⟩⟩ := Option.ite_none_left_eq_some.mp h
      rfl
    next =>
      obtain ⟨rest', hrest, rfl⟩ := Option.map_eq_some_iff.mp h
      rw [List.map_cons, List.map_cons, ih hrest]

theorem discharge_cases {d : Decision} {released : Bool} (h : o.discharge d released = .ok o') :
    ∃ discards, discards.map (fun h => (h.pin, h.prepare))
        = o.discards.map (fun h => (h.pin, h.prepare)) ∧ o' = { o with discards } := by
  unfold discharge at h
  split at h
  next => cases h
  next discards hreleased => exact ⟨discards, release_same hreleased, (Except.ok.inj h).symm⟩

/-- What is said of held discards by their pins is said of both. -/
theorem pins_same {l l' : List HeldDiscard}
    (h : l'.map (fun h => (h.pin, h.prepare)) = l.map (fun h => (h.pin, h.prepare)))
    {held : HeldDiscard} (hmem : held ∈ l') :
    ∃ held' ∈ l, held'.pin = held.pin ∧ held'.prepare = held.prepare := by
  have hin : (held.pin, held.prepare) ∈ l'.map (fun h => (h.pin, h.prepare)) :=
    List.mem_map.mpr ⟨held, hmem, rfl⟩
  rw [h] at hin
  obtain ⟨held', hmem', heq⟩ := List.mem_map.mp hin
  exact ⟨held', hmem', (Prod.mk.inj heq).1, (Prod.mk.inj heq).2⟩

theorem Kept.discharge (hkept : o.Kept) {d : Decision} {released : Bool}
    (h : o.discharge d released = .ok o') : o'.Kept := by
  obtain ⟨discards, hsame, rfl⟩ := discharge_cases h
  have hslots : Ordered (fun h => h.pin.slot) discards := by
    have hbefore := hkept.discards
    unfold Ordered at hbefore ⊢
    rw [← List.pairwise_map (f := fun h : HeldDiscard => (h.pin, h.prepare))
      (R := fun a b => a.1.slot < b.1.slot)] at hbefore ⊢
    rwa [hsame]
  refine { hkept with discards := hslots, pins := ?_, apart := ?_, decisions := ?_ }
  · intro held hmem
    obtain ⟨held', hmem', hpin, _⟩ := pins_same hsame hmem
    rw [← hpin]
    exact hkept.pins held' hmem'
  · intro held hmem e he
    obtain ⟨held', hmem', hpin, _⟩ := pins_same hsame hmem
    rw [← hpin]
    exact hkept.apart held' hmem' e he
  · have hdecided : { o with discards }.decided = o.decided := by
      ext pin
      rw [mem_decided, mem_decided]
      apply or_congr_right
      constructor
      · rintro ⟨held, hmem, rfl⟩
        obtain ⟨held', hmem', hpin, _⟩ := pins_same hsame hmem
        exact ⟨held', hmem', hpin⟩
      · rintro ⟨held, hmem, rfl⟩
        obtain ⟨held', hmem', hpin, _⟩ := pins_same hsame.symm hmem
        exact ⟨held', hmem', hpin⟩
    rw [hdecided]
    exact hkept.decisions

/-! ## Covers -/

/-- The owner takes the durable checkpoint, or the open cut, to carry something of the segment. -/
def Lingers (o : Owner) (segment : SegmentContext) : Prop :=
  o.uncounted = true ∨ segment ∈ o.covered

theorem linger_eq (o : Owner) (segment : SegmentContext) : ∃ covered uncounted,
    o.linger segment = { o with covered, uncounted } := by
  unfold linger
  split
  next => exact ⟨o.covered, o.uncounted, rfl⟩
  next =>
    split
    next => exact ⟨o.covered, true, rfl⟩
    next => exact ⟨_, o.uncounted, rfl⟩

theorem lingers_linger : (o.linger segment).Lingers segment := by
  unfold linger
  split
  next h => exact .inr (by simpa using h)
  next =>
    split
    next => exact .inl rfl
    next => exact .inr (by simp)

theorem Lingers.linger {segment other : SegmentContext} (h : o.Lingers other) :
    (o.linger segment).Lingers other := by
  unfold Owner.linger
  split
  next => exact h
  next =>
    split
    next => exact .inl rfl
    next => exact h.imp_right fun hmem => List.mem_append_left _ hmem

theorem sub32_eq {a b : Nat} (h : b ≤ a) (hmax : a < 4294967296) : sub32 a b = a - b := by
  unfold sub32
  omega

/-- What a cover of a segment takes away, which `gone` says of its entries. -/
structure Covers (o o' : Owner) (segment : SegmentContext) (gone : Entry → Prop) : Prop where
  entries : Ordered Entry.slot o'.entries
  mem_entries : ∀ e, e ∈ o'.entries ↔ e ∈ o.entries ∧ ¬ gone e
  pending : Ordered Boundary.segment o'.pending
  mem_pending : ∀ b, b ∈ o'.pending ↔ b ∈ o.pending ∧ b.segment ≠ segment
  lingers : ∀ other, o.Lingers other → o'.Lingers other
  /-- What the durable checkpoint may carry is counted. -/
  counted : ∀ e ∈ o.entries, gone e → o'.Lingers segment
  same : o'.limits = o.limits ∧ o'.cut = o.cut ∧ o'.cutOpen = o.cutOpen

/-- **The segment is tracked no longer**, if all its boundaries are gone. -/
theorem Covers.tracked {segment : SegmentContext} {gone : Entry → Prop} (h : Covers o o' segment gone)
    (hgone : ∀ e, e.isBoundary = true → (gone e ↔ e.segment = segment)) :
    o'.tracked = o.tracked.erase segment := by
  ext other
  rw [Finset.mem_erase, mem_tracked, mem_tracked]
  constructor
  · rintro (⟨e, he, hboundary, rfl⟩ | ⟨b, hb, rfl⟩)
    · obtain ⟨hmem, hnot⟩ := (h.mem_entries e).mp he
      exact ⟨fun heq => hnot ((hgone e hboundary).mpr heq), .inl ⟨e, hmem, hboundary, rfl⟩⟩
    · obtain ⟨hmem, hne⟩ := (h.mem_pending b).mp hb
      exact ⟨hne, .inr ⟨b, hmem, rfl⟩⟩
  · rintro ⟨hne, ⟨e, he, hboundary, rfl⟩ | ⟨b, hb, rfl⟩⟩
    · exact .inl ⟨e, (h.mem_entries e).mpr ⟨he, fun hg => hne ((hgone e hboundary).mp hg)⟩, hboundary, rfl⟩
    · exact .inr ⟨b, (h.mem_pending b).mpr ⟨hb, hne⟩, rfl⟩

/-- **The tables are kept by a publication that covers**, if it counts what is left. -/
theorem Covers.kept {segment : SegmentContext} {gone : Entry → Prop} (h : Covers o o' segment gone)
    (hkept : o.Kept) (hdiscards : o'.discards.Sublist o.discards) (htracked : o'.tracked ⊆ o.tracked)
    (hdecided : o'.decided ⊆ o.decided) (hsegments : o'.segments = o'.tracked.card)
    (hdecisions : o'.decisions = o'.decided.card) : o'.Kept := by
  obtain ⟨hlimits, _, _⟩ := h.same
  have hold := hkept.segments ▸ hkept.segments_le
  have hold' := hkept.decisions ▸ hkept.decisions_le
  refine ⟨h.entries, ?_, h.pending, hkept.discards.sublist hdiscards, ?_, ?_, hsegments, hdecisions, ?_, ?_, ?_⟩
  · exact fun e he => hkept.plain e ((h.mem_entries e).mp he).1
  · exact fun held hheld => hkept.pins held (hdiscards.subset hheld)
  · exact fun held hheld e he => hkept.apart held (hdiscards.subset hheld) e ((h.mem_entries e).mp he).1
  · rw [hsegments, hlimits]
    exact (Finset.card_le_card htracked).trans hold
  · rw [hdecisions, hlimits]
    exact (Finset.card_le_card hdecided).trans hold'
  · rw [hlimits]
    exact hkept.limits

/-- The places a lookup of a waiting footer erases, whether there is one or not. -/
theorem erase_pending (hkept : o.Kept) {segment : SegmentContext} :
    Ordered Boundary.segment (if (lookup Boundary.segment segment o.pending).isSome then
        eraseAt Boundary.segment segment o.pending else o.pending)
      ∧ ∀ b, b ∈ (if (lookup Boundary.segment segment o.pending).isSome then
          eraseAt Boundary.segment segment o.pending else o.pending)
        ↔ b ∈ o.pending ∧ b.segment ≠ segment := by
  cases hl : lookup Boundary.segment segment o.pending with
  | none =>
    refine ⟨hkept.pending, ?_⟩
    intro b
    simp only [Option.isSome_none, Bool.false_eq_true, if_false]
    exact ⟨fun hb => ⟨hb, hkept.pending.lookup_eq_none.mp hl b hb⟩, fun h => h.1⟩
  | some old =>
    obtain ⟨hmem, hkey⟩ := hkept.pending.lookup_eq_some.mp hl
    exact ⟨hkept.pending.eraseAt, fun b => hkept.pending.mem_eraseAt hmem hkey⟩

theorem erase_boundary (hkept : o.Kept) {segment : SegmentContext} :
    Ordered Entry.slot (if (boundaryIn o.entries segment).isSome then
        eraseAt Entry.segment segment o.entries else o.entries)
      ∧ ∀ e, e ∈ (if (boundaryIn o.entries segment).isSome then
          eraseAt Entry.segment segment o.entries else o.entries)
        ↔ e ∈ o.entries ∧ ¬ (e.segment = segment ∧ e.isBoundary = true) := by
  have herase : eraseAt Entry.segment segment o.entries
      = eraseAt Entry.slot (boundarySlot segment) o.entries := by
    unfold eraseAt
    rw [before_segment, lowerBound_segment]
  rw [herase]
  cases hb : boundaryIn o.entries segment with
  | none =>
    refine ⟨hkept.entries, ?_⟩
    intro e
    simp only [Option.isSome_none, Bool.false_eq_true, if_false]
    exact ⟨fun he => ⟨he, (boundaryIn_eq_none hkept.entries).mp hb e he⟩, fun h => h.1⟩
  | some pin =>
    obtain ⟨hmem, hkey⟩ := (boundaryIn_eq_some hkept.entries).mp hb
    refine ⟨hkept.entries.eraseAt, ?_⟩
    intro e
    rw [← slot_eq_boundary]
    exact hkept.entries.mem_eraseAt hmem (slot_eq_boundary.mpr hkey)

/-- **What a recovering publication covers**: nothing, or its segment's footer. -/
theorem recovering_cases (hkept : o.Kept) (segment : SegmentContext)
    (boundary : Option FooterReference) :
    o.coverRecovering segment boundary = o
      ∨ (segment ∈ o.tracked
        ∧ Covers o (o.coverRecovering segment boundary) segment
          (fun e => e.segment = segment ∧ e.isBoundary = true)
        ∧ (o.coverRecovering segment boundary).discards = o.discards
        ∧ (o.coverRecovering segment boundary).decisions = o.decisions
        ∧ (o.coverRecovering segment boundary).segments = sub32 o.segments 1
        ∧ (o.cutOpen = true → (o.coverRecovering segment boundary).Lingers segment)) := by
  unfold coverRecovering
  simp only
  split
  next reference newest hnewest =>
    split
    next => exact .inl rfl
    next =>
      refine .inr ?_
      have htracked : segment ∈ o.tracked := by
        rw [mem_tracked]
        cases hstale : lookup Boundary.segment segment o.pending with
        | some b =>
          obtain ⟨hmem, hkey⟩ := hkept.pending.lookup_eq_some.mp hstale
          exact .inr ⟨b, hmem, hkey⟩
        | none =>
          rw [hstale] at hnewest
          simp only [Option.map_none, Option.orElse_none, Option.map_eq_some_iff] at hnewest
          obtain ⟨e, he, _⟩ := hnewest
          obtain ⟨hmem, hsegment, hboundary⟩ := (boundaryIn_eq_some hkept.entries).mp he
          exact .inl ⟨e, hmem, hboundary, hsegment⟩
      obtain ⟨hpending, hmemPending⟩ := @erase_pending o hkept segment
      obtain ⟨hentries, hmemEntries⟩ := @erase_boundary o hkept segment
      generalize hlingered : (if (boundaryIn o.entries segment).isSome = true ∨ o.cutOpen = true then
        o.linger segment else o) = p
      obtain ⟨covered, uncounted, hp⟩ : ∃ covered uncounted, p = { o with covered, uncounted } := by
        rw [← hlingered]
        split
        next => exact linger_eq o segment
        next => exact ⟨o.covered, o.uncounted, rfl⟩
      have hkeeps : ∀ other, o.Lingers other → p.Lingers other := by
        intro other hother
        rw [← hlingered]
        split
        next => exact hother.linger
        next => exact hother
      have hsays : (boundaryIn o.entries segment).isSome = true ∨ o.cutOpen = true →
          p.Lingers segment := by
        intro hwhy
        rw [← hlingered, if_pos hwhy]
        exact lingers_linger
      refine ⟨htracked, ⟨hentries, hmemEntries, hpending, hmemPending, ?_, ?_, ?_⟩, ?_, ?_, rfl, ?_⟩
      · exact hkeeps
      · intro e he hgone
        refine hsays (.inl ?_)
        rw [(boundaryIn_eq_some hkept.entries).mpr ⟨he, hgone⟩]
        rfl
      · rw [hp]
        exact ⟨rfl, rfl, rfl⟩
      · rw [hp]
      · rw [hp]
      · exact fun hopen => hsays (.inr hopen)
  next => exact .inl rfl

theorem Kept.coverRecovering (hkept : o.Kept) (segment : SegmentContext)
    (boundary : Option FooterReference) : (o.coverRecovering segment boundary).Kept := by
  rcases recovering_cases hkept segment boundary with
    hsame | ⟨htracked, hcovers, hdiscards, hdecisions, hsegments, _⟩
  · rw [hsame]
    exact hkept
  generalize o.coverRecovering segment boundary = p at *
  have hcard := hcovers.tracked fun e hboundary => and_iff_left hboundary
  have hdecided : p.decided = o.decided := by
    ext pin
    rw [mem_decided, mem_decided, hdiscards]
    apply or_congr_left
    rw [hcovers.mem_entries]
    constructor
    · rintro ⟨⟨he, _⟩, hdiscard⟩
      exact ⟨he, hdiscard⟩
    · rintro ⟨he, hdiscard⟩
      refine ⟨⟨he, ?_⟩, hdiscard⟩
      rintro ⟨_, hboundary⟩
      rw [(discard_code hdiscard).2] at hboundary
      cases hboundary
  have hpos : 1 ≤ o.tracked.card := Finset.card_pos.mpr ⟨segment, htracked⟩
  have hmax := hkept.limits_le.1
  have hsegmentsLe := hkept.segments_le
  have hcount := hkept.segments
  have hless : p.segments = o.segments - 1 := by
    rw [hsegments, sub32_eq (by omega) (by omega)]
  refine hcovers.kept hkept (hdiscards ▸ List.Sublist.refl _) (hcard ▸ Finset.erase_subset _ _)
    (hdecided ▸ Finset.Subset.refl _) ?_ ?_
  · rw [hcard, Finset.card_erase_of_mem htracked, hless, hcount]
  · rw [hdecisions, hdecided]
    exact hkept.decisions

/-- How many entries and held discards of a segment a sealed publication covers. -/
theorem sealed_count (hkept : o.Kept) (segment : SegmentContext) :
    sub32 ((lowerBound Entry.segment segment o.entries).takeWhile
        fun e => decide (e.segment = segment)).length
        (if (boundaryIn o.entries segment).isSome then 1 else 0)
      = (o.entries.filter fun e => e.isDiscard && decide (e.segment = segment)).length := by
  have hbounds : (o.entries.filter fun e => e.isBoundary && decide (e.segment = segment)).length
      = if (boundaryIn o.entries segment).isSome then 1 else 0 := by
    have hplace : ∀ e : Entry, (e.isBoundary && decide (e.segment = segment)) = true
        ↔ e.slot = boundarySlot segment := by
      intro e
      rw [Bool.and_eq_true, decide_eq_true_eq, slot_eq_boundary]
      exact and_comm
    rw [hkept.entries.filter_key hplace, ← boundaryIn_eq]
    cases boundaryIn o.entries segment <;> rfl
  -- what a segment has is its boundary and its discards
  have hsplit : (o.entries.filter fun e => decide (e.segment = segment)).length
      = (o.entries.filter fun e => e.isBoundary && decide (e.segment = segment)).length
        + (o.entries.filter fun e => e.isDiscard && decide (e.segment = segment)).length := by
    rw [← List.countP_eq_length_filter, ← List.countP_eq_length_filter,
      ← List.countP_eq_length_filter,
      countP_split (fun e : Entry => decide (e.segment = segment)) Entry.isBoundary]
    congr 1
    · apply countP_same
      intro e _
      exact Bool.and_comm _ _
    · apply countP_same
      intro e he
      rcases hkept.plain e he with hb | hd
      · have hnot : e.isDiscard = false := by
          by_contra hd
          rw [Bool.not_eq_false] at hd
          rw [(discard_code hd).2] at hb
          cases hb
        simp [hb, hnot]
      · simp [hd, (discard_code hd).2]
  rw [((weak_segment hkept.entries).lowerBound_split fun e => decide_eq_true_iff).1, hsplit, hbounds]
  unfold sub32
  have hshort : (o.entries.filter fun e => e.isDiscard && decide (e.segment = segment)).length
      ≤ o.decisions := by
    rw [hkept.decisions, hkept.card_decided]
    have hsub : (o.entries.filter fun e => e.isDiscard && decide (e.segment = segment)).length
        ≤ (o.entries.filter Entry.isDiscard).length := by
      rw [← List.countP_eq_length_filter, ← List.countP_eq_length_filter]
      apply List.countP_mono_left
      intro e _ h
      exact (Bool.and_eq_true _ _ ▸ h).1
    omega
  have hmax := hkept.limits_le.2
  have hle := hkept.decisions_le
  omega

theorem isSome_pending (hkept : o.Kept) :
    (lookup Boundary.segment segment o.pending).isSome = true
      ↔ ∃ b ∈ o.pending, b.segment = segment := hkept.pending.weak.lookup_isSome

theorem isSome_boundary (hkept : o.Kept) :
    (boundaryIn o.entries segment).isSome = true
      ↔ ∃ e ∈ o.entries, e.isBoundary = true ∧ e.segment = segment := by
  rw [boundaryIn_eq, hkept.entries.weak.lookup_isSome]
  simp only [slot_eq_boundary, and_comm]

/-- **What a sealed or a deleting publication covers**: all its segment has. -/
theorem sealed_cases (hkept : o.Kept) (segment : SegmentContext) :
    Covers o (o.coverSealed segment) segment (fun e => e.segment = segment)
      ∧ (o.coverSealed segment).discards
        = o.discards.filter (fun h => decide (h.pin.segment ≠ segment))
      ∧ (o.coverSealed segment).segments
        = (if segment ∈ o.tracked then sub32 o.segments 1 else o.segments)
      ∧ (o.coverSealed segment).decisions = sub32 o.decisions
        ((o.entries.filter fun e => e.isDiscard && decide (e.segment = segment)).length
          + (o.discards.filter fun h => decide (h.pin.segment = segment)).length)
      ∧ (o.cutOpen = true → (segment ∈ o.tracked ∨ ∃ h ∈ o.discards, h.pin.segment = segment) →
        (o.coverSealed segment).Lingers segment) := by
  unfold coverSealed
  simp only [sealed_count hkept]
  generalize hcarried : (o.entries.filter fun e =>
    e.isDiscard && decide (e.segment = segment)).length = carried
  generalize hheld : (o.discards.filter fun h => decide (h.pin.segment = segment)).length = held
  have htracked : ((boundaryIn o.entries segment).isSome = true
      ∨ (lookup Boundary.segment segment o.pending).isSome = true) ↔ segment ∈ o.tracked := by
    rw [isSome_boundary hkept, isSome_pending hkept, mem_tracked]
  obtain ⟨hpending, hmemPending⟩ := @erase_pending o hkept segment
  have hweak := weak_segment hkept.entries
  -- what lingering changes is neither a table nor a counter
  generalize hbare : ({ o with
    pending := if (lookup Boundary.segment segment o.pending).isSome = true then
        eraseAt Boundary.segment segment o.pending else o.pending
    entries := eraseAll Entry.segment segment o.entries
    discards := o.discards.filter fun h => decide (h.pin.segment ≠ segment)
    decisions := sub32 o.decisions (carried + held)
    segments := if (boundaryIn o.entries segment).isSome = true
        ∨ (lookup Boundary.segment segment o.pending).isSome = true then sub32 o.segments 1
      else o.segments } : Owner) = bare
  generalize hlingered : (if (boundaryIn o.entries segment).isSome = true ∨ carried ≠ 0
      ∨ o.cutOpen = true ∧ ((lookup Boundary.segment segment o.pending).isSome = true ∨ held ≠ 0)
    then bare.linger segment else bare) = p
  obtain ⟨covered, uncounted, hp⟩ : ∃ covered uncounted, p = { bare with covered, uncounted } := by
    rw [← hlingered]
    split
    next => exact linger_eq bare segment
    next => exact ⟨bare.covered, bare.uncounted, rfl⟩
  have hsays : ((boundaryIn o.entries segment).isSome = true ∨ carried ≠ 0
      ∨ o.cutOpen = true ∧ ((lookup Boundary.segment segment o.pending).isSome = true ∨ held ≠ 0)) →
      p.Lingers segment := by
    intro hwhy
    rw [← hlingered, if_pos hwhy]
    exact lingers_linger
  have hkeeps : ∀ other, o.Lingers other → p.Lingers other := by
    intro other hother
    have hbareLingers : bare.Lingers other := by
      rw [← hbare]
      exact hother
    rw [← hlingered]
    split
    next => exact hbareLingers.linger
    next => exact hbareLingers
  refine ⟨⟨?_, ?_, ?_, ?_, hkeeps, ?_, ?_⟩, ?_, ?_, ?_, ?_⟩
  · rw [hp, ← hbare]
    exact hkept.entries.sublist Weak.eraseAll_sublist
  · intro e
    rw [hp, ← hbare]
    exact hweak.mem_eraseAll
  · rw [hp, ← hbare]
    exact hpending
  · rw [hp, ← hbare]
    exact hmemPending
  · intro e he hsegment
    apply hsays
    rcases hkept.plain e he with hboundary | hdiscard
    · exact .inl ((isSome_boundary hkept).mpr ⟨e, he, hboundary, hsegment⟩)
    · refine .inr (.inl ?_)
      rw [← hcarried]
      apply Nat.ne_of_gt
      apply List.length_pos_of_mem (a := e)
      rw [List.mem_filter]
      exact ⟨he, by simp [hdiscard, hsegment]⟩
  · rw [hp, ← hbare]
    exact ⟨rfl, rfl, rfl⟩
  · rw [hp, ← hbare]
  · rw [hp, ← hbare]
    simp only [htracked]
  · rw [hp, ← hbare]
  · intro hopen hwhy
    apply hsays
    rcases hwhy with hin | ⟨h, hmem, hsegment⟩
    · rcases htracked.mpr hin with hboundary | hstale
      · exact .inl hboundary
      · exact .inr (.inr ⟨hopen, .inl hstale⟩)
    · refine .inr (.inr ⟨hopen, .inr ?_⟩)
      rw [← hheld]
      apply Nat.ne_of_gt
      apply List.length_pos_of_mem (a := h)
      rw [List.mem_filter]
      exact ⟨hmem, by simpa using hsegment⟩

/-- The discards of a segment, by what is carried and what is held of them. -/
theorem card_decided_of (hkept : o.Kept) (segment : SegmentContext) :
    (o.decided.filter fun pin => pin.segment = segment).card
      = (o.entries.filter fun e => e.isDiscard && decide (e.segment = segment)).length
        + (o.discards.filter fun h => decide (h.pin.segment = segment)).length := by
  have hlist : (o.decided.filter fun pin => pin.segment = segment)
      = ((o.entries.filter Entry.isDiscard ++ o.discards.map HeldDiscard.pin).filter
          fun pin => decide (pin.segment = segment)).toFinset := by
    unfold decided
    rw [List.toFinset_filter]
    congr 1
    ext pin
    simp
  rw [hlist, List.toFinset_card_of_nodup (hkept.nodup_decided.filter _), List.filter_append,
    List.length_append, List.filter_filter, List.filter_map, List.length_map]
  congr 2
  apply List.filter_congr
  intro e _
  exact Bool.and_comm _ _

theorem Kept.coverSealed (hkept : o.Kept) (segment : SegmentContext) :
    (o.coverSealed segment).Kept := by
  obtain ⟨hcovers, hdiscards, hsegments, hdecisions, _⟩ := sealed_cases hkept segment
  generalize o.coverSealed segment = p at *
  have hcard := hcovers.tracked fun e _ => Iff.rfl
  have hdecided : p.decided = o.decided.filter fun pin => ¬ pin.segment = segment := by
    ext pin
    rw [Finset.mem_filter, mem_decided, mem_decided, hdiscards, hcovers.mem_entries]
    simp only [List.mem_filter, decide_eq_true_eq]
    constructor
    · rintro (⟨⟨he, hne⟩, hdiscard⟩ | ⟨h, ⟨hmem, hne⟩, rfl⟩)
      · exact ⟨.inl ⟨he, hdiscard⟩, hne⟩
      · exact ⟨.inr ⟨h, hmem, rfl⟩, hne⟩
    · rintro ⟨⟨he, hdiscard⟩ | ⟨h, hmem, rfl⟩, hne⟩
      · exact .inl ⟨⟨he, hne⟩, hdiscard⟩
      · exact .inr ⟨h, ⟨hmem, hne⟩, rfl⟩
  obtain ⟨hmaxSegments, hmaxDecisions⟩ := hkept.limits_le
  have hsegmentsLe := hkept.segments_le
  have hdecisionsLe := hkept.decisions_le
  have hcountSegments := hkept.segments
  have hcountDecisions := hkept.decisions
  have hsplit := Finset.card_filter_add_card_filter_not (s := o.decided)
    fun pin => pin.segment = segment
  rw [← card_decided_of hkept segment] at hdecisions
  refine hcovers.kept hkept (hdiscards ▸ List.filter_sublist) (hcard ▸ Finset.erase_subset _ _)
    (hdecided ▸ Finset.filter_subset _ _) ?_ ?_
  · rw [hcard, hsegments]
    split
    next hin =>
      have hpos : 1 ≤ o.tracked.card := Finset.card_pos.mpr ⟨segment, hin⟩
      rw [Finset.card_erase_of_mem hin, sub32_eq (by omega) (by omega), hcountSegments]
    next hnot => rw [Finset.erase_eq_of_notMem hnot, hcountSegments]
  · rw [hdecided, hdecisions, sub32_eq (by omega) (by omega)]
    omega

/-- Covering, whatever the publication says. -/
theorem Kept.cover (hkept : o.Kept) {p : Publication} (h : o.cover p = .ok o') : o'.Kept := by
  unfold Owner.cover at h
  split at h
  · cases h
    exact hkept.coverRecovering _ _
  · cases h
    exact hkept.coverSealed _
  · cases h
    exact hkept.coverSealed _
  · cases h

end Owner

end KwaqueStorage.Pins
