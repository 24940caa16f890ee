import KwaqueStorage.Pins.Tables

/-!
# Cuts

A cut is a copy of the table with the held discards its end has passed, and the footers still to be
read (`Exact`, against the owner as it was when the cut was taken). Until it is adopted the owner only
lets go of entries, and a segment whose boundary it keeps keeps the footer that waits (`Since`): that
is what makes the counters right for the table the cut becomes, although adopting it counts nothing.
-/

namespace KwaqueStorage.Pins

open Extent Lib

/-! ## The copy -/

section Merge

variable {end_ : Cursor} {entries : List Entry}

theorem mem_mergeDiscards {pin : Entry} : ∀ {discards : List HeldDiscard},
    pin ∈ Owner.mergeDiscards end_ discards entries
      ↔ pin ∈ entries ∨ ∃ h ∈ discards, h.pin = pin ∧ h.prepare < end_ := by
  induction entries with
  | nil =>
    intro discards
    unfold Owner.mergeDiscards
    simp only [List.mem_map, List.mem_filter, decide_eq_true_eq, List.not_mem_nil, false_or]
    constructor
    · rintro ⟨h, ⟨hmem, hlt⟩, rfl⟩
      exact ⟨h, hmem, rfl, hlt⟩
    · rintro ⟨h, hmem, rfl, hlt⟩
      exact ⟨h, ⟨hmem, hlt⟩, rfl⟩
  | cons e rest ih =>
    intro discards
    unfold Owner.mergeDiscards
    rw [List.mem_append, List.mem_cons, ih, List.mem_cons]
    simp only [List.mem_map, List.mem_filter, decide_eq_true_eq]
    have hsplit : ∀ h : HeldDiscard, h ∈ discards
        ↔ h ∈ before (fun h => h.pin.key) e.key discards
          ∨ h ∈ lowerBound (fun h => h.pin.key) e.key discards := by
      intro h
      rw [← List.mem_append, before_append_lowerBound]
    constructor
    · rintro (⟨h, ⟨hmem, hlt⟩, rfl⟩ | rfl | hin | ⟨h, hmem, rfl, hlt⟩)
      · exact .inr ⟨h, (hsplit h).mpr (.inl hmem), rfl, hlt⟩
      · exact .inl (.inl rfl)
      · exact .inl (.inr hin)
      · exact .inr ⟨h, (hsplit h).mpr (.inr hmem), rfl, hlt⟩
    · rintro ((rfl | hin) | ⟨h, hmem, rfl, hlt⟩)
      · exact .inr (.inl rfl)
      · exact .inr (.inr (.inl hin))
      · rcases (hsplit h).mp hmem with hmem | hmem
        · exact .inl ⟨h, ⟨hmem, hlt⟩, rfl⟩
        · exact .inr (.inr (.inr ⟨h, hmem, rfl, hlt⟩))

/-- Pins in the order of their places, less those an end has not passed. -/
theorem ordered_passed {discards : List HeldDiscard}
    (h : Ordered (fun h => h.pin.slot) discards) :
    Ordered Entry.slot ((discards.filter fun h => decide (h.prepare < end_)).map HeldDiscard.pin) := by
  unfold Ordered
  rw [List.pairwise_map]
  exact h.filter _

/-- **The copy is in order**: each held discard goes before the first entry past its place. -/
theorem ordered_mergeDiscards (hentries : Ordered Entry.slot entries) :
    ∀ {discards : List HeldDiscard}, Ordered (fun h => h.pin.slot) discards →
      (∀ h ∈ discards, h.pin.isDiscard = true) →
      (∀ h ∈ discards, ∀ e ∈ entries, h.pin.slot ≠ e.slot) →
      Ordered Entry.slot (Owner.mergeDiscards end_ discards entries) := by
  induction entries with
  | nil =>
    intro discards hdiscards _ _
    exact ordered_passed hdiscards
  | cons e rest ih =>
    intro discards hdiscards hpins hapart
    obtain ⟨hfirst, hrest⟩ := List.pairwise_cons.mp hentries
    have hsub : (lowerBound (fun h => h.pin.key) e.key discards).Sublist discards :=
      List.dropWhile_sublist _
    have hbefore : (before (fun h => h.pin.key) e.key discards).Sublist discards :=
      List.takeWhile_sublist _
    have htail := @ih hrest _ (hdiscards.sublist hsub) (fun h hmem => hpins h (hsub.subset hmem))
      (fun h hmem x hx => hapart h (hsub.subset hmem) x (List.mem_cons_of_mem _ hx))
    -- what follows the entry lies past it
    have hpast : ∀ pin ∈ Owner.mergeDiscards end_
        (lowerBound (fun h => h.pin.key) e.key discards) rest, e.slot < pin.slot := by
      intro pin hpin
      rcases mem_mergeDiscards.mp hpin with hin | ⟨h, hmem, rfl, _⟩
      · exact hfirst pin hin
      · have hkeys : Ordered (fun h => h.pin.key) discards :=
          List.Pairwise.imp (fun hlt => slot_lt_key hlt) hdiscards
        have hle : e.key ≤ h.pin.key := hkeys.le_of_mem_lowerBound hmem
        have hmem := hsub.subset hmem
        refine lt_of_le_of_ne (not_lt.mp fun hlt => ?_) (hapart h hmem e List.mem_cons_self).symm
        exact absurd ((discard_lt_key (hpins h hmem)).mpr hlt) (not_lt.mpr hle)
    have hleft : ∀ pin ∈ ((before (fun h => h.pin.key) e.key discards).filter
        fun h => decide (h.prepare < end_)).map HeldDiscard.pin, pin.slot < e.slot := by
      intro pin hpin
      obtain ⟨h, hmem, rfl⟩ := List.mem_map.mp hpin
      have hmem := (List.mem_filter.mp hmem).1
      have hlt : h.pin.key < e.key :=
        @lt_of_mem_before _ _ _ (fun h : HeldDiscard => h.pin.key) h e.key discards hmem
      exact (discard_lt_key (hpins h (hbefore.subset hmem))).mp hlt
    unfold Owner.mergeDiscards Ordered
    rw [List.pairwise_append, List.pairwise_cons]
    refine ⟨ordered_passed (hdiscards.sublist hbefore), ⟨hpast, htail⟩, ?_⟩
    intro a ha b hb
    rcases List.mem_cons.mp hb with rfl | hb
    · exact hleft a ha
    · exact (hleft a ha).trans (hpast b hb)

end Merge

/-- **What a cut carries**, of the owner it was taken from. -/
structure Capture.Exact (taken : Owner) (c : Capture) : Prop where
  entries : Ordered Entry.slot c.entries
  plain : ∀ e ∈ c.entries, e.isBoundary = true ∨ e.isDiscard = true
  refresh : c.refresh = taken.pending
  discards : ∀ e, e.isDiscard = true → (e ∈ c.entries
    ↔ e ∈ taken.entries ∨ ∃ h ∈ taken.discards, h.pin = e ∧ h.prepare < c.end_)
  boundaries : ∀ e ∈ c.entries, e.isBoundary = true → e.segment ∈ taken.tracked
  /-- A boundary whose segment made no progress stays as it is. -/
  carried : ∀ e ∈ taken.entries, e.isBoundary = true →
    (∀ b ∈ taken.pending, b.segment ≠ e.segment) → e ∈ c.entries
  installed : ∀ i < c.installed, ∀ b, c.refresh[i]? = some b → ∃ e ∈ c.entries,
    e.isBoundary = true ∧ e.segment = b.segment ∧ e.locator = b.footer.begin_

section Cut

variable {o o' taken : Owner} {c c' : Capture}

theorem capture_exact (hkept : o.Kept) (end_ : Cursor) : (o.capture end_).2.Exact o where
  entries := ordered_mergeDiscards hkept.entries hkept.discards hkept.pins hkept.apart
  plain := by
    intro e he
    rcases mem_mergeDiscards.mp he with he | ⟨h, hmem, rfl, _⟩
    · exact hkept.plain e he
    · exact .inr (hkept.pins h hmem)
  refresh := rfl
  discards := fun e _ => mem_mergeDiscards
  boundaries := by
    intro e he hboundary
    rcases mem_mergeDiscards.mp he with he | ⟨h, hmem, rfl, _⟩
    · exact Owner.mem_tracked.mpr (.inl ⟨e, he, hboundary, rfl⟩)
    · rw [(discard_code (hkept.pins h hmem)).2] at hboundary
      cases hboundary
  carried := fun e he _ _ => mem_mergeDiscards.mpr (.inl he)
  installed := by
    intro i hi
    exact absurd hi (Nat.not_lt_zero i)

/-- **Installing a pin** changes its segment's boundary and nothing else. -/
theorem install_cases (hexact : c.Exact taken) {reference : FooterReference}
    (h : c.install reference = .ok c') : ∃ b, c.refresh[c.installed]? = some b
      ∧ reference.position = b.footer.begin_ ∧ Ordered Entry.slot c'.entries
      ∧ (∀ e, e ∈ c'.entries ↔ e = boundaryPin b reference
        ∨ (e ∈ c.entries ∧ e.slot ≠ boundarySlot b.segment))
      ∧ c'.installed = c.installed + 1 ∧ c'.refresh = c.refresh ∧ c'.end_ = c.end_
      ∧ c'.cut = c.cut := by
  unfold Capture.install at h
  split at h
  next => cases h
  next b hb =>
    split at h
    next => cases h
    next hspan =>
      simp only [not_or, not_not] at hspan
      simp only at h
      cases h
      have hslot : (boundaryPin b reference).slot = boundarySlot b.segment :=
        slot_eq_boundary.mpr ⟨rfl, rfl⟩
      refine ⟨b, hb, hspan.1, ?_⟩
      cases hpinned : boundaryIn c.entries b.segment with
      | some old =>
        obtain ⟨hold, hkey⟩ := (boundaryIn_eq_some hexact.entries).mp hpinned
        have hplace := (slot_eq_boundary.mpr hkey).trans hslot.symm
        have hreplace : replaceAt Entry.segment (boundaryPin b reference) c.entries
            = replaceAt Entry.slot (boundaryPin b reference) c.entries := by
          unfold replaceAt
          rw [hslot, ← lowerBound_segment, ← before_segment]
          rfl
        obtain ⟨hordered, hmem⟩ := hexact.entries.replaceAt hold hplace
        simp only [Option.isSome_some, if_true, hreplace]
        rw [hslot] at hmem
        exact ⟨hordered, hmem, trivial, trivial, trivial, trivial⟩
      | none =>
        have hnone := (boundaryIn_eq_none hexact.entries).mp hpinned
        have hnew : ∀ e ∈ c.entries, e.slot ≠ boundarySlot b.segment := by
          intro e he heq
          exact hnone e he (slot_eq_boundary.mp heq)
        have hinsert : insertAt Entry.segment (boundaryPin b reference) c.entries
            = insertAt Entry.slot (boundaryPin b reference) c.entries := by
          unfold insertAt
          rw [hslot, ← lowerBound_segment, ← before_segment]
          rfl
        simp only [Option.isSome_none, Bool.false_eq_true, if_false, hinsert]
        refine ⟨hexact.entries.insertAt (by rwa [hslot]), ?_, trivial, trivial, trivial, trivial⟩
        intro e
        rw [mem_insertAt]
        constructor
        · rintro (rfl | he)
          · exact .inl rfl
          · exact .inr ⟨he, hnew e he⟩
        · rintro (rfl | ⟨he, _⟩)
          · exact .inl rfl
          · exact .inr he

theorem install_exact (hkept : taken.Kept) (hexact : c.Exact taken) {reference : FooterReference}
    (h : c.install reference = .ok c') : c'.Exact taken := by
  obtain ⟨b, hb, hposition, hordered, hmem, hinstalled, hrefresh, hend, _⟩ := install_cases hexact h
  have hpin : (boundaryPin b reference).isBoundary = true := rfl
  have hwaits : b ∈ taken.pending := by
    rw [← hexact.refresh]
    exact List.mem_of_getElem? hb
  have hslot : ∀ e : Entry, e.isDiscard = true → e.slot ≠ boundarySlot b.segment := by
    intro e hdiscard heq
    have := (slot_eq_boundary.mp heq).2
    rw [(discard_code hdiscard).2] at this
    cases this
  refine ⟨hordered, ?_, hrefresh.trans hexact.refresh, ?_, ?_, ?_, ?_⟩
  · intro e he
    rcases (hmem e).mp he with rfl | ⟨he, _⟩
    · exact .inl hpin
    · exact hexact.plain e he
  · intro e hdiscard
    rw [hend, ← hexact.discards e hdiscard, hmem]
    constructor
    · rintro (rfl | ⟨he, _⟩)
      · rw [(discard_code hdiscard).2] at hpin
        cases hpin
      · exact he
    · exact fun he => .inr ⟨he, hslot e hdiscard⟩
  · intro e he hboundary
    rcases (hmem e).mp he with rfl | ⟨he, _⟩
    · exact Owner.mem_tracked.mpr (.inr ⟨b, hwaits, rfl⟩)
    · exact hexact.boundaries e he hboundary
  · intro e he hboundary hnone
    refine (hmem e).mpr (.inr ⟨hexact.carried e he hboundary hnone, ?_⟩)
    intro heq
    exact hnone b hwaits (slot_eq_boundary.mp heq).1.symm
  · intro i hi x hx
    rw [hinstalled] at hi
    rw [hrefresh] at hx
    by_cases hlast : i = c.installed
    · subst hlast
      rw [hb] at hx
      cases hx
      exact ⟨_, (hmem _).mpr (.inl rfl), rfl, rfl, hposition⟩
    · obtain ⟨e, he, hboundary, hsegment, hlocator⟩ := hexact.installed i (by omega) x hx
      refine ⟨e, (hmem e).mpr (.inr ⟨he, ?_⟩), hboundary, hsegment, hlocator⟩
      -- each segment waits once
      intro heq
      have hsame : x.segment = b.segment := hsegment.symm.trans (slot_eq_boundary.mp heq).1
      have hrefreshed : Ordered Boundary.segment c.refresh := by
        rw [hexact.refresh]
        exact hkept.pending
      obtain rfl := hrefreshed.unique (List.mem_of_getElem? hx) (List.mem_of_getElem? hb) hsame
      exact hlast ((List.getElem?_inj (List.getElem?_eq_some_iff.mp hx).1 hrefreshed.nodup).mp
        (hx.trans hb.symm))

/-- A cut whose pins are all installed has a boundary for each footer it was to read. -/
theorem Capture.Exact.refreshed (hexact : c.Exact taken) (hcomplete : c.complete = true)
    {b : Boundary} (hb : b ∈ c.refresh) : ∃ e ∈ c.entries,
      e.isBoundary = true ∧ e.segment = b.segment ∧ e.locator = b.footer.begin_ := by
  obtain ⟨i, hi⟩ := List.getElem?_of_mem hb
  have hlength := (List.getElem?_eq_some_iff.mp hi).1
  have hall : c.installed = c.refresh.length := of_decide_eq_true hcomplete
  exact hexact.installed i (by omega) b hi

/-! ## Until it is adopted -/

/-- Something of the segment is in the tables. -/
def Owner.Holds (o : Owner) (segment : SegmentContext) : Prop :=
  (∃ e ∈ o.entries, e.segment = segment) ∨ (∃ b ∈ o.pending, b.segment = segment)
    ∨ ∃ h ∈ o.discards, h.pin.segment = segment

/-- **What has become of an owner since a cut was taken.** -/
structure Since (taken o : Owner) : Prop where
  entries : ∀ e ∈ o.entries, e ∈ taken.entries
  waits : ∀ e ∈ o.entries, e.isBoundary = true →
    (∃ b ∈ taken.pending, b.segment = e.segment) → ∃ b ∈ o.pending, b.segment = e.segment
  /-- What is no longer tracked of a segment is counted. -/
  holds : ∀ segment, taken.Holds segment → o.Holds segment ∨ o.Lingers segment

theorem capture_since (o : Owner) (end_ : Cursor) : Since o (o.capture end_).1 :=
  ⟨fun _ he => he, fun _ _ _ h => h, fun _ h => .inl h⟩

theorem Since.observe (hkept : o.Kept) (hsince : Since taken o) {b : Boundary}
    (h : o.observe b = .ok o') : Since taken o' := by
  have hgrows : o'.entries = o.entries ∧ o'.discards = o.discards
      ∧ (∀ segment, o.Lingers segment → o'.Lingers segment)
      ∧ ∀ x ∈ o.pending, ∃ y ∈ o'.pending, y.segment = x.segment := by
    rcases Owner.observe_cases h with ⟨_, _, _, _, rfl⟩ | ⟨old, hold, rfl⟩
      | ⟨_, ⟨_, _, rfl⟩ | ⟨_, _, rfl⟩⟩
    · exact ⟨rfl, rfl, fun _ h => h, fun x hx => ⟨x, hx, rfl⟩⟩
    · obtain ⟨hmem, hsegment⟩ := hkept.pending.lookup_eq_some.mp hold
      refine ⟨rfl, rfl, fun _ h => h, ?_⟩
      intro x hx
      have hin := (hkept.pending.replaceAt hmem hsegment).2
      by_cases hkey : x.segment = b.segment
      · exact ⟨b, (hin b).mpr (.inl rfl), hkey.symm⟩
      · exact ⟨x, (hin x).mpr (.inr ⟨hx, hkey⟩), rfl⟩
    · exact ⟨rfl, rfl, fun _ h => h, fun x hx => ⟨x, mem_insertAt.mpr (.inr hx), rfl⟩⟩
    · exact ⟨rfl, rfl, fun _ h => h, fun x hx => ⟨x, mem_insertAt.mpr (.inr hx), rfl⟩⟩
  obtain ⟨hentries, hdiscards, hlingers, hpending⟩ := hgrows
  refine ⟨?_, ?_, ?_⟩
  · rw [hentries]
    exact hsince.entries
  · rw [hentries]
    intro e he hboundary hwaited
    obtain ⟨x, hx, hsegment⟩ := hsince.waits e he hboundary hwaited
    obtain ⟨y, hy, hsame⟩ := hpending x hx
    exact ⟨y, hy, hsame.trans hsegment⟩
  · intro segment hheld
    refine (hsince.holds segment hheld).imp ?_ (hlingers segment)
    unfold Owner.Holds
    rw [hentries, hdiscards]
    rintro (he | ⟨x, hx, rfl⟩ | hh)
    · exact .inl he
    · obtain ⟨y, hy, hsame⟩ := hpending x hx
      exact .inr (.inl ⟨y, hy, hsame⟩)
    · exact .inr (.inr hh)

/-- A call that changes the held discards alone, and drops none of them. -/
theorem Since.held (hsince : Since taken o) {discards : List HeldDiscard} {decisions : Nat}
    (h : ∀ x ∈ o.discards, ∃ y ∈ discards, y.pin = x.pin) :
    Since taken { o with discards, decisions } := by
  refine ⟨hsince.entries, hsince.waits, ?_⟩
  intro segment hheld
  refine (hsince.holds segment hheld).imp ?_ id
  rintro (he | hb | ⟨x, hx, rfl⟩)
  · exact .inl he
  · exact .inr (.inl hb)
  · obtain ⟨y, hy, hpin⟩ := h x hx
    exact .inr (.inr ⟨y, hy, by rw [hpin]⟩)

theorem Since.hold (hsince : Since taken o) {d : Decision} (h : o.hold d = .ok o') :
    Since taken o' := by
  rcases Owner.hold_cases h with rfl | ⟨_, _, _, rfl⟩
  · exact hsince
  · exact hsince.held fun x hx => ⟨x, mem_insertAt.mpr (.inr hx), rfl⟩

theorem Since.discharge (hsince : Since taken o) {d : Decision} {released : Bool}
    (h : o.discharge d released = .ok o') : Since taken o' := by
  obtain ⟨discards, hsame, rfl⟩ := Owner.discharge_cases h
  refine @Since.held o taken hsince discards o.decisions ?_
  intro x hx
  obtain ⟨y, hy, hpin, _⟩ := Owner.pins_same hsame.symm hx
  exact ⟨y, hy, hpin⟩

/-- What a cover takes of a segment is counted while a cut is open. -/
theorem Owner.Covers.since {segment : SegmentContext} {gone : Entry → Prop}
    (hcovers : o.Covers o' segment gone) (hgone : ∀ e, gone e → e.segment = segment)
    (hboundary : ∀ e, e.segment = segment → e.isBoundary = true → gone e)
    (hdiscards : ∀ x ∈ o.discards, x ∈ o'.discards ∨ x.pin.segment = segment)
    (hlingers : o.Holds segment → o'.Holds segment ∨ o'.Lingers segment)
    (hsince : Since taken o) : Since taken o' := by
  refine ⟨?_, ?_, ?_⟩
  · intro e he
    exact hsince.entries e ((hcovers.mem_entries e).mp he).1
  · intro e he hb hwaited
    obtain ⟨hmem, hnot⟩ := (hcovers.mem_entries e).mp he
    obtain ⟨x, hx, hsegment⟩ := hsince.waits e hmem hb hwaited
    refine ⟨x, (hcovers.mem_pending x).mpr ⟨hx, ?_⟩, hsegment⟩
    intro heq
    exact hnot (hboundary e (hsegment.symm.trans heq) hb)
  · intro other hheld
    rcases hsince.holds other hheld with hholds | hl
    · by_cases hother : other = segment
      · subst hother
        exact hlingers hholds
      · refine .inl ?_
        rcases hholds with ⟨e, he, rfl⟩ | ⟨b, hb, rfl⟩ | ⟨x, hx, rfl⟩
        · exact .inl ⟨e, (hcovers.mem_entries e).mpr ⟨he, fun h => hother (hgone e h)⟩, rfl⟩
        · exact .inr (.inl ⟨b, (hcovers.mem_pending b).mpr ⟨hb, hother⟩, rfl⟩)
        · exact .inr (.inr ⟨x, (hdiscards x hx).resolve_right hother, rfl⟩)
    · exact .inr (hcovers.lingers other hl)

theorem Since.cover (hkept : o.Kept) (hopen : o.cutOpen = true) (hsince : Since taken o)
    {p : Publication} (h : o.cover p = .ok o') : Since taken o' := by
  have hsealed : Since taken (o.coverSealed p.segment) := by
    obtain ⟨hcovers, hdiscards, _, _, hlingers⟩ := Owner.sealed_cases hkept p.segment
    refine hcovers.since (fun _ h => h) (fun _ h _ => h) ?_ ?_ hsince
    · intro x hx
      rw [hdiscards, List.mem_filter]
      by_cases hsegment : x.pin.segment = p.segment
      · exact .inr hsegment
      · exact .inl ⟨hx, by simpa using hsegment⟩
    · rintro (⟨e, he, hsegment⟩ | hb | hh)
      · exact .inr (hcovers.counted e he hsegment)
      · exact .inr (hlingers hopen (.inl (Owner.mem_tracked.mpr (.inr hb))))
      · exact .inr (hlingers hopen (.inr hh))
  unfold Owner.cover at h
  split at h
  · cases h
    rcases Owner.recovering_cases hkept p.segment p.boundary with
      hsame | ⟨_, hcovers, hdiscards, _, _, hlingers⟩
    · rw [hsame]
      exact hsince
    · refine hcovers.since (fun _ h => h.1) (fun _ h₁ h₂ => ⟨h₁, h₂⟩) ?_ ?_ hsince
      · intro x hx
        rw [hdiscards]
        exact .inl hx
      · exact fun _ => .inr (hlingers hopen)
  · cases h
    exact hsealed
  · cases h
    exact hsealed
  · cases h

/-! ## Adopting it -/

theorem foldl_linger (segments : List SegmentContext) : ∀ (o : Owner),
    (∃ covered uncounted, segments.foldl Owner.linger o = { o with covered, uncounted })
      ∧ (∀ segment, o.Lingers segment → (segments.foldl Owner.linger o).Lingers segment)
      ∧ ∀ segment ∈ segments, (segments.foldl Owner.linger o).Lingers segment := by
  induction segments with
  | nil =>
    intro o
    exact ⟨⟨o.covered, o.uncounted, rfl⟩, fun _ h => h, by simp⟩
  | cons first rest ih =>
    intro o
    obtain ⟨⟨covered, uncounted, hsame⟩, hkeeps, hall⟩ := ih (o.linger first)
    obtain ⟨covered', uncounted', hfirst⟩ := Owner.linger_eq o first
    rw [List.foldl_cons]
    refine ⟨⟨covered, uncounted, ?_⟩, ?_, ?_⟩
    · rw [hsame, hfirst]
    · exact fun segment h => hkeeps segment h.linger
    · intro segment hmem
      rcases List.mem_cons.mp hmem with rfl | hmem
      · exact hkeeps _ Owner.lingers_linger
      · exact hall segment hmem

/-- What a cut carries is let go of when nothing tracks it. -/
theorem coveredSince_iff (hkept : o.Kept) {pin : Entry}
    (hplain : pin.isBoundary = true ∨ pin.isDiscard = true) : o.coveredSince pin = false
      ↔ (pin.isBoundary = true ∧ pin.segment ∈ o.tracked)
        ∨ (pin.isDiscard = true ∧ pin ∈ o.decided) := by
  unfold Owner.coveredSince
  rcases hplain with hboundary | hdiscard
  · have hnot : pin.isDiscard = false := by
      by_contra hd
      rw [Bool.not_eq_false] at hd
      rw [(discard_code hd).2] at hboundary
      cases hboundary
    rw [if_pos hboundary, hnot, Owner.mem_tracked, ← Owner.isSome_boundary hkept,
      ← Owner.isSome_pending hkept]
    simp only [hboundary, true_and, Bool.false_eq_true, false_and, or_false]
    cases boundaryIn o.entries pin.segment <;>
      cases lookup Boundary.segment pin.segment o.pending <;> simp
  · have hnot := (discard_code hdiscard).2
    rw [if_neg (by rw [hnot]; simp), lookup_discard hdiscard, lookup_held hdiscard, hnot,
      Owner.mem_decided]
    simp only [Bool.false_eq_true, false_and, false_or, hdiscard, and_true, true_and]
    rw [Bool.and_eq_false_iff, decide_eq_false_iff_not, decide_eq_false_iff_not, not_not, not_not,
      hkept.entries.lookup_eq_some, Option.map_eq_some_iff]
    constructor
    · rintro (⟨he, _⟩ | ⟨h, hfound, rfl⟩)
      · exact .inl he
      · exact .inr ⟨h, (hkept.discards.lookup_eq_some.mp hfound).1, rfl⟩
    · rintro (he | ⟨h, hmem, rfl⟩)
      · exact .inl ⟨he, rfl⟩
      · exact .inr ⟨h, hkept.discards.lookup_eq_some.mpr ⟨hmem, rfl⟩, rfl⟩

/-- **What adopting a cut makes of the owner.** -/
theorem adopt_cases (hkept : o.Kept) (hexact : c.Exact taken) (htaken : taken.Kept)
    (h : o.adopt c = .ok o') :
    o.cutOpen = true ∧ c.cut = o.cut ∧ c.complete = true
      ∧ o'.entries = c.entries.filter (fun pin => !o.coveredSince pin)
      ∧ (∀ b, b ∈ o'.pending ↔ b ∈ o.pending ∧ b ∉ c.refresh)
      ∧ Ordered Boundary.segment o'.pending
      ∧ (∀ x, x ∈ o'.discards ↔ x ∈ o.discards ∧ x.pin ∉ o'.entries)
      ∧ Ordered (fun x => x.pin.slot) o'.discards
      ∧ (∀ e ∈ c.entries, e ∈ o'.entries ∨ o'.Lingers e.segment)
      ∧ o'.segments = o.segments ∧ o'.decisions = o.decisions ∧ o'.limits = o.limits
      ∧ o'.cut = o.cut ∧ o'.cutOpen = false := by
  unfold Owner.adopt at h
  split at h
  next => cases h
  next hvalid =>
    simp only [not_or, Bool.not_eq_false, not_not] at hvalid
    simp only at h
    obtain ⟨⟨covered, uncounted, hsame⟩, _, hall⟩ := foldl_linger
      ((c.entries.filter o.coveredSince).map Entry.segment)
      { o with cutOpen := false, covered := [], uncounted := false }
    generalize hp : ((c.entries.filter o.coveredSince).map Entry.segment).foldl Owner.linger
      { o with cutOpen := false, covered := [], uncounted := false } = p at *
    cases h
    have htable : Ordered Entry.slot (c.entries.filter fun pin => !o.coveredSince pin) :=
      hexact.entries.filter _
    have hrefresh : Ordered Boundary.segment c.refresh := by
      rw [hexact.refresh]
      exact htaken.pending
    refine ⟨hvalid.1, hvalid.2.1, hvalid.2.2, rfl, ?_, hkept.pending.filter _, ?_,
      hkept.discards.filter _, ?_, ?_⟩
    · intro b
      rw [List.mem_filter, decide_eq_true_eq, ne_eq, hrefresh.lookup_eq_some]
      simp
    · intro x
      rw [List.mem_filter, decide_eq_true_eq, ne_eq]
      refine and_congr_right fun hx => not_congr ?_
      rw [lookup_discard (hkept.pins x hx), htable.lookup_eq_some]
      simp
    · intro e he
      cases hcovered : o.coveredSince e with
      | false => exact .inl (List.mem_filter.mpr ⟨he, by rw [hcovered]; rfl⟩)
      | true =>
        refine .inr ?_
        exact hall e.segment (List.mem_map.mpr ⟨e, List.mem_filter.mpr ⟨he, hcovered⟩, rfl⟩)
    · rw [hsame]
      exact ⟨rfl, rfl, rfl, rfl, rfl⟩

/-- **Adopting a cut counts nothing, and the counters stay right**: every segment and every discard
    that is tracked before is tracked after, as an entry of the cut or as it was. -/
theorem Owner.Kept.adopt (hkept : o.Kept) (hexact : c.Exact taken) (htaken : taken.Kept)
    (hsince : Since taken o) (h : o.adopt c = .ok o') : o'.Kept := by
  obtain ⟨_, _, hcomplete, hentries, hpending, hpendingOrdered, hdiscards, hdiscardsOrdered, _,
    hsegments, hdecisions, hlimits, _, _⟩ := adopt_cases hkept hexact htaken h
  have hmem : ∀ e, e ∈ o'.entries ↔ e ∈ c.entries ∧ o.coveredSince e = false := by
    intro e
    rw [hentries, List.mem_filter, Bool.not_eq_true']
  have hboundary : ∀ e ∈ c.entries, e.isBoundary = true → e.segment ∈ o.tracked →
      e ∈ o'.entries := by
    intro e he hb ht
    exact (hmem e).mpr ⟨he, (coveredSince_iff hkept (.inl hb)).mpr (.inl ⟨hb, ht⟩)⟩
  have hplain : ∀ e ∈ o'.entries, e.isBoundary = true ∨ e.isDiscard = true := by
    intro e he
    exact hexact.plain e ((hmem e).mp he).1
  have htracked : o'.tracked = o.tracked := by
    ext segment
    constructor
    · intro hin
      rcases Owner.mem_tracked.mp hin with ⟨e, he, hb, rfl⟩ | ⟨b, hb, rfl⟩
      · obtain ⟨hce, hcovered⟩ := (hmem e).mp he
        rcases (coveredSince_iff hkept (.inl hb)).mp hcovered with ⟨_, ht⟩ | ⟨hd, _⟩
        · exact ht
        · rw [(discard_code hd).2] at hb
          cases hb
      · exact Owner.mem_tracked.mpr (.inr ⟨b, ((hpending b).mp hb).1, rfl⟩)
    · intro hin
      have hwaiting : ∀ b ∈ o.pending, b.segment = segment → segment ∈ o'.tracked := by
        intro b hb hsegment
        by_cases hread : b ∈ c.refresh
        · obtain ⟨e, he, hbe, hse, _⟩ := hexact.refreshed hcomplete hread
          refine Owner.mem_tracked.mpr (.inl ⟨e, hboundary e he hbe ?_, hbe, hse.trans hsegment⟩)
          rw [hse, hsegment]
          exact hin
        · exact Owner.mem_tracked.mpr (.inr ⟨b, (hpending b).mpr ⟨hb, hread⟩, hsegment⟩)
      rcases Owner.mem_tracked.mp hin with ⟨e, he, hb, rfl⟩ | ⟨b, hb, hsegment⟩
      · by_cases hwaited : ∃ b ∈ taken.pending, b.segment = e.segment
        · obtain ⟨b, hbp, hsegment⟩ := hsince.waits e he hb hwaited
          exact hwaiting b hbp hsegment
        · have hce := hexact.carried e (hsince.entries e he) hb fun b hbp hs =>
            hwaited ⟨b, hbp, hs⟩
          exact Owner.mem_tracked.mpr (.inl ⟨e, hboundary e hce hb hin, hb, rfl⟩)
      · exact hwaiting b hb hsegment
  have hdecided : o'.decided = o.decided := by
    ext pin
    constructor
    · intro hin
      rcases Owner.mem_decided.mp hin with ⟨he, hd⟩ | ⟨x, hx, rfl⟩
      · obtain ⟨_, hcovered⟩ := (hmem pin).mp he
        rcases (coveredSince_iff hkept (.inr hd)).mp hcovered with ⟨hb, _⟩ | ⟨_, hdecided⟩
        · rw [(discard_code hd).2] at hb
          cases hb
        · exact hdecided
      · exact Owner.mem_decided.mpr (.inr ⟨x, ((hdiscards x).mp hx).1, rfl⟩)
    · intro hin
      rcases Owner.mem_decided.mp hin with ⟨he, hd⟩ | ⟨x, hx, rfl⟩
      · have hce := (hexact.discards pin hd).mpr (.inl (hsince.entries pin he))
        refine Owner.mem_decided.mpr (.inl ⟨(hmem pin).mpr ⟨hce, ?_⟩, hd⟩)
        exact (coveredSince_iff hkept (.inr hd)).mpr (.inr ⟨hd, hin⟩)
      · by_cases hcarried : x.pin ∈ o'.entries
        · exact Owner.mem_decided.mpr (.inl ⟨hcarried, hkept.pins x hx⟩)
        · exact Owner.mem_decided.mpr (.inr ⟨x, (hdiscards x).mpr ⟨hx, hcarried⟩, rfl⟩)
  refine ⟨?_, hplain, hpendingOrdered, hdiscardsOrdered, ?_, ?_, ?_, ?_, ?_, ?_, ?_⟩
  · rw [hentries]
    exact hexact.entries.filter _
  · intro x hx
    exact hkept.pins x ((hdiscards x).mp hx).1
  · intro x hx e he heq
    obtain ⟨hxo, hnot⟩ := (hdiscards x).mp hx
    have hd := hkept.pins x hxo
    -- an entry at a held discard's place is tracked as that discard
    have hde : e.isDiscard = true := by
      rcases hplain e he with hb | hde
      · have hslot := slot_eq_boundary.mpr ⟨rfl, hb⟩
        rw [← heq] at hslot
        have := (slot_eq_boundary.mp hslot).2
        rw [(discard_code hd).2] at this
        cases this
      · exact hde
    obtain ⟨_, hcovered⟩ := (hmem e).mp he
    rcases (coveredSince_iff hkept (.inr hde)).mp hcovered with ⟨hb, _⟩ | ⟨_, hin⟩
    · rw [(discard_code hde).2] at hb
      cases hb
    · rcases Owner.mem_decided.mp hin with ⟨heo, _⟩ | ⟨y, hy, hpin⟩
      · exact hkept.apart x hxo e heo heq
      · obtain rfl := hkept.discards.unique hxo hy (by rw [heq, hpin])
        exact hnot (hpin ▸ he)
  · rw [hsegments, htracked]
    exact hkept.segments
  · rw [hdecisions, hdecided]
    exact hkept.decisions
  · rw [hsegments, hlimits]
    exact hkept.segments_le
  · rw [hdecisions, hlimits]
    exact hkept.decisions_le
  · rw [hlimits]
    exact hkept.limits

end Cut

end KwaqueStorage.Pins
