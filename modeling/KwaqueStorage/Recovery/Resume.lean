import KwaqueStorage.Recovery.Inventory

/-!
# Resuming from a checkpoint

`locate_spec` is what makes the count of targets right, whatever mix of states the catalog has. From there on
everything is said by segment: what the pass has done after a part of the table is `Inventory.after` that
part, and what an entry of the table comes to is decided by the inventory as it was opened (`Counts`), as no
two boundaries of a table are of one segment.
-/

namespace KwaqueStorage.Recovery

open Extent Lib Pins

variable {ρ τ : Type}

/-! ## What each entry counts as -/

/-- The footer a boundary entry pins. -/
def footerOf (e : Entry) : FooterReference := ⟨e.locator, e.bytes, e.family, e.digest⟩

/-- What an entry of the table comes to. Boundaries that raise nothing have no counter. -/
inductive Counted
  | superseded
  | conflict
  | raised
  | kept
  | discard
  deriving DecidableEq

/-- The counters, one more. -/
def CheckpointResume.count (output : CheckpointResume) : Counted → CheckpointResume
  | .superseded => { output with superseded := output.superseded + 1 }
  | .conflict => { output with conflicts := output.conflicts + 1 }
  | .raised => { output with raised := output.raised + 1 }
  | .kept => output
  | .discard => { output with discards := output.discards + 1 }

/-- A boundary that a segment's entry can carry: a footer, aligned as the segment is and on its device. -/
structure Fits (c : CatalogEntry ρ) (e : Entry) : Prop where
  made : makeReference e.locator e.bytes e.family e.digest = .ok (footerOf e)
  aligned : c.history.aligned (e.locator + e.bytes) = true
  device : e.device = c.device

/-- The decision a discard names: the first held with its sequence, and the same in everything. -/
def Matches (decisions : List Decision) (e : Entry) : Prop :=
  ∃ d, decisions.find? (fun record => record.sequence = e.locator) = some d ∧ d.digest = e.digest
    ∧ d.bytes = e.bytes ∧ d.segment = e.segment ∧ d.action = .discard

/-- **What an entry counts as**, by the inventory as it was opened. -/
inductive Counts (inv : Inventory ρ τ) (decisions : List Decision) (e : Entry) : Counted → Prop
  | superseded {c} (hc : c ∈ inv.entries) (hsegment : c.segment = e.segment)
      (hwritten : c.state ≠ .prepared) (hdecided : c.live = false)
      (hkind : e.disposition ≠ .preservedCandidate) : Counts inv decisions e .superseded
  | conflict {c} (hc : c ∈ inv.entries) (hsegment : c.segment = e.segment)
      (hprepared : c.state = .prepared) (hkind : e.disposition ≠ .preservedCandidate) :
      Counts inv decisions e .conflict
  | raised {c t} (hc : c ∈ inv.entries) (hsegment : c.segment = e.segment) (hlive : c.live = true)
      (hkind : e.disposition = .segmentBoundary) (hfits : Fits c e)
      (ht : t ∈ inv.targets) (htarget : t.segment = e.segment)
      (habove : ∀ pin, t.pin = some pin → pin.position < e.locator) : Counts inv decisions e .raised
  | kept {c t pin} (hc : c ∈ inv.entries) (hsegment : c.segment = e.segment) (hlive : c.live = true)
      (hkind : e.disposition = .segmentBoundary) (hfits : Fits c e)
      (ht : t ∈ inv.targets) (htarget : t.segment = e.segment) (hpin : t.pin = some pin)
      (hbelow : e.locator ≤ pin.position) (hsame : pin.position = e.locator → pin = footerOf e) :
      Counts inv decisions e .kept
  | discard {c} (hc : c ∈ inv.entries) (hsegment : c.segment = e.segment) (hlive : c.live = true)
      (hkind : e.disposition = .authorizedDiscard) (hmatches : Matches decisions e) :
      Counts inv decisions e .discard

/-- The higher of a pin and a footer; the pin, where they are at one place. -/
def higher (pin : Option FooterReference) (reference : FooterReference) : FooterReference :=
  match pin with
  | none => reference
  | some pin => if pin.position < reference.position then reference else pin

/-- A segment's boundary in a part of the table. -/
def boundaryOf (entries : List Entry) (segment : SegmentContext) : Option Entry :=
  entries.find? fun e => e.isBoundary && decide (e.segment = segment)

namespace Inventory

/-- A segment that a boundary may raise the pin of. -/
def live (inv : Inventory ρ τ) (segment : SegmentContext) : Bool :=
  inv.entries.any fun c => c.live && decide (c.segment = segment)

/-- A catalog entry once a part of the table has been gone through: a prepared one that it names conflicts. -/
def marked (taken : List Entry) (c : CatalogEntry ρ) : CatalogEntry ρ :=
  if c.state = .prepared ∧ ∃ e ∈ taken, e.segment = c.segment then { c with conflict := true } else c

/-- A target then: at the higher of its pin and its segment's boundary. -/
def raised (inv : Inventory ρ τ) (taken : List Entry) (t : Target τ) : Target τ :=
  match boundaryOf taken t.segment with
  | none => t
  | some e => if inv.live t.segment then { t with pin := some (higher t.pin (footerOf e)) } else t

/-- **The inventory after a part of the table.** -/
def after (inv : Inventory ρ τ) (taken : List Entry) : Tables ρ τ :=
  ⟨inv.entries.map (marked taken), inv.targets.map (inv.raised taken)⟩

end Inventory

/-! ## The count finds the segment's own target -/

theorem locate_none {segment : SegmentContext} : ∀ {l : List (CatalogEntry ρ)},
    locate segment l = none → ∀ c ∈ l, c.segment ≠ segment
  | [], _, _, hmem => nomatch hmem
  | candidate :: rest, h, c, hmem => by
    unfold locate at h
    split at h
    · cases h
    · next hne =>
      rcases List.mem_cons.mp hmem with rfl | hrest
      · exact hne
      · exact locate_none (Option.map_eq_none_iff.mp h) c hrest

/-- The place of a segment is its entry's, and as many targets come before it as were counted. -/
theorem locate_spec {segment : SegmentContext} : ∀ {l : List (CatalogEntry ρ)} {place : Place},
    locate segment l = some place →
      ∃ c, l[place.index]? = some c ∧ c.segment = segment ∧
        (c.isTarget = true → (l.filter CatalogEntry.isTarget)[place.target]? = some c)
  | candidate :: rest, place, h => by
    unfold locate at h
    split at h
    · next heq =>
      cases h
      refine ⟨candidate, rfl, heq, fun htarget => ?_⟩
      rw [List.filter_cons_of_pos htarget]
      rfl
    · obtain ⟨inner, hinner, rfl⟩ := Option.map_eq_some_iff.mp h
      obtain ⟨c, hc, hsegment, htarget⟩ := locate_spec hinner
      refine ⟨c, hc, hsegment, fun ht => ?_⟩
      by_cases hstate : candidate.state = .target
      · rw [List.filter_cons_of_pos (by simpa [CatalogEntry.isTarget] using hstate), if_pos hstate]
        exact htarget ht
      · rw [List.filter_cons_of_neg (by simpa [CatalogEntry.isTarget] using hstate), if_neg hstate]
        exact htarget ht

/-- The walk looks at the segments and the states, which nothing changes. -/
theorem locate_map {f : CatalogEntry ρ → CatalogEntry ρ} (hsegment : ∀ c, (f c).segment = c.segment)
    (hstate : ∀ c, (f c).state = c.state) (segment : SegmentContext) : ∀ l : List (CatalogEntry ρ),
    locate segment (l.map f) = locate segment l
  | [] => rfl
  | candidate :: rest => by
    rw [List.map_cons]
    unfold locate
    rw [hsegment, hstate, locate_map hsegment hstate segment rest]

namespace Inventory

variable {inv : Inventory ρ τ} {c c' : CatalogEntry ρ} {t t' : Target τ}

theorem entry_unique (inv : Inventory ρ τ) (hc : c ∈ inv.entries) (hc' : c' ∈ inv.entries)
    (hsegment : c.segment = c'.segment) : c = c' :=
  List.inj_on_of_nodup_map inv.distinct hc hc' hsegment

theorem targets_nodup (inv : Inventory ρ τ) : (inv.targets.map Target.segment).Nodup := by
  rw [inv.listed]
  exact inv.distinct.sublist (List.filter_sublist.map _)

theorem target_unique (inv : Inventory ρ τ) (ht : t ∈ inv.targets) (ht' : t' ∈ inv.targets)
    (hsegment : t.segment = t'.segment) : t = t' :=
  List.inj_on_of_nodup_map inv.targets_nodup ht ht' hsegment

/-- The target counted for a segment is its own. -/
theorem target_at {place : Place} (h : (inv.entries.filter CatalogEntry.isTarget)[place.target]? = some c) :
    ∃ t, inv.targets[place.target]? = some t ∧ t.segment = c.segment := by
  have hmap : (inv.targets.map Target.segment)[place.target]? = some c.segment := by
    rw [inv.listed, List.getElem?_map, h]
    rfl
  rw [List.getElem?_map] at hmap
  exact Option.map_eq_some_iff.mp hmap

end Inventory

/-! ## One entry -/

/-- Of a table whose keys differ, one change in its place is a change by key. -/
theorem modify_map {α κ : Type} {key : α → κ} {f f' g : α → α} {a : α} : ∀ {l : List α} {i : Nat},
    (l.map key).Nodup → l[i]? = some a → (∀ b ∈ l, key b ≠ key a → f' b = f b) → f' a = g (f a) →
      (l.map f).modify i g = l.map f'
  | x :: rest, 0, hnodup, hat, hothers, hself => by
    cases hat
    have hrest : rest.map f = rest.map f' := List.map_congr_left fun b hb =>
      (hothers b (List.mem_cons_of_mem _ hb) fun hkey =>
        (List.nodup_cons.mp hnodup).1 (hkey ▸ List.mem_map_of_mem hb)).symm
    rw [List.map_cons, List.modify_zero_cons, List.map_cons, hself, hrest]
  | x :: rest, i + 1, hnodup, hat, hothers, hself => by
    have hmem : a ∈ rest := List.mem_of_getElem? hat
    have hx : f' x = f x := hothers x (List.mem_cons_self ..) fun hkey =>
      (List.nodup_cons.mp hnodup).1 (hkey ▸ List.mem_map_of_mem hmem)
    rw [List.map_cons, List.modify_succ_cons, List.map_cons, hx,
      modify_map (List.nodup_cons.mp hnodup).2 hat
        (fun b hb => hothers b (List.mem_cons_of_mem _ hb)) hself]

namespace Inventory

variable {inv : Inventory ρ τ} {taken : List Entry} {c : CatalogEntry ρ} {t : Target τ} {e : Entry}

@[simp] theorem marked_segment : (marked taken c).segment = c.segment := by
  unfold marked
  split <;> rfl

@[simp] theorem marked_state : (marked taken c).state = c.state := by
  unfold marked
  split <;> rfl

@[simp] theorem marked_live : (marked taken c).live = c.live := by
  unfold marked
  split <;> rfl

@[simp] theorem marked_history : (marked taken c).history = c.history := by
  unfold marked
  split <;> rfl

@[simp] theorem marked_device : (marked taken c).device = c.device := by
  unfold marked
  split <;> rfl

theorem marked_other (hne : c.segment ≠ e.segment ∨ c.state ≠ .prepared) :
    marked (taken ++ [e]) c = marked taken c := by
  have hiff : (c.state = .prepared ∧ ∃ a ∈ taken ++ [e], a.segment = c.segment) ↔
      (c.state = .prepared ∧ ∃ a ∈ taken, a.segment = c.segment) := by
    constructor
    · rintro ⟨hstate, a, ha, hsegment⟩
      rcases List.mem_append.mp ha with hold | hnew
      · exact ⟨hstate, a, hold, hsegment⟩
      · rw [List.mem_singleton.mp hnew] at hsegment
        rcases hne with hne | hne
        · exact absurd hsegment.symm hne
        · exact absurd hstate hne
    · rintro ⟨hstate, a, ha, hsegment⟩
      exact ⟨hstate, a, List.mem_append_left _ ha, hsegment⟩
  unfold marked
  simp only [hiff]

/-- An entry of a segment that was written marks nothing. -/
theorem entries_written (hc : c ∈ inv.entries) (hsegment : c.segment = e.segment)
    (hwritten : c.state ≠ .prepared) :
    inv.entries.map (marked (taken ++ [e])) = inv.entries.map (marked taken) := by
  refine List.map_congr_left fun c' hc' => marked_other ?_
  by_cases heq : c'.segment = e.segment
  · rw [inv.entry_unique hc' hc (heq.trans hsegment.symm)]
    exact .inr hwritten
  · exact .inl heq

/-- An entry of a prepared segment marks that segment. -/
theorem entries_prepared {i : Nat} (hat : inv.entries[i]? = some c) (hsegment : c.segment = e.segment)
    (hprepared : c.state = .prepared) :
    (inv.entries.map (marked taken)).modify i (fun c => { c with conflict := true }) =
      inv.entries.map (marked (taken ++ [e])) := by
  refine modify_map inv.distinct hat (fun b _ hne => marked_other (.inl (hsegment ▸ hne))) ?_
  have hnamed : c.state = .prepared ∧ ∃ a ∈ taken ++ [e], a.segment = c.segment :=
    ⟨hprepared, e, List.mem_append_right _ (List.mem_singleton.mpr rfl), hsegment.symm⟩
  unfold marked
  rw [if_pos hnamed]
  split <;> rfl

theorem boundaryOf_append (segment : SegmentContext) :
    boundaryOf (taken ++ [e]) segment =
      (boundaryOf taken segment).or (if e.isBoundary ∧ e.segment = segment then some e else none) := by
  unfold boundaryOf
  rw [List.find?_append, List.find?_singleton]
  simp

theorem raised_other (hne : e.isBoundary = false ∨ t.segment ≠ e.segment ∨ inv.live t.segment = false) :
    inv.raised (taken ++ [e]) t = inv.raised taken t := by
  unfold raised
  by_cases hlive : inv.live t.segment = true
  · have hnot : ¬ (e.isBoundary = true ∧ e.segment = t.segment) := by
      rintro ⟨hboundary, hsegment⟩
      rcases hne with hne | hne | hne
      · exact Bool.false_ne_true (hne.symm.trans hboundary)
      · exact hne hsegment.symm
      · exact Bool.false_ne_true (hne.symm.trans hlive)
    rw [boundaryOf_append, if_neg hnot, Option.or_none]
  · simp only [if_neg hlive]
    split <;> split <;> rfl

/-- An entry that is no boundary of an open segment raises nothing. -/
theorem targets_unraised (hne : e.isBoundary = false ∨ inv.live e.segment = false) :
    inv.targets.map (inv.raised (taken ++ [e])) = inv.targets.map (inv.raised taken) := by
  refine List.map_congr_left fun t _ => raised_other ?_
  rcases hne with hne | hne
  · exact .inl hne
  · by_cases heq : t.segment = e.segment
    · exact .inr (.inr (heq ▸ hne))
    · exact .inr (.inl heq)

theorem raised_fresh (hfresh : boundaryOf taken t.segment = none) : inv.raised taken t = t := by
  unfold raised
  rw [hfresh]

theorem raised_first (hfresh : boundaryOf taken t.segment = none) (hboundary : e.isBoundary = true)
    (hsegment : t.segment = e.segment) (hlive : inv.live e.segment = true) :
    inv.raised (taken ++ [e]) t = { t with pin := some (higher t.pin (footerOf e)) } := by
  have hfound : boundaryOf (taken ++ [e]) t.segment = some e := by
    rw [boundaryOf_append, hfresh, if_pos ⟨hboundary, hsegment.symm⟩]
    rfl
  unfold raised
  rw [hfound, hsegment]
  exact if_pos hlive

/-- A boundary above its target's pin raises that pin. -/
theorem targets_raised {i : Nat} (hat : inv.targets[i]? = some t)
    (hfresh : boundaryOf taken t.segment = none) (hboundary : e.isBoundary = true)
    (hsegment : t.segment = e.segment) (hlive : inv.live e.segment = true)
    (habove : ∀ pin, t.pin = some pin → pin.position < e.locator) :
    (inv.targets.map (inv.raised taken)).modify i (fun t => { t with pin := some (footerOf e) }) =
      inv.targets.map (inv.raised (taken ++ [e])) := by
  refine modify_map inv.targets_nodup hat (fun b _ hne => raised_other (.inr (.inl (hsegment ▸ hne)))) ?_
  have hhigher : higher t.pin (footerOf e) = footerOf e := by
    cases hpin : t.pin with
    | none => rfl
    | some pin => exact if_pos (habove pin hpin)
  rw [raised_first hfresh hboundary hsegment hlive, raised_fresh hfresh, hhigher]

/-- One at its pin or below changes nothing. -/
theorem targets_kept (ht : t ∈ inv.targets) (hfresh : boundaryOf taken t.segment = none)
    (hboundary : e.isBoundary = true) (hsegment : t.segment = e.segment)
    (hlive : inv.live e.segment = true) {pin : FooterReference} (hpin : t.pin = some pin)
    (hbelow : e.locator ≤ pin.position) :
    inv.targets.map (inv.raised taken) = inv.targets.map (inv.raised (taken ++ [e])) := by
  refine List.map_congr_left fun t' ht' => ?_
  by_cases heq : t'.segment = e.segment
  · obtain rfl := inv.target_unique ht ht' (hsegment.trans heq.symm)
    have hhigher : some (higher t.pin (footerOf e)) = t.pin := by
      rw [hpin]
      exact congrArg some (if_neg (Nat.not_lt.mpr hbelow))
    rw [raised_first hfresh hboundary hsegment hlive, raised_fresh hfresh, hhigher]
  · exact (raised_other (.inr (.inl heq))).symm

theorem live_eq (hc : c ∈ inv.entries) (hsegment : c.segment = e.segment) : inv.live e.segment = c.live := by
  unfold live
  rw [Bool.eq_iff_iff, List.any_eq_true]
  constructor
  · rintro ⟨c', hc', h⟩
    rw [Bool.and_eq_true, decide_eq_true_eq] at h
    rw [inv.entry_unique hc hc' (hsegment.trans h.2.symm)]
    exact h.1
  · intro hlive
    exact ⟨c, hc, by rw [hlive, hsegment]; simp⟩

end Inventory

/-- **What holds once a part of the table has been gone through**: the tables are the inventory after that
    part, the place that is kept is a segment's, and each entry was counted once. -/
structure Holds (inv : Inventory ρ τ) (decisions : List Decision) (taken : List Entry) (s : Resuming ρ τ) :
    Prop where
  tables : s.tables = inv.after taken
  found : ∀ place, s.found = some place → ∃ segment, locate segment inv.entries = some place
  counted : ∃ counted, List.Forall₂ (Counts inv decisions) taken counted
    ∧ s.output = counted.foldl CheckpointResume.count {}

namespace Holds

variable {inv : Inventory ρ τ} {decisions : List Decision} {taken : List Entry} {s s' : Resuming ρ τ}
  {e : Entry} {c : CatalogEntry ρ} {place : Place}

theorem start (inv : Inventory ρ τ) (decisions : List Decision) :
    Holds inv decisions [] { tables := inv.toTables } where
  tables := by
    have hentries : inv.entries.map (Inventory.marked []) = inv.entries := by
      conv_rhs => rw [← List.map_id inv.entries]
      refine List.map_congr_left fun c _ => if_neg ?_
      rintro ⟨_, a, ha, _⟩
      cases ha
    have htargets : inv.targets.map (inv.raised []) = inv.targets := by
      conv_rhs => rw [← List.map_id inv.targets]
      exact List.map_congr_left fun t _ => Inventory.raised_fresh rfl
    unfold Inventory.after
    rw [hentries, htargets]
  found := fun _ h => nomatch h
  counted := ⟨[], .nil, rfl⟩

theorem entry_at (h : Holds inv decisions taken s) (i : Nat) :
    s.tables.entries[i]? = (inv.entries[i]?).map (Inventory.marked taken) := by
  rw [h.tables]
  exact List.getElem?_map

theorem locate_entries (h : Holds inv decisions taken s) (segment : SegmentContext) :
    locate segment s.tables.entries = locate segment inv.entries := by
  rw [h.tables]
  exact locate_map (fun _ => Inventory.marked_segment) (fun _ => Inventory.marked_state) segment _

variable {segment : SegmentContext}

/-- The place kept is the one the walk would find. -/
theorem held_eq (h : Holds inv decisions taken s) (hheld : s.held segment = some place)
    : locate segment inv.entries = some place := by
  obtain ⟨hfound, hany⟩ := Option.filter_eq_some_iff.mp hheld
  obtain ⟨segment', hlocate⟩ := h.found place hfound
  obtain ⟨c, hc, hsegment, _⟩ := locate_spec hlocate
  rw [h.entry_at, hc, Option.map_some, Option.any_some, decide_eq_true_eq, Inventory.marked_segment,
    hsegment] at hany
  rw [← hany]
  exact hlocate

theorem found_at (h : Holds inv decisions taken s) :
    (s.held segment).or (locate segment s.tables.entries) = locate segment inv.entries := by
  rw [h.locate_entries]
  cases hheld : s.held segment with
  | none => rfl
  | some place => exact (h.held_eq hheld).symm

/-- A segment of the catalog is found, with the place of its own target. -/
theorem find_of_mem (h : Holds inv decisions taken s) (hc : c ∈ inv.entries) (hsegment : c.segment = segment) :
    ∃ place, s.find segment = some (place, Inventory.marked taken c) ∧
      locate segment inv.entries = some place ∧ inv.entries[place.index]? = some c ∧
      (c.isTarget = true → ∃ t, inv.targets[place.target]? = some t ∧ t.segment = segment) := by
  cases hlocate : locate segment inv.entries with
  | none => exact absurd hsegment (locate_none hlocate c hc)
  | some place =>
    obtain ⟨c', hc', hsegment', htarget⟩ := locate_spec hlocate
    obtain rfl := inv.entry_unique hc (List.mem_of_getElem? hc') (hsegment.trans hsegment'.symm)
    refine ⟨place, ?_, rfl, hc', fun ht => ?_⟩
    · unfold Resuming.find
      rw [h.found_at, hlocate, Option.bind_some, h.entry_at, hc']
      rfl
    · rw [← hsegment]
      exact Inventory.target_at (htarget ht)

theorem find_none (h : Holds inv decisions taken s) (hmissing : ∀ c ∈ inv.entries, c.segment ≠ segment)
    : s.find segment = none := by
  unfold Resuming.find
  rw [h.found_at]
  cases hlocate : locate segment inv.entries with
  | none => rfl
  | some place =>
    obtain ⟨c, hc, hsegment, _⟩ := locate_spec hlocate
    exact absurd hsegment (hmissing c (List.mem_of_getElem? hc))

/-- One entry more, which the counters show as what it counts as. -/
theorem next (h : Holds inv decisions taken s) {k : Counted} (hcounts : Counts inv decisions e k)
    (htables : s'.tables = inv.after (taken ++ [e]))
    (hfound : s'.found = some place) (hplace : locate e.segment inv.entries = some place)
    (houtput : s'.output = s.output.count k) : Holds inv decisions (taken ++ [e]) s' where
  tables := htables
  found := by
    intro place' hplace'
    rw [hfound] at hplace'
    cases hplace'
    exact ⟨e.segment, hplace⟩
  counted := by
    obtain ⟨counted, hforall, hout⟩ := h.counted
    refine ⟨counted ++ [k], List.rel_append hforall (.cons hcounts .nil), ?_⟩
    rw [houtput, hout, List.foldl_append]
    rfl

end Holds

theorem makeReference_eq {position bytes family digest : Nat} {reference : FooterReference}
    (h : makeReference position bytes family digest = .ok reference) :
    reference = ⟨position, bytes, family, digest⟩ := by
  unfold makeReference at h
  split at h
  · cases h
  · split at h
    · cases h
    · split at h
      · cases h
      · split at h
        · cases h
        · cases h
          rfl

namespace Resuming

variable {s s' : Resuming ρ τ} {e : Entry} {c : CatalogEntry ρ} {t : Target τ} {place : Place}
  {decisions : List Decision}

/-- A boundary is taken when it fits its segment's entry, and then raises the pin or keeps it. -/
theorem takeBoundary_iff (ht : s.tables.targets[place.target]? = some t) (hsegment : t.segment = e.segment) :
    s.takeBoundary place c e = .ok s' ↔ Fits c e ∧
      ((∀ pin, t.pin = some pin → pin.position < e.locator) ∧ s' = s.raise place.target (footerOf e) ∨
        (∃ pin, t.pin = some pin ∧ e.locator ≤ pin.position ∧ (pin.position = e.locator → pin = footerOf e))
          ∧ s' = s) := by
  have htarget : (s.tables.targets[place.target]?).filter (fun t => t.segment = e.segment) = some t := by
    rw [ht]
    exact Option.filter_eq_some_iff.mpr ⟨rfl, decide_eq_true hsegment⟩
  constructor
  · intro h
    obtain ⟨reference, hreference, h⟩ := bind_eq_ok.mp h
    have hmade := toOption_eq_some.mp (expect_eq_ok.mp hreference)
    obtain rfl := makeReference_eq hmade
    obtain ⟨_, haligned, h⟩ := bind_eq_ok.mp h
    obtain ⟨_, hdevice, h⟩ := bind_eq_ok.mp h
    obtain ⟨target, hexpect, h⟩ := bind_eq_ok.mp h
    rw [htarget] at hexpect
    cases hexpect
    refine ⟨⟨hmade, require_eq_ok.mp haligned, require_eq_ok.mp hdevice⟩, ?_⟩
    split at h
    · next hall =>
      cases h
      refine .inl ⟨fun pin hpin => ?_, rfl⟩
      rw [hpin] at hall
      simpa using hall
    · next hall =>
      obtain ⟨_, hsame, h⟩ := bind_eq_ok.mp h
      cases h
      have hsame := require_eq_ok.mp hsame
      cases hpin : t.pin with
      | none =>
        rw [hpin] at hall
        exact absurd rfl hall
      | some pin =>
        rw [hpin] at hall hsame
        refine .inr ⟨⟨pin, rfl, ?_, ?_⟩, rfl⟩
        · exact Nat.not_lt.mp fun hlt => hall (decide_eq_true hlt)
        · exact of_decide_eq_true hsame
  · rintro ⟨hfits, houtcome⟩
    refine bind_eq_ok.mpr ⟨footerOf e, expect_eq_ok.mpr (toOption_eq_some.mpr hfits.made), ?_⟩
    refine bind_eq_ok.mpr ⟨(), require_eq_ok.mpr hfits.aligned, ?_⟩
    refine bind_eq_ok.mpr ⟨(), require_eq_ok.mpr hfits.device, ?_⟩
    refine bind_eq_ok.mpr ⟨t, expect_eq_ok.mpr htarget, ?_⟩
    rcases houtcome with ⟨habove, rfl⟩ | ⟨⟨pin, hpin, hbelow, hsame⟩, rfl⟩
    · refine if_pos ?_
      cases hpin : t.pin with
      | none => rfl
      | some pin => exact decide_eq_true (habove pin hpin)
    · rw [hpin]
      refine (if_neg fun hlt => Nat.not_lt.mpr hbelow (of_decide_eq_true hlt)).trans ?_
      exact bind_eq_ok.mpr ⟨(), require_eq_ok.mpr (decide_eq_true hsame), rfl⟩

theorem takeDiscard_iff :
    s.takeDiscard decisions e = .ok s' ↔
      Matches decisions e ∧ s' = { s with output := s.output.count .discard } := by
  constructor
  · intro h
    obtain ⟨decided, hdecided, h⟩ := bind_eq_ok.mp h
    obtain ⟨_, hsame, h⟩ := bind_eq_ok.mp h
    cases h
    exact ⟨⟨decided, expect_eq_ok.mp hdecided, require_eq_ok.mp hsame⟩, rfl⟩
  · rintro ⟨⟨decided, hdecided, hsame⟩, rfl⟩
    refine bind_eq_ok.mpr ⟨decided, expect_eq_ok.mpr hdecided, ?_⟩
    exact bind_eq_ok.mpr ⟨(), require_eq_ok.mpr hsame, rfl⟩

end Resuming

namespace Holds

variable {inv : Inventory ρ τ} {decisions : List Decision} {taken : List Entry} {s s' : Resuming ρ τ}
  {e : Entry} {c : CatalogEntry ρ} {t : Target τ} {place : Place}

/-- The target a boundary finds, still as it was opened: its segment has no boundary before this one. -/
theorem target_at (h : Holds inv decisions taken s) (ht : inv.targets[place.target]? = some t)
    (hfresh : boundaryOf taken t.segment = none) : s.tables.targets[place.target]? = some t := by
  have hraised : inv.raised taken t = t := Inventory.raised_fresh hfresh
  rw [h.tables]
  show (inv.targets.map (inv.raised taken))[place.target]? = some t
  rw [List.getElem?_map, ht, Option.map_some, hraised]

theorem written (hlive : c.live = true) : c.state ≠ .prepared := by
  have htarget : c.state = .target := (of_decide_eq_true hlive).1
  rw [htarget]
  exact nofun

/-- An entry of a segment that its publication leaves open changes the targets' pins at most. -/
theorem tables_live (h : Holds inv decisions taken s) (hc : c ∈ inv.entries) (hsegment : c.segment = e.segment)
    (hlive : c.live = true) {targets : List (Target τ)}
    (htargets : targets = inv.targets.map (inv.raised (taken ++ [e]))) :
    { s.tables with targets } = inv.after (taken ++ [e]) := by
  rw [h.tables, htargets]
  unfold Inventory.after
  rw [Inventory.entries_written hc hsegment (written hlive)]

theorem takeBoundary_marked : s.takeBoundary place (Inventory.marked taken c) e = s.takeBoundary place c e := by
  unfold Resuming.takeBoundary
  rw [Inventory.marked_history, Inventory.marked_device]

/-- What is done with an entry of a segment in the catalog. -/
theorem take_found (h : Holds inv decisions taken s) (hc : c ∈ inv.entries) (hsegment : c.segment = e.segment)
    (hkind : e.disposition ≠ .preservedCandidate) :
    ∃ place, locate e.segment inv.entries = some place ∧ inv.entries[place.index]? = some c ∧
      (c.isTarget = true → ∃ t, inv.targets[place.target]? = some t ∧ t.segment = e.segment) ∧
      s.take decisions e =
        if c.state = .prepared then .ok (Resuming.mark { s with found := some place } place.index)
        else if ¬ c.live then
          .ok { s with found := some place, output := s.output.count .superseded }
        else if e.disposition = .segmentBoundary then
          Resuming.takeBoundary { s with found := some place } place c e
        else Resuming.takeDiscard decisions { s with found := some place } e := by
  obtain ⟨place, hfind, hlocate, hat, htarget⟩ := h.find_of_mem hc hsegment
  refine ⟨place, hlocate, hat, htarget, ?_⟩
  unfold Resuming.take
  rw [if_neg hkind, hfind]
  dsimp only
  rw [Inventory.marked_state, Inventory.marked_live, takeBoundary_marked]
  rfl

theorem conflict_holds (h : Holds inv decisions taken s) (hlocate : locate e.segment inv.entries = some place)
    (hat : inv.entries[place.index]? = some c) (hsegment : c.segment = e.segment)
    (hprepared : c.state = .prepared) (hkind : e.disposition ≠ .preservedCandidate) :
    Holds inv decisions (taken ++ [e]) (Resuming.mark { s with found := some place } place.index) := by
  have hc := List.mem_of_getElem? hat
  have hdead : inv.live e.segment = false := by
    rw [Inventory.live_eq hc hsegment]
    unfold CatalogEntry.live
    simp [hprepared]
  refine h.next (.conflict hc hsegment hprepared hkind) ?_ rfl hlocate rfl
  unfold Resuming.mark
  dsimp only
  rw [h.tables]
  unfold Inventory.after
  rw [Inventory.targets_unraised (.inr hdead), ← Inventory.entries_prepared hat hsegment hprepared]

theorem superseded_holds (h : Holds inv decisions taken s) (hlocate : locate e.segment inv.entries = some place)
    (hc : c ∈ inv.entries) (hsegment : c.segment = e.segment) (hwritten : c.state ≠ .prepared)
    (hdecided : c.live = false) (hkind : e.disposition ≠ .preservedCandidate) :
    Holds inv decisions (taken ++ [e]) { s with found := some place, output := s.output.count .superseded } := by
  refine h.next (.superseded hc hsegment hwritten hdecided hkind) ?_ rfl hlocate rfl
  dsimp only
  rw [h.tables]
  unfold Inventory.after
  rw [Inventory.entries_written hc hsegment hwritten,
    Inventory.targets_unraised (.inr ((Inventory.live_eq hc hsegment).trans hdecided))]

theorem boundary_holds (h : Holds inv decisions taken s) (hlocate : locate e.segment inv.entries = some place)
    (hc : c ∈ inv.entries) (hsegment : c.segment = e.segment) (hlive : c.live = true)
    (ht : inv.targets[place.target]? = some t) (htsegment : t.segment = e.segment)
    (hkind : e.disposition = .segmentBoundary) (hfresh : boundaryOf taken e.segment = none)
    (hok : Resuming.takeBoundary { s with found := some place } place c e = .ok s') :
    ∃ k, Counts inv decisions e k ∧ Holds inv decisions (taken ++ [e]) s' := by
  have hboundary : e.isBoundary = true := decide_eq_true hkind
  have hopen : inv.live e.segment = true := (Inventory.live_eq hc hsegment).trans hlive
  have htmem : t ∈ inv.targets := List.mem_of_getElem? ht
  rw [← htsegment] at hfresh
  have hnow : (Resuming.mk s.tables (some place) s.output).tables.targets[place.target]? = some t :=
    h.target_at ht hfresh
  obtain ⟨hfits, ⟨habove, rfl⟩ | ⟨⟨pin, hpin, hbelow, hsame⟩, rfl⟩⟩ :=
    (Resuming.takeBoundary_iff hnow htsegment).mp hok
  · have hcounts : Counts inv decisions e .raised :=
      .raised hc hsegment hlive hkind hfits htmem htsegment habove
    refine ⟨_, hcounts, h.next hcounts (h.tables_live hc hsegment hlive ?_) rfl hlocate rfl⟩
    dsimp only
    rw [h.tables, ← Inventory.targets_raised ht hfresh hboundary htsegment hopen habove]
    rfl
  · have hcounts : Counts inv decisions e .kept :=
      .kept hc hsegment hlive hkind hfits htmem htsegment hpin hbelow hsame
    refine ⟨_, hcounts, h.next hcounts (h.tables_live hc hsegment hlive ?_) rfl hlocate rfl⟩
    rw [← Inventory.targets_kept htmem hfresh hboundary htsegment hopen hpin hbelow]
    exact congrArg Tables.targets h.tables

theorem discard_holds (h : Holds inv decisions taken s) (hlocate : locate e.segment inv.entries = some place)
    (hc : c ∈ inv.entries) (hsegment : c.segment = e.segment) (hlive : c.live = true)
    (hkind : e.disposition = .authorizedDiscard)
    (hok : Resuming.takeDiscard decisions { s with found := some place } e = .ok s') :
    ∃ k, Counts inv decisions e k ∧ Holds inv decisions (taken ++ [e]) s' := by
  obtain ⟨hmatches, rfl⟩ := Resuming.takeDiscard_iff.mp hok
  have hcounts : Counts inv decisions e .discard := .discard hc hsegment hlive hkind hmatches
  have hboundary : e.isBoundary = false := by
    unfold Entry.isBoundary
    rw [hkind]
    rfl
  refine ⟨_, hcounts, h.next hcounts (h.tables_live hc hsegment hlive ?_) rfl hlocate rfl⟩
  rw [Inventory.targets_unraised (.inl hboundary)]
  exact congrArg Tables.targets h.tables

/-- **One entry.** If it was taken it counts as something, and what held of the part before it holds with it. -/
theorem take_holds (h : Holds inv decisions taken s)
    (hfresh : e.isBoundary = true → boundaryOf taken e.segment = none)
    (hok : s.take decisions e = .ok s') :
    ∃ k, Counts inv decisions e k ∧ Holds inv decisions (taken ++ [e]) s' := by
  have hkind : e.disposition ≠ .preservedCandidate := by
    intro hkind
    unfold Resuming.take at hok
    rw [if_pos hkind] at hok
    cases hok
  by_cases hexists : ∃ c ∈ inv.entries, c.segment = e.segment
  · obtain ⟨c, hc, hsegment⟩ := hexists
    obtain ⟨place, hlocate, hat, htarget, htake⟩ := h.take_found hc hsegment hkind
    rw [htake] at hok
    split at hok
    · next hprepared =>
      cases hok
      exact ⟨_, .conflict hc hsegment hprepared hkind, h.conflict_holds hlocate hat hsegment hprepared hkind⟩
    · next hwritten =>
      split at hok
      · next hdecided =>
        cases hok
        have hdead : c.live = false := Bool.eq_false_iff.mpr hdecided
        exact ⟨_, .superseded hc hsegment hwritten hdead hkind,
          h.superseded_holds hlocate hc hsegment hwritten hdead hkind⟩
      · next hlive =>
        have hlive : c.live = true := Decidable.not_not.mp hlive
        split at hok
        · next hboundary =>
          obtain ⟨t, ht, htsegment⟩ := htarget (decide_eq_true (of_decide_eq_true hlive).1)
          exact h.boundary_holds hlocate hc hsegment hlive ht htsegment hboundary
            (hfresh (decide_eq_true hboundary)) hok
        · next hboundary =>
          refine h.discard_holds hlocate hc hsegment hlive ?_ hok
          cases hd : e.disposition with
          | segmentBoundary => exact absurd hd hboundary
          | preservedCandidate => exact absurd hd hkind
          | authorizedDiscard => rfl
  · unfold Resuming.take at hok
    rw [if_neg hkind, h.find_none fun c hc hsegment => hexists ⟨c, hc, hsegment⟩] at hok
    cases hok

theorem boundary_of_fits (h : Holds inv decisions taken s) (hc : c ∈ inv.entries)
    (hsegment : c.segment = e.segment) (hlive : c.live = true) (hkind : e.disposition = .segmentBoundary)
    (hfits : Fits c e) (htmem : t ∈ inv.targets) (htsegment : t.segment = e.segment)
    (hfresh : boundaryOf taken e.segment = none)
    (hpin : (∀ pin, t.pin = some pin → pin.position < e.locator) ∨
      ∃ pin, t.pin = some pin ∧ e.locator ≤ pin.position ∧ (pin.position = e.locator → pin = footerOf e)) :
    ∃ s', s.take decisions e = .ok s' := by
  have hkind' : e.disposition ≠ .preservedCandidate := hkind ▸ nofun
  obtain ⟨place, _, _, htarget, htake⟩ := h.take_found hc hsegment hkind'
  obtain ⟨t', ht', htsegment'⟩ := htarget (decide_eq_true (of_decide_eq_true hlive).1)
  obtain rfl := inv.target_unique htmem (List.mem_of_getElem? ht') (htsegment.trans htsegment'.symm)
  rw [← htsegment] at hfresh
  have hnow : (Resuming.mk s.tables (some place) s.output).tables.targets[place.target]? = some t :=
    h.target_at ht' hfresh
  rw [htake, if_neg (written hlive), if_neg (fun hn => hn hlive), if_pos hkind]
  rcases hpin with habove | hkept
  · exact ⟨_, (Resuming.takeBoundary_iff hnow htsegment).mpr ⟨hfits, .inl ⟨habove, rfl⟩⟩⟩
  · exact ⟨_, (Resuming.takeBoundary_iff hnow htsegment).mpr ⟨hfits, .inr ⟨hkept, rfl⟩⟩⟩

/-- An entry that counts as something is taken. -/
theorem take_of_counts (h : Holds inv decisions taken s)
    (hfresh : e.isBoundary = true → boundaryOf taken e.segment = none) {k : Counted}
    (hcounts : Counts inv decisions e k) : ∃ s', s.take decisions e = .ok s' := by
  cases hcounts with
  | superseded hc hsegment hwritten hdecided hkind =>
    obtain ⟨place, _, _, _, htake⟩ := h.take_found hc hsegment hkind
    rw [htake, if_neg hwritten, if_pos (Bool.eq_false_iff.mp hdecided)]
    exact ⟨_, rfl⟩
  | conflict hc hsegment hprepared hkind =>
    obtain ⟨place, _, _, _, htake⟩ := h.take_found hc hsegment hkind
    rw [htake, if_pos hprepared]
    exact ⟨_, rfl⟩
  | @raised c t hc hsegment hlive hkind hfits ht htsegment habove =>
    obtain ⟨s', hs'⟩ := h.boundary_of_fits hc hsegment hlive hkind hfits ht htsegment (hfresh (decide_eq_true hkind))
      (.inl habove)
    exact ⟨s', hs'⟩
  | @kept c t pin hc hsegment hlive hkind hfits ht htsegment hpin hbelow hsame =>
    obtain ⟨s', hs'⟩ := h.boundary_of_fits hc hsegment hlive hkind hfits ht htsegment (hfresh (decide_eq_true hkind))
      (.inr ⟨pin, hpin, hbelow, hsame⟩)
    exact ⟨s', hs'⟩
  | discard hc hsegment hlive hkind hmatches =>
    have hkind' : e.disposition ≠ .preservedCandidate := hkind ▸ nofun
    obtain ⟨place, _, _, _, htake⟩ := h.take_found hc hsegment hkind'
    rw [htake, if_neg (written hlive), if_neg (fun hn => hn hlive), if_neg (hkind ▸ nofun)]
    exact ⟨_, Resuming.takeDiscard_iff.mpr ⟨hmatches, rfl⟩⟩

end Holds

/-! ## The table -/

/-- No two entries of a table are boundaries of one segment. -/
theorem CheckpointTable.apart (table : CheckpointTable) :
    table.entries.Pairwise fun a b => a.isBoundary = true → b.isBoundary = true → a.segment ≠ b.segment := by
  refine table.ordered.imp_of_mem fun {a b} ha hb hlt haBoundary hbBoundary hsegment => ?_
  rw [table.single a ha b hb haBoundary hbBoundary hsegment] at hlt
  exact lt_irrefl _ hlt

theorem boundaryOf_fresh {taken rest : List Entry} {e : Entry}
    (hapart : (taken ++ e :: rest).Pairwise fun a b =>
      a.isBoundary = true → b.isBoundary = true → a.segment ≠ b.segment)
    (hboundary : e.isBoundary = true) : boundaryOf taken e.segment = none := by
  refine List.find?_eq_none.mpr fun a ha hfound => ?_
  rw [Bool.and_eq_true, decide_eq_true_eq] at hfound
  exact (List.pairwise_append.mp hapart).2.2 a ha e (List.mem_cons_self ..) hfound.1 hboundary hfound.2

/-- **The whole table**, from any part of it on. -/
theorem Holds.run {inv : Inventory ρ τ} {decisions : List Decision} : ∀ {rest taken : List Entry}
    {s : Resuming ρ τ}, Holds inv decisions taken s →
    ((taken ++ rest).Pairwise fun a b =>
      a.isBoundary = true → b.isBoundary = true → a.segment ≠ b.segment) →
    ((∃ out, (s.run decisions rest).2 = .ok out) ↔ ∀ e ∈ rest, ∃ k, Counts inv decisions e k) ∧
    ∀ out, (s.run decisions rest).2 = .ok out →
      (s.run decisions rest).1 = inv.after (taken ++ rest) ∧
      ∃ counted, List.Forall₂ (Counts inv decisions) (taken ++ rest) counted
        ∧ out = counted.foldl CheckpointResume.count {}
  | [], taken, s, h, _ => by
    refine ⟨iff_of_true ⟨_, rfl⟩ (fun _ hmem => nomatch hmem), fun out hout => ?_⟩
    cases hout
    rw [List.append_nil]
    exact ⟨h.tables, h.counted⟩
  | e :: rest, taken, s, h, hapart => by
    have hfresh := boundaryOf_fresh hapart
    unfold Resuming.run
    cases htake : s.take decisions e with
    | error code =>
      refine ⟨iff_of_false (fun ⟨_, hout⟩ => nomatch hout) fun hall => ?_, fun _ hout => nomatch hout⟩
      obtain ⟨k, hk⟩ := hall e (List.mem_cons_self ..)
      obtain ⟨s', hs'⟩ := h.take_of_counts hfresh hk
      rw [htake] at hs'
      cases hs'
    | ok s' =>
      obtain ⟨k, hk, h'⟩ := h.take_holds hfresh htake
      have hsplit : taken ++ e :: rest = taken ++ [e] ++ rest := by
        rw [List.append_assoc, List.singleton_append]
      rw [hsplit] at hapart ⊢
      obtain ⟨hiff, hdone⟩ := Holds.run h' hapart
      refine ⟨hiff.trans ?_, hdone⟩
      rw [List.forall_mem_cons]
      exact (and_iff_right ⟨k, hk⟩).symm

/-- A raised pin is never lower than it was. -/
theorem le_higher (old reference : FooterReference) : old.position ≤ (higher (some old) reference).position := by
  unfold higher
  dsimp only
  split
  · next hlt => exact Nat.le_of_lt hlt
  · exact Nat.le_refl _

theorem Inventory.raised_pin_le {inv : Inventory ρ τ} {taken : List Entry} {t : Target τ}
    {old : FooterReference} (hold : t.pin = some old) :
    ∃ new, (inv.raised taken t).pin = some new ∧ old.position ≤ new.position := by
  unfold raised
  split
  · exact ⟨old, hold, Nat.le_refl _⟩
  · split
    · rw [hold]
      exact ⟨_, rfl, le_higher old _⟩
    · exact ⟨old, hold, Nat.le_refl _⟩

/-- The counters are the counts of what the entries came to. -/
theorem tally_counts (counted : List Counted) :
    let out := counted.foldl CheckpointResume.count {}
    out.superseded = counted.count .superseded ∧ out.conflicts = counted.count .conflict ∧
      out.raised = counted.count .raised ∧ out.discards = counted.count .discard := by
  have hfold : ∀ (counted : List Counted) (out : CheckpointResume),
      counted.foldl CheckpointResume.count out =
        ⟨out.raised + counted.count .raised, out.superseded + counted.count .superseded,
          out.discards + counted.count .discard, out.conflicts + counted.count .conflict⟩ := by
    intro counted
    induction counted with
    | nil => exact fun _ => rfl
    | cons k rest ih =>
      intro out
      rw [List.foldl_cons, ih]
      cases k <;> simp [CheckpointResume.count] <;> omega
  rw [hfold]
  simp

/-- What is refused of the entries of a segment that its publication leaves open: another device, other bytes
    at the place its target is pinned at, and a discard that no held decision matches. -/
inductive Refused (inv : Inventory ρ τ) (decisions : List Decision) (e : Entry) : Prop
  | unknown (h : ∀ c ∈ inv.entries, c.segment ≠ e.segment)
  | device {c} (hc : c ∈ inv.entries) (hsegment : c.segment = e.segment) (hlive : c.live = true)
      (hkind : e.disposition = .segmentBoundary) (hdevice : e.device ≠ c.device)
  | bytes {c t pin} (hc : c ∈ inv.entries) (hsegment : c.segment = e.segment) (hlive : c.live = true)
      (hkind : e.disposition = .segmentBoundary) (ht : t ∈ inv.targets) (htarget : t.segment = e.segment)
      (hpin : t.pin = some pin) (hposition : pin.position = e.locator) (hdiffer : pin ≠ footerOf e)
  | undecided {c} (hc : c ∈ inv.entries) (hsegment : c.segment = e.segment) (hlive : c.live = true)
      (hkind : e.disposition = .authorizedDiscard)
      (hnone : ∀ d ∈ decisions, ¬ (d.sequence = e.locator ∧ d.digest = e.digest ∧ d.bytes = e.bytes
        ∧ d.segment = e.segment ∧ d.action = .discard))

/-- What is refused counts as nothing. -/
theorem Refused.not_counts {inv : Inventory ρ τ} {decisions : List Decision} {e : Entry}
    (h : Refused inv decisions e) {k : Counted} (hcounts : Counts inv decisions e k) : False := by
  -- the entry of the catalog that the count names is the one the refusal names
  have hsame : ∀ {c c' : CatalogEntry ρ}, c ∈ inv.entries → c.segment = e.segment → c' ∈ inv.entries →
      c'.segment = e.segment → c = c' :=
    fun hc hsegment hc' hsegment' => inv.entry_unique hc hc' (hsegment.trans hsegment'.symm)
  have hlive_written : ∀ {c : CatalogEntry ρ}, c.live = true → c.live = false → False :=
    fun h h' => Bool.false_ne_true (h'.symm.trans h)
  cases hcounts with
  | superseded hc hsegment hwritten hdecided hkind =>
    cases h with
    | unknown hmissing => exact hmissing _ hc hsegment
    | device hc' hsegment' hlive => exact hlive_written (hsame hc hsegment hc' hsegment' ▸ hlive) hdecided
    | bytes hc' hsegment' hlive => exact hlive_written (hsame hc hsegment hc' hsegment' ▸ hlive) hdecided
    | undecided hc' hsegment' hlive => exact hlive_written (hsame hc hsegment hc' hsegment' ▸ hlive) hdecided
  | conflict hc hsegment hprepared hkind =>
    cases h with
    | unknown hmissing => exact hmissing _ hc hsegment
    | device hc' hsegment' hlive =>
      exact Holds.written (hsame hc hsegment hc' hsegment' ▸ hlive) hprepared
    | bytes hc' hsegment' hlive =>
      exact Holds.written (hsame hc hsegment hc' hsegment' ▸ hlive) hprepared
    | undecided hc' hsegment' hlive =>
      exact Holds.written (hsame hc hsegment hc' hsegment' ▸ hlive) hprepared
  | raised hc hsegment hlive hkind hfits ht htarget habove =>
    cases h with
    | unknown hmissing => exact hmissing _ hc hsegment
    | device hc' hsegment' _ _ hdevice =>
      exact hdevice (hsame hc hsegment hc' hsegment' ▸ hfits.device)
    | bytes hc' hsegment' _ _ ht' htarget' hpin hposition hdiffer =>
      have hlt := habove _ (inv.target_unique ht ht' (htarget.trans htarget'.symm) ▸ hpin)
      exact Nat.ne_of_lt hlt hposition
    | undecided _ _ _ hkind' => exact nomatch hkind.symm.trans hkind'
  | kept hc hsegment hlive hkind hfits ht htarget hpin hbelow hagree =>
    cases h with
    | unknown hmissing => exact hmissing _ hc hsegment
    | device hc' hsegment' _ _ hdevice =>
      exact hdevice (hsame hc hsegment hc' hsegment' ▸ hfits.device)
    | bytes hc' hsegment' _ _ ht' htarget' hpin' hposition hdiffer =>
      have hpins := hpin.symm.trans (inv.target_unique ht ht' (htarget.trans htarget'.symm) ▸ hpin')
      cases hpins
      exact hdiffer (hagree hposition)
    | undecided _ _ _ hkind' => exact nomatch hkind.symm.trans hkind'
  | discard hc hsegment hlive hkind hmatches =>
    cases h with
    | unknown hmissing => exact hmissing _ hc hsegment
    | device _ _ _ hkind' => exact nomatch hkind.symm.trans hkind'
    | bytes _ _ _ hkind' => exact nomatch hkind.symm.trans hkind'
    | undecided _ _ _ _ hnone =>
      obtain ⟨d, hfind, hrest⟩ := hmatches
      have hsequence := List.find?_some hfind
      exact hnone d (List.mem_of_find?_eq_some hfind) ⟨of_decide_eq_true hsequence, hrest⟩

/-- **Resuming from a checkpoint.** A table is accepted exactly when each of its entries counts as something by
    the inventory as it was opened; then every target is at the higher of its pin and its segment's boundary
    entry, a target that its own publication decides stays as it was, the prepared segments that are named are
    marked, nothing else changed, and the counters are those of one count for each entry. -/
theorem resume_takes_the_higher_pin (table : CheckpointTable) (inventory : Inventory ρ τ)
    (decisions : List Decision) :
    ((∃ out, (resumeFromCheckpoint table.entries inventory.toTables decisions).2 = .ok out) ↔
      ∀ e ∈ table.entries, ∃ k, Counts inventory decisions e k) ∧
    (∀ e ∈ table.entries, Refused inventory decisions e →
      ∀ out, (resumeFromCheckpoint table.entries inventory.toTables decisions).2 ≠ .ok out) ∧
    ∀ out, (resumeFromCheckpoint table.entries inventory.toTables decisions).2 = .ok out →
      (resumeFromCheckpoint table.entries inventory.toTables decisions).1.entries =
        inventory.entries.map (Inventory.marked table.entries) ∧
      (resumeFromCheckpoint table.entries inventory.toTables decisions).1.targets =
        inventory.targets.map (inventory.raised table.entries) ∧
      (∀ t ∈ inventory.targets, ∀ old, t.pin = some old →
        ∃ new, (inventory.raised table.entries t).pin = some new ∧ old.position ≤ new.position) ∧
      ∃ counted, List.Forall₂ (Counts inventory decisions) table.entries counted ∧
        out.superseded = counted.count .superseded ∧ out.conflicts = counted.count .conflict ∧
        out.raised = counted.count .raised ∧ out.discards = counted.count .discard := by
  have hrun : ((∃ out, _) ↔ _) ∧ ∀ out, _ → _ := (Holds.start inventory decisions).run table.apart
  obtain ⟨hiff, hdone⟩ := hrun
  refine ⟨hiff, fun e he hrefused out hout => ?_, fun out hout => ?_⟩
  · obtain ⟨k, hk⟩ := hiff.mp ⟨out, hout⟩ e he
    exact hrefused.not_counts hk
  · obtain ⟨hafter, counted, hforall, hcounters⟩ := hdone out hout
    refine ⟨congrArg Tables.entries hafter, congrArg Tables.targets hafter, fun t _ old hold => ?_,
      counted, hforall, ?_⟩
    · exact Inventory.raised_pin_le hold
    · rw [hcounters]
      exact tally_counts counted

/-- A segment on one device that is being removed, and the boundary a checkpoint pins of it on another. -/
def exampleInventory : Inventory Unit Unit where
  entries := [⟨.deleting, 1, ⟨⟨1, 2, 3, 4, 5⟩, 512, 512, 0, 0, .v1, by decide, Nat.zero_le _, Nat.zero_le _⟩,
    ⟨⟨1, 2, 3, 4, 5⟩, .deleting, none⟩, false, ()⟩]
  targets := []
  distinct := by decide
  listed := by decide

def exampleTable : CheckpointTable where
  entries := [⟨⟨1, 2, 3, 4, 5⟩, .segmentBoundary, 2, 1024, 512, 6, 77⟩]
  single := by decide
  ordered := by decide

/-- An entry of a segment that its publication decides is not refused for the device it names. -/
theorem resume_accepts_superseded_device :
    ¬ ∀ (table : CheckpointTable) (inventory : Inventory Unit Unit) (decisions : List Decision),
      ∀ e ∈ table.entries, ∀ c ∈ inventory.entries, c.segment = e.segment →
        e.disposition = .segmentBoundary → e.device ≠ c.device →
        ∀ out, (resumeFromCheckpoint table.entries inventory.toTables decisions).2 ≠ .ok out := by
  intro h
  exact h exampleTable exampleInventory [] _ (List.mem_singleton.mpr rfl) _ (List.mem_singleton.mpr rfl) rfl rfl
    (by decide) { superseded := 1 } (by decide)

end KwaqueStorage.Recovery
