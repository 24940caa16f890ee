import KwaqueStorage.Pins.Cuts
import KwaqueStorage.Lib.Runs

/-!
# The pins over any sequence of calls

Observations, holds, discharges, covers, cuts, pins installed in any cut there is, and cuts adopted,
in any order, from an owner that was just made or that took over the table of a durable checkpoint.
A call that fails leaves everything as it was.

Beside the owner and the cuts its caller holds, a state has what no code keeps: the table of the
durable checkpoint, the greatest footer observed of each segment, and which cut was the latest when a
segment was last covered as sealed or deleting.
-/

namespace KwaqueStorage.Pins

open Extent Lib
open Function (update update_of_ne update_self)

/-- A cut its caller holds, with the owner it was taken from and the footers observed by then. -/
structure Cut where
  capture : Capture
  taken : Owner
  newest : SegmentContext → Option Nat

structure State where
  owner : Owner
  cuts : List Cut := []
  /-- The table of the durable checkpoint. -/
  durable : List Entry := []
  /-- The footers a restored table pinned, and the greatest ones observed since. -/
  restored : SegmentContext → Option Nat := fun _ => none
  seen : SegmentContext → Option Nat := fun _ => none
  /-- The latest cut when the segment was covered as sealed or deleting. -/
  shut : SegmentContext → Option Nat := fun _ => none

/-- A segment's newest footer. -/
def State.newest (s : State) (segment : SegmentContext) : Option Nat :=
  (s.seen segment).or (s.restored segment)

inductive Call
  | observe (boundary : Boundary)
  | hold (decision : Decision)
  | discharge (decision : Decision) (released : Bool)
  | cover (publication : Publication)
  | capture (end_ : Cursor)
  | install (at_ : Nat) (reference : FooterReference)
  | adopt (at_ : Nat)

/-- The publication is a sealed or a deleting one. -/
def Publication.shuts (p : Publication) : Bool := p.state = .sealed_ ∨ p.state = .deleting

namespace State

/-- One call; none where there is no such cut. -/
def step (s : State) : Call → Option State
  | .observe b =>
    match s.owner.observe b with
    | .error _ => some s
    | .ok owner => some { s with
        owner
        seen := update s.seen b.segment
          (some (max ((s.seen b.segment).getD 0) b.footer.begin_)) }
  | .hold d =>
    match s.owner.hold d with
    | .error _ => some s
    | .ok owner => some { s with owner }
  | .discharge d released =>
    match s.owner.discharge d released with
    | .error _ => some s
    | .ok owner => some { s with owner }
  | .cover p =>
    match s.owner.cover p with
    | .error _ => some s
    | .ok owner => some { s with
        owner
        shut := if p.shuts then update s.shut p.segment (some s.owner.cut) else s.shut }
  | .capture end_ =>
    let cut := s.owner.capture end_
    some { s with owner := cut.1, cuts := s.cuts ++ [⟨cut.2, s.owner, s.newest⟩] }
  | .install at_ reference =>
    s.cuts[at_]?.map fun cut =>
      match cut.capture.install reference with
      | .error _ => s
      | .ok capture => { s with cuts := s.cuts.set at_ { cut with capture } }
  | .adopt at_ =>
    s.cuts[at_]?.map fun cut =>
      match s.owner.adopt cut.capture with
      | .error _ => s
      | .ok owner => { s with
          owner, cuts := s.cuts.eraseIdx at_, durable := cut.capture.entries }

/-- A state to begin with: an owner that was just made, or took over a durable table. -/
inductive Begins : State → Prop
  | made {limits : Limits} {capacity : Nat} {owner : Owner} :
    Owner.make limits capacity = .ok owner → Begins { owner }
  | restored {limits : Limits} {capacity : Nat} {bare owner : Owner} {loaded : Owner.Loaded} :
    Owner.make limits capacity = .ok bare → bare.restore loaded = .ok owner →
    Begins { owner, durable := loaded.entries,
             restored := fun segment => (boundaryIn loaded.entries segment).map Entry.locator }

/-- The footers of one segment are observed in file order. -/
def inOrder (s : State) : Call → Bool
  | .observe b => (s.seen b.segment).all fun position => decide (position ≤ b.footer.begin_)
  | _ => true

end State

/-- The owner and its callers. -/
def system : System State Call := ⟨State.Begins, State.step⟩

/-- Every state of a run in which each segment's footers are observed in file order. -/
def Reached (s : State) : Prop := system.Run (fun s a => s.inOrder a = true) s

/-- A cut carries something of the segment, or will when its footers are read. -/
def Capture.Carries (c : Capture) (segment : SegmentContext) : Prop :=
  (∃ e ∈ c.entries, e.segment = segment) ∨ ∃ b ∈ c.refresh, b.segment = segment

/-- The cut that may be adopted. -/
def State.IsOpen (s : State) (cut : Cut) : Prop :=
  cut ∈ s.cuts ∧ s.owner.cutOpen = true ∧ cut.capture.cut = s.owner.cut

/-! ## The invariant -/

/-- What the tables pin and what waits is the newest footer of its segment. -/
structure Newest (o : Owner) (newest : SegmentContext → Option Nat) : Prop where
  pending : ∀ b ∈ o.pending, newest b.segment = some b.footer.begin_
  entries : ∀ e ∈ o.entries, e.isBoundary = true → (∀ b ∈ o.pending, b.segment ≠ e.segment) →
    newest e.segment = some e.locator

/-- A cut, and the owner it was taken from. -/
structure Cut.Right (cut : Cut) : Prop where
  kept : cut.taken.Kept
  exact_ : cut.capture.Exact cut.taken
  newest : Newest cut.taken cut.newest

/-- **What every call keeps**, of the owner, its cuts and the durable checkpoint. -/
structure State.Right (s : State) : Prop where
  kept : s.owner.Kept
  newest : Newest s.owner s.newest
  cuts : ∀ cut ∈ s.cuts, cut.Right
  numbers : ∀ cut ∈ s.cuts, cut.capture.cut ≤ s.owner.cut
  since : ∀ cut, s.IsOpen cut → Since cut.taken s.owner
  durable : ∀ e ∈ s.durable, e ∈ s.owner.entries ∨ s.owner.Lingers e.segment
  shut_le : ∀ segment k, s.shut segment = some k → k ≤ s.owner.cut
  shut : ∀ segment k, s.shut segment = some k → ∀ cut, s.IsOpen cut → s.owner.cut ≤ k →
    cut.capture.Carries segment → s.owner.Lingers segment

section Steps

variable {o o' : Owner} {c c' : Capture} {newest : SegmentContext → Option Nat}

/-- A cut carries what the owner held. -/
theorem Capture.Exact.carries {taken : Owner} (hexact : c.Exact taken) {segment : SegmentContext}
    (h : c.Carries segment) : taken.Holds segment := by
  rcases h with ⟨e, he, rfl⟩ | ⟨b, hb, rfl⟩
  · rcases hexact.plain e he with hboundary | hdiscard
    · rcases Owner.mem_tracked.mp (hexact.boundaries e he hboundary) with ⟨x, hx, _, hs⟩ | hb
      · exact .inl ⟨x, hx, hs⟩
      · exact .inr (.inl hb)
    · rcases (hexact.discards e hdiscard).mp he with hx | ⟨h, hmem, rfl, _⟩
      · exact .inl ⟨e, hx, rfl⟩
      · exact .inr (.inr ⟨h, hmem, rfl⟩)
  · rw [hexact.refresh] at hb
    exact .inr (.inl ⟨b, hb, rfl⟩)

theorem install_carries {taken : Owner} (hexact : c.Exact taken) {reference : FooterReference}
    (h : c.install reference = .ok c') {segment : SegmentContext} (hcarries : c'.Carries segment) :
    c.Carries segment := by
  obtain ⟨b, hb, _, _, hmem, _, hrefresh, _, _⟩ := install_cases hexact h
  rcases hcarries with ⟨e, he, rfl⟩ | hcarries
  · rcases (hmem e).mp he with rfl | ⟨he, _⟩
    · exact .inr ⟨b, List.mem_of_getElem? hb, rfl⟩
    · exact .inl ⟨e, he, rfl⟩
  · rw [hrefresh] at hcarries
    exact .inr hcarries

/-- **The newest footer after an observation** is the one that was observed. -/
theorem Newest.observe (hkept : o.Kept) (hnewest : Newest o newest) {b : Boundary}
    (h : o.observe b = .ok o') :
    Newest o' (update newest b.segment (some b.footer.begin_)) := by
  have hentries : o'.entries = o.entries := by
    rcases Owner.observe_cases h with ⟨_, _, _, _, rfl⟩ | ⟨_, _, rfl⟩
      | ⟨_, ⟨_, _, rfl⟩ | ⟨_, _, rfl⟩⟩ <;> rfl
  have hpending : (∀ x ∈ o'.pending, x = b ∨ (x ∈ o.pending ∧ x.segment ≠ b.segment))
      ∧ ∀ x ∈ o.pending, x.segment ≠ b.segment → x ∈ o'.pending := by
    rcases Owner.observe_cases h with ⟨_, _, _, hnone, rfl⟩ | ⟨old, hold, rfl⟩
      | ⟨hnone, ⟨_, _, rfl⟩ | ⟨_, _, rfl⟩⟩
    · exact ⟨fun x hx => .inr ⟨hx, hkept.pending.lookup_eq_none.mp hnone x hx⟩, fun x hx _ => hx⟩
    · obtain ⟨hmem, hsegment⟩ := hkept.pending.lookup_eq_some.mp hold
      have hin := (hkept.pending.replaceAt hmem hsegment).2
      exact ⟨fun x hx => (hin x).mp hx, fun x hx hne => (hin x).mpr (.inr ⟨hx, hne⟩)⟩
    all_goals
      have hfresh := hkept.pending.lookup_eq_none.mp hnone
      refine ⟨fun x hx => ?_, fun x hx _ => mem_insertAt.mpr (.inr hx)⟩
      rcases mem_insertAt.mp hx with rfl | hx
      · exact .inl rfl
      · exact .inr ⟨hx, hfresh x hx⟩
  -- the segment's own boundary: it pins this footer, or the footer waits
  have hown : ∀ e ∈ o.entries, e.isBoundary = true → e.segment = b.segment →
      (∀ x ∈ o'.pending, x.segment ≠ e.segment) → e.locator = b.footer.begin_ := by
    intro e he hboundary hsegment hnone
    have hwaits : b ∈ o'.pending → False := fun hb => hnone b hb hsegment.symm
    rcases Owner.observe_cases h with ⟨x, hx, hlocator, _, rfl⟩ | ⟨old, hold, rfl⟩
      | ⟨_, ⟨_, _, rfl⟩ | ⟨_, _, rfl⟩⟩
    · rw [(boundaryIn_eq_some hkept.entries).mpr ⟨he, hsegment, hboundary⟩] at hx
      cases hx
      exact hlocator
    · obtain ⟨hmem, hkey⟩ := hkept.pending.lookup_eq_some.mp hold
      exact absurd (((hkept.pending.replaceAt hmem hkey).2 b).mpr (.inl rfl)) hwaits
    · exact absurd (mem_insertAt.mpr (.inl rfl)) hwaits
    · exact absurd (mem_insertAt.mpr (.inl rfl)) hwaits
  refine ⟨?_, ?_⟩
  · intro x hx
    rcases hpending.1 x hx with rfl | ⟨hx, hne⟩
    · rw [update_self]
    · rw [update_of_ne hne]
      exact hnewest.pending x hx
  · intro e he hboundary hnone
    rw [hentries] at he
    by_cases hsegment : e.segment = b.segment
    · rw [hsegment, update_self, hown e he hboundary hsegment hnone]
    · rw [update_of_ne hsegment]
      refine hnewest.entries e he hboundary ?_
      intro x hx hxs
      exact hnone x (hpending.2 x hx (hxs ▸ hsegment)) hxs

theorem Newest.same (hnewest : Newest o newest) (hentries : o'.entries = o.entries)
    (hpending : o'.pending = o.pending) : Newest o' newest := by
  refine ⟨?_, ?_⟩
  · rw [hpending]
    exact hnewest.pending
  · rw [hentries, hpending]
    exact hnewest.entries

/-- A cover takes a segment's boundary and the footer that waits for it together. -/
theorem Newest.covers (hnewest : Newest o newest) {segment : SegmentContext} {gone : Entry → Prop}
    (hcovers : o.Covers o' segment gone)
    (hboundary : ∀ e, e.segment = segment → e.isBoundary = true → gone e) : Newest o' newest := by
  refine ⟨?_, ?_⟩
  · intro b hb
    exact hnewest.pending b ((hcovers.mem_pending b).mp hb).1
  · intro e he hb hnone
    obtain ⟨hmem, hnot⟩ := (hcovers.mem_entries e).mp he
    refine hnewest.entries e hmem hb ?_
    intro x hx hsegment
    refine hnone x ((hcovers.mem_pending x).mpr ⟨hx, ?_⟩) hsegment
    intro heq
    exact hnot (hboundary e (hsegment.symm.trans heq) hb)

theorem Newest.cover (hkept : o.Kept) (hnewest : Newest o newest) {p : Publication}
    (h : o.cover p = .ok o') : Newest o' newest := by
  have hsealed : Newest (o.coverSealed p.segment) newest :=
    hnewest.covers (Owner.sealed_cases hkept p.segment).1 fun _ h _ => h
  unfold Owner.cover at h
  split at h
  · cases h
    rcases Owner.recovering_cases hkept p.segment p.boundary with hsame | ⟨_, hcovers, _⟩
    · rw [hsame]
      exact hnewest
    · exact hnewest.covers hcovers fun _ h₁ h₂ => ⟨h₁, h₂⟩
  · cases h
    exact hsealed
  · cases h
    exact hsealed
  · cases h

/-- **The table an adopted cut becomes pins the newest footers**, but where one waits that was
    observed since. -/
theorem Newest.adopt {taken : Owner} (hkept : o.Kept) (hnewest : Newest o newest)
    (hexact : c.Exact taken) (htaken : taken.Kept) (hsince : Since taken o)
    (h : o.adopt c = .ok o') : Newest o' newest := by
  obtain ⟨_, _, hcomplete, hentries, hpending, _⟩ := adopt_cases hkept hexact htaken h
  refine ⟨?_, ?_⟩
  · intro b hb
    exact hnewest.pending b ((hpending b).mp hb).1
  · intro e he hboundary hnone
    rw [hentries, List.mem_filter, Bool.not_eq_true'] at he
    obtain ⟨hce, hcovered⟩ := he
    have huniq : ∀ x ∈ c.entries, x.isBoundary = true → x.segment = e.segment → x = e := by
      intro x hx hxb hxs
      exact hexact.entries.unique hx hce
        ((slot_eq_boundary.mpr ⟨hxs, hxb⟩).trans (slot_eq_boundary.mpr ⟨rfl, hboundary⟩).symm)
    -- a footer that waited is one the cut read
    have hread : ∀ b ∈ o.pending, b.segment = e.segment → newest e.segment = some e.locator := by
      intro b hb hsegment
      have hin : b ∈ c.refresh := by
        by_contra hnot
        exact hnone b ((hpending b).mpr ⟨hb, hnot⟩) hsegment
      obtain ⟨x, hx, hxb, hxs, hlocator⟩ := hexact.refreshed hcomplete hin
      obtain rfl := huniq x hx hxb (hxs.trans hsegment)
      rw [hlocator, hxs]
      exact hnewest.pending b hb
    have htracked : e.segment ∈ o.tracked := by
      rcases (coveredSince_iff hkept (.inl hboundary)).mp hcovered with ⟨_, ht⟩ | ⟨hd, _⟩
      · exact ht
      · rw [(discard_code hd).2] at hboundary
        cases hboundary
    by_cases hwaiting : ∃ b ∈ o.pending, b.segment = e.segment
    · obtain ⟨b, hb, hsegment⟩ := hwaiting
      exact hread b hb hsegment
    rcases Owner.mem_tracked.mp htracked with ⟨x, hx, hxb, hxs⟩ | hb
    · have hfree : ∀ b ∈ taken.pending, b.segment ≠ x.segment := by
        intro b hb heq
        obtain ⟨y, hy, hys⟩ := hsince.waits x hx hxb ⟨b, hb, heq⟩
        exact hwaiting ⟨y, hy, hys.trans hxs⟩
      obtain rfl := huniq x (hexact.carried x (hsince.entries x hx) hxb hfree) hxb hxs
      exact hnewest.entries x hx hxb fun b hb hs => hwaiting ⟨b, hb, hs⟩
    · exact absurd hb hwaiting

end Steps

/-! ## Beginnings -/

theorem make_kept {limits : Limits} {capacity : Nat} {o : Owner}
    (h : Owner.make limits capacity = .ok o) : o = { limits, capacity } ∧ o.Kept := by
  unfold Owner.make at h
  split at h
  next hvalid =>
    cases h
    refine ⟨rfl, ?_⟩
    constructor
    case entries => exact Ordered.nil
    case pending => exact Ordered.nil
    case discards => exact Ordered.nil
    case limits => exact hvalid
    all_goals simp [Owner.tracked, Owner.decided]
  next => cases h

/-- A decoded table in canonical order is in the order of its places. -/
theorem ordered_loaded {loaded : Owner.Loaded}
    (h : loaded.entries.IsChain (fun a b => a.key < b.key)) : Ordered Entry.slot loaded.entries := by
  have htrans : ∀ a b c : Entry, a.key < b.key → b.key < c.key → a.key < c.key :=
    fun _ _ _ => lt_trans
  have : IsTrans Entry fun a b => a.key < b.key := ⟨htrans⟩
  have hpairs := List.isChain_iff_pairwise.mp h
  refine List.Pairwise.imp_of_mem ?_ hpairs
  intro a b ha hb hlt
  by_cases hboundary : a.isBoundary = true ∧ b.isBoundary = true ∧ a.segment = b.segment
  · obtain rfl := loaded.single a ha b hb hboundary.1 hboundary.2.1 hboundary.2.2
    exact absurd hlt (lt_irrefl _)
  · unfold Entry.key at hlt
    unfold Entry.slot
    rw [lex_lt] at hlt ⊢
    rcases hlt with hlt | ⟨heq, hlt | ⟨hcode, hlt⟩⟩
    · exact .inl hlt
    · exact .inr ⟨heq, .inl hlt⟩
    · have hiff : a.isBoundary = true ↔ b.isBoundary = true := by
        rw [← code_eq_one, hcode, code_eq_one]
      have hna : ¬ a.isBoundary = true := fun ha => hboundary ⟨ha, hiff.mp ha, heq⟩
      have hnb : ¬ b.isBoundary = true := fun hb => hna (hiff.mpr hb)
      rw [if_neg hna, if_neg hnb]
      exact .inr ⟨heq, .inr ⟨hcode, hlt⟩⟩

/-- **A restored owner** counts what the table has. -/
theorem restore_kept {o o' : Owner} (hkept : o.Kept) {loaded : Owner.Loaded}
    (h : o.restore loaded = .ok o') :
    o'.Kept ∧ o'.entries = loaded.entries ∧ o'.pending = [] := by
  unfold Owner.restore at h
  split at h
  next => cases h
  next hempty =>
    simp only [not_or, not_not] at hempty
    obtain ⟨_, hpending, hdiscards, _⟩ := hempty
    split at h
    next => cases h
    next hchain =>
      split at h
      next => cases h
      next hplain =>
        simp only at h
        split at h
        next => cases h
        next hroom =>
          cases h
          have hordered := ordered_loaded (not_not.mp hchain)
          have hsegments : ((loaded.entries.filter Entry.isBoundary).map Entry.segment).Nodup := by
            rw [List.nodup_map_iff_inj_on (hordered.filter _).nodup]
            intro a ha b hb hsegment
            obtain ⟨ha, hab⟩ := List.mem_filter.mp ha
            obtain ⟨hb, hbb⟩ := List.mem_filter.mp hb
            exact loaded.single a ha b hb hab hbb hsegment
          refine ⟨?_, rfl, hpending⟩
          constructor
          case entries => exact hordered
          case plain =>
            intro e he
            have hnot : e.disposition ≠ .preservedCandidate := by
              intro heq
              exact hplain (List.any_eq_true.mpr ⟨e, he, by simpa using heq⟩)
            unfold Entry.isBoundary Entry.isDiscard
            cases hd : e.disposition with
            | segmentBoundary => exact .inl rfl
            | preservedCandidate => exact absurd hd hnot
            | authorizedDiscard => exact .inr rfl
          case pending => exact hkept.pending
          case discards => exact hkept.discards
          case pins => exact hkept.pins
          case apart => simp [hdiscards]
          case segments =>
            simp only [Owner.tracked, hpending, List.map_nil, List.append_nil]
            rw [List.toFinset_card_of_nodup hsegments, List.length_map,
              List.countP_eq_length_filter]
          case decisions =>
            simp only [Owner.decided, hdiscards, List.map_nil, List.append_nil]
            rw [List.toFinset_card_of_nodup (hordered.filter _).nodup, List.countP_eq_length_filter]
          case segments_le => exact Nat.le_of_not_lt fun hlt => hroom (.inl hlt)
          case decisions_le => exact Nat.le_of_not_lt fun hlt => hroom (.inr hlt)
          case limits => exact hkept.limits

theorem begins_right {s : State} (h : s.Begins) : s.Right := by
  have hno : ∀ {o : Owner} {cut : Cut} {durable : List Entry}
      {restored : SegmentContext → Option Nat},
      State.IsOpen { owner := o, durable, restored } cut → False := by
    intro o cut durable restored hopen
    exact List.not_mem_nil hopen.1
  cases h with
  | made hmake =>
    obtain ⟨rfl, hkept⟩ := make_kept hmake
    refine ⟨hkept, ⟨?_, ?_⟩, ?_, ?_, fun cut hopen => (hno hopen).elim, ?_, ?_, ?_⟩
    case refine_6 =>
      intro segment k hk
      cases hk
    case refine_7 =>
      intro segment k hk
      cases hk
    all_goals
      intro x hx
      cases hx
  | restored hmake hrestore =>
    obtain ⟨_, hbare⟩ := make_kept hmake
    obtain ⟨hkept, hentries, hpending⟩ := restore_kept hbare hrestore
    refine ⟨hkept, ⟨?_, ?_⟩, ?_, ?_, fun cut hopen => (hno hopen).elim, ?_, ?_, ?_⟩
    · intro b hb
      rw [hpending] at hb
      cases hb
    · intro e he hboundary _
      unfold State.newest
      simp only [Option.none_or]
      rw [← hentries, (boundaryIn_eq_some hkept.entries).mpr ⟨he, rfl, hboundary⟩]
      rfl
    · intro cut hcut
      cases hcut
    · intro cut hcut
      cases hcut
    · intro e he
      exact .inl (hentries ▸ he)
    · intro segment k hk
      cases hk
    · intro segment k hk
      cases hk

/-! ## Calls -/

section Calls

variable {s s' : State} {o' : Owner}

/-- **A call that changes the owner alone** keeps everything right if its tables let go of no entry
    without counting it, and a segment that it shuts has nothing left. -/
theorem State.Right.changed (hright : s.Right) {seen : SegmentContext → Option Nat}
    {shut : SegmentContext → Option Nat} (hkept : o'.Kept)
    (hnewest : Newest o' (State.newest { s with seen }))
    (hsame : o'.cut = s.owner.cut ∧ o'.cutOpen = s.owner.cutOpen)
    (hsince : ∀ taken, s.owner.cutOpen = true → Since taken s.owner → Since taken o')
    (hlingers : ∀ segment, s.owner.Lingers segment → o'.Lingers segment)
    (hentries : ∀ e ∈ s.owner.entries, e ∈ o'.entries ∨ o'.Lingers e.segment)
    (hshut : ∀ segment k, shut segment = some k →
      s.shut segment = some k ∨ (k = s.owner.cut ∧ ¬ o'.Holds segment)) :
    State.Right { s with owner := o', seen, shut } := by
  have hopen : ∀ cut, State.IsOpen { s with owner := o', seen, shut } cut → s.IsOpen cut := by
    rintro cut ⟨hmem, hcut, hnumber⟩
    exact ⟨hmem, hsame.2 ▸ hcut, hnumber.trans hsame.1⟩
  have hsince' : ∀ cut, State.IsOpen { s with owner := o', seen, shut } cut →
      Since cut.taken o' := by
    intro cut hcut
    exact hsince cut.taken (hopen cut hcut).2.1 (hright.since cut (hopen cut hcut))
  have hnumbers : ∀ cut ∈ s.cuts, cut.capture.cut ≤ o'.cut := by
    rw [hsame.1]
    exact hright.numbers
  refine ⟨hkept, hnewest, hright.cuts, hnumbers, hsince', ?_, ?_, ?_⟩
  · intro e he
    rcases hright.durable e he with hin | hl
    · exact hentries e hin
    · exact .inr (hlingers _ hl)
  · intro segment k hk
    simp only [hsame.1]
    rcases hshut segment k hk with hold | ⟨rfl, _⟩
    · exact hright.shut_le segment k hold
    · exact le_refl _
  · intro segment k hk cut hcut hle hcarries
    simp only [hsame.1] at hle
    rcases hshut segment k hk with hold | ⟨_, hnone⟩
    · exact hlingers _ (hright.shut segment k hold cut (hopen cut hcut) hle hcarries)
    · have hexact := (hright.cuts cut hcut.1).exact_
      exact ((hsince' cut hcut).holds segment (hexact.carries hcarries)).resolve_left hnone

theorem State.Right.observe (hright : s.Right) {b : Boundary} (horder : s.inOrder (.observe b) = true)
    (h : s.step (.observe b) = some s') : s'.Right := by
  simp only [State.step] at h
  split at h
  next =>
    cases h
    exact hright
  next o' ho =>
    cases h
    have hsame : o'.entries = s.owner.entries ∧ o'.cut = s.owner.cut
        ∧ o'.cutOpen = s.owner.cutOpen ∧ o'.covered = s.owner.covered
        ∧ o'.uncounted = s.owner.uncounted := by
      rcases Owner.observe_cases ho with ⟨_, _, _, _, rfl⟩ | ⟨_, _, rfl⟩
        | ⟨_, ⟨_, _, rfl⟩ | ⟨_, _, rfl⟩⟩ <;> exact ⟨rfl, rfl, rfl, rfl, rfl⟩
    obtain ⟨hentries, hcut, hcutOpen, hcovered, huncounted⟩ := hsame
    -- in file order the greatest footer is the last
    have hlast : max ((s.seen b.segment).getD 0) b.footer.begin_ = b.footer.begin_ := by
      apply max_eq_right
      simp only [State.inOrder] at horder
      cases hseen : s.seen b.segment with
      | none => exact Nat.zero_le _
      | some position =>
        rw [hseen] at horder
        simpa using horder
    have hnewest := hright.newest.observe hright.kept ho
    refine hright.changed (hright.kept.observe ho) ?_ ⟨hcut, hcutOpen⟩ ?_ ?_ ?_ ?_
    · rw [hlast]
      have hsame : State.newest { s with
            seen := (update s.seen b.segment (some b.footer.begin_)) }
          = update s.newest b.segment (some b.footer.begin_) := by
        funext segment
        simp only [State.newest]
        by_cases hsegment : segment = b.segment
        · rw [hsegment, update_self, update_self]
          rfl
        · rw [update_of_ne hsegment, update_of_ne hsegment]
          rfl
      rw [hsame]
      exact hnewest
    · exact fun taken _ hsince => hsince.observe hright.kept ho
    · intro segment hl
      unfold Owner.Lingers
      rw [hcovered, huncounted]
      exact hl
    · intro e he
      exact .inl (hentries ▸ he)
    · exact fun _ _ hk => .inl hk

/-- Holding or discharging a discard. -/
theorem State.Right.held (hright : s.Right) (hkept : o'.Kept)
    (hsame : ∃ discards decisions, o' = { s.owner with discards, decisions })
    (hsince : ∀ taken, Since taken s.owner → Since taken o') :
    State.Right { s with owner := o' } := by
  obtain ⟨discards, decisions, rfl⟩ := hsame
  exact hright.changed hkept (hright.newest.same rfl rfl) ⟨rfl, rfl⟩ (fun taken _ => hsince taken)
    (fun _ h => h) (fun _ he => .inl he) fun _ _ hk => .inl hk

theorem State.Right.hold (hright : s.Right) {d : Decision} (h : s.step (.hold d) = some s') :
    s'.Right := by
  simp only [State.step] at h
  split at h
  next =>
    cases h
    exact hright
  next o' ho =>
    cases h
    refine hright.held (hright.kept.hold ho) ?_ fun taken hsince => hsince.hold ho
    rcases Owner.hold_cases ho with rfl | ⟨_, _, _, rfl⟩
    · exact ⟨_, _, rfl⟩
    · exact ⟨_, _, rfl⟩

theorem State.Right.discharge (hright : s.Right) {d : Decision} {released : Bool}
    (h : s.step (.discharge d released) = some s') : s'.Right := by
  simp only [State.step] at h
  split at h
  next =>
    cases h
    exact hright
  next o' ho =>
    cases h
    refine hright.held (hright.kept.discharge ho) ?_ fun taken hsince => hsince.discharge ho
    obtain ⟨discards, _, rfl⟩ := Owner.discharge_cases ho
    exact ⟨discards, _, rfl⟩

/-- What a sealed or a deleting publication covers is gone from all three tables. -/
theorem not_holds_sealed {o : Owner} (hkept : o.Kept) (segment : SegmentContext) :
    ¬ (o.coverSealed segment).Holds segment := by
  obtain ⟨hcovers, hdiscards, _⟩ := Owner.sealed_cases hkept segment
  rintro (⟨e, he, hsegment⟩ | ⟨b, hb, hsegment⟩ | ⟨x, hx, hsegment⟩)
  · exact ((hcovers.mem_entries e).mp he).2 hsegment
  · exact ((hcovers.mem_pending b).mp hb).2 hsegment
  · rw [hdiscards, List.mem_filter, decide_eq_true_eq] at hx
    exact hx.2 hsegment

theorem cover_shuts {o o' : Owner} {p : Publication} (h : o.cover p = .ok o')
    (hshuts : p.shuts = true) : o' = o.coverSealed p.segment := by
  unfold Owner.cover at h
  unfold Publication.shuts at hshuts
  cases hstate : p.state with
  | active => simp [hstate] at hshuts
  | recovering => simp [hstate] at hshuts
  | sealed_ =>
    rw [hstate] at h
    exact (Except.ok.inj h).symm
  | deleting =>
    rw [hstate] at h
    exact (Except.ok.inj h).symm

/-- What any cover leaves, and what it counts. -/
theorem cover_counts {o o' : Owner} (hkept : o.Kept) {p : Publication} (h : o.cover p = .ok o') :
    (o'.cut = o.cut ∧ o'.cutOpen = o.cutOpen)
      ∧ (∀ segment, o.Lingers segment → o'.Lingers segment)
      ∧ ∀ e ∈ o.entries, e ∈ o'.entries ∨ o'.Lingers e.segment := by
  have hcovers : ∀ {o' : Owner} {gone : Entry → Prop}, o.Covers o' p.segment gone →
      (∀ e, gone e → e.segment = p.segment) →
      (o'.cut = o.cut ∧ o'.cutOpen = o.cutOpen)
        ∧ (∀ segment, o.Lingers segment → o'.Lingers segment)
        ∧ ∀ e ∈ o.entries, e ∈ o'.entries ∨ o'.Lingers e.segment := by
    intro o' gone hcovers hgone
    refine ⟨hcovers.same.2, hcovers.lingers, ?_⟩
    intro e he
    by_cases hin : gone e
    · refine .inr ?_
      rw [hgone e hin]
      exact hcovers.counted e he hin
    · exact .inl ((hcovers.mem_entries e).mpr ⟨he, hin⟩)
  have hsealed := hcovers (Owner.sealed_cases hkept p.segment).1 fun _ h => h
  unfold Owner.cover at h
  split at h
  · cases h
    rcases Owner.recovering_cases hkept p.segment p.boundary with hsame | ⟨_, hrecovering, _⟩
    · rw [hsame]
      exact ⟨⟨rfl, rfl⟩, fun _ h => h, fun _ he => .inl he⟩
    · exact hcovers hrecovering fun _ h => h.1
  · cases h
    exact hsealed
  · cases h
    exact hsealed
  · cases h

theorem State.Right.cover (hright : s.Right) {p : Publication} (h : s.step (.cover p) = some s') :
    s'.Right := by
  simp only [State.step] at h
  split at h
  next =>
    cases h
    exact hright
  next o' ho =>
    cases h
    obtain ⟨hsame, hlingers, hentries⟩ := cover_counts hright.kept ho
    refine hright.changed (hright.kept.cover ho) (hright.newest.cover hright.kept ho) hsame ?_
      hlingers hentries ?_
    · exact fun taken hopen hsince => hsince.cover hright.kept hopen ho
    · intro segment k hk
      split at hk
      next hshuts =>
        by_cases hsegment : segment = p.segment
        · rw [hsegment, update_self] at hk
          cases hk
          refine .inr ⟨rfl, ?_⟩
          rw [cover_shuts ho hshuts, hsegment]
          exact not_holds_sealed hright.kept p.segment
        · rw [update_of_ne hsegment] at hk
          exact .inl hk
      next => exact .inl hk

/-- A cut that is taken is the open one, and carries what is tracked. -/
theorem State.Right.capture (hright : s.Right) {end_ : Cursor}
    (h : s.step (.capture end_) = some s') : s'.Right := by
  simp only [State.step] at h
  cases h
  have hmem : ∀ cut, cut ∈ s.cuts ++ [⟨(s.owner.capture end_).2, s.owner, s.newest⟩] →
      cut ∈ s.cuts ∨ cut = ⟨(s.owner.capture end_).2, s.owner, s.newest⟩ := by
    intro cut hcut
    rcases List.mem_append.mp hcut with hcut | hcut
    · exact .inl hcut
    · exact .inr (List.mem_singleton.mp hcut)
  refine ⟨?_, hright.newest.same rfl rfl, ?_, ?_, ?_, hright.durable, ?_, ?_⟩
  · exact ⟨hright.kept.entries, hright.kept.plain, hright.kept.pending, hright.kept.discards,
      hright.kept.pins, hright.kept.apart, hright.kept.segments, hright.kept.decisions,
      hright.kept.segments_le, hright.kept.decisions_le, hright.kept.limits⟩
  · intro cut hcut
    rcases hmem cut hcut with hcut | rfl
    · exact hright.cuts cut hcut
    · exact ⟨hright.kept, capture_exact hright.kept end_, hright.newest⟩
  · intro cut hcut
    rcases hmem cut hcut with hcut | rfl
    · exact (hright.numbers cut hcut).trans (Nat.le_succ _)
    · exact le_refl _
  · rintro cut ⟨hcut, _, hnumber⟩
    rcases hmem cut hcut with hcut | rfl
    · have hle := hright.numbers cut hcut
      have hnext : cut.capture.cut = s.owner.cut + 1 := hnumber
      omega
    · exact capture_since s.owner end_
  · intro segment k hk
    exact (hright.shut_le segment k hk).trans (Nat.le_succ _)
  · intro segment k hk cut _ hle _
    have hk := hright.shut_le segment k hk
    have hnext : s.owner.cut + 1 ≤ k := hle
    omega

/-- Installing a pin changes one of the cuts. -/
theorem State.Right.install (hright : s.Right) {at_ : Nat} {reference : FooterReference}
    (h : s.step (.install at_ reference) = some s') : s'.Right := by
  simp only [State.step] at h
  obtain ⟨cut, hcut, hs⟩ := Option.map_eq_some_iff.mp h
  split at hs
  next =>
    obtain rfl := hs
    exact hright
  next capture hinstall =>
    obtain rfl := hs
    have hold := List.mem_of_getElem? hcut
    have hof := hright.cuts cut hold
    obtain ⟨_, _, _, _, _, _, _, _, hnumber⟩ := install_cases hof.exact_ hinstall
    have hmem : ∀ x, x ∈ s.cuts.set at_ { cut with capture } → x ∈ s.cuts ∨ x = { cut with capture } :=
      fun x hx => List.mem_or_eq_of_mem_set hx
    refine ⟨hright.kept, hright.newest, ?_, ?_, ?_, hright.durable, hright.shut_le, ?_⟩
    · intro x hx
      rcases hmem x hx with hx | rfl
      · exact hright.cuts x hx
      · exact ⟨hof.kept, install_exact hof.kept hof.exact_ hinstall, hof.newest⟩
    · intro x hx
      rcases hmem x hx with hx | rfl
      · exact hright.numbers x hx
      · exact hnumber.le.trans (hright.numbers cut hold)
    · rintro x ⟨hx, hopen, hx'⟩
      rcases hmem x hx with hx | rfl
      · exact hright.since x ⟨hx, hopen, hx'⟩
      · exact hright.since cut ⟨hold, hopen, hnumber.symm.trans hx'⟩
    · rintro segment k hk x ⟨hx, hopen, hx'⟩ hle hcarries
      rcases hmem x hx with hx | rfl
      · exact hright.shut segment k hk x ⟨hx, hopen, hx'⟩ hle hcarries
      · exact hright.shut segment k hk cut ⟨hold, hopen, hnumber.symm.trans hx'⟩ hle
          (install_carries hof.exact_ hinstall hcarries)

/-- Adopting a cut makes its table the durable one, and closes it. -/
theorem State.Right.adopt (hright : s.Right) {at_ : Nat} (h : s.step (.adopt at_) = some s') :
    s'.Right := by
  simp only [State.step] at h
  obtain ⟨cut, hcut, hs⟩ := Option.map_eq_some_iff.mp h
  split at hs
  next =>
    obtain rfl := hs
    exact hright
  next o' hadopt =>
    obtain rfl := hs
    have hold := List.mem_of_getElem? hcut
    have hof := hright.cuts cut hold
    obtain ⟨hopen, hnumber, _, _, _, _, _, _, hcounts, _, _, _, hcut', hclosed⟩ :=
      adopt_cases hright.kept hof.exact_ hof.kept hadopt
    have hsince := hright.since cut ⟨hold, hopen, hnumber⟩
    have hsub : ∀ x, x ∈ s.cuts.eraseIdx at_ → x ∈ s.cuts :=
      fun x hx => List.mem_of_mem_eraseIdx hx
    have hnone : ∀ x, ¬ State.IsOpen { s with
        owner := o', cuts := s.cuts.eraseIdx at_, durable := cut.capture.entries } x := by
      rintro x ⟨_, hopen', _⟩
      simp only [hclosed] at hopen'
      cases hopen'
    refine ⟨hright.kept.adopt hof.exact_ hof.kept hsince hadopt,
      hright.newest.adopt hright.kept hof.exact_ hof.kept hsince hadopt, ?_, ?_,
      fun x hx => absurd hx (hnone x), hcounts, ?_, fun _ _ _ x hx => absurd hx (hnone x)⟩
    · exact fun x hx => hright.cuts x (hsub x hx)
    · intro x hx
      simp only [hcut']
      exact hright.numbers x (hsub x hx)
    · intro segment k hk
      simp only [hcut']
      exact hright.shut_le segment k hk

end Calls

/-- **Every state of a run is right.** -/
theorem reached_right {s : State} (h : Reached s) : s.Right := by
  refine System.Run.invariant (fun _ => begins_right) ?_ h
  intro s call s' _ hright horder hstep
  cases call with
  | observe b => exact hright.observe horder hstep
  | hold d => exact hright.hold hstep
  | discharge d released => exact hright.discharge hstep
  | cover p => exact hright.cover hstep
  | capture end_ => exact hright.capture hstep
  | install at_ reference => exact hright.install hstep
  | adopt at_ => exact hright.adopt hstep

/-! ## What a run keeps -/

/-- What a cut whose footers were all read carries: one boundary for each tracked segment, at its
    newest footer, and the discards whose PREPARE its end has passed. -/
structure Cut.Carried (cut : Cut) : Prop where
  ordered : Ordered Entry.key cut.capture.entries
  boundary : ∀ segment ∈ cut.taken.tracked, ∃ e ∈ cut.capture.entries,
    e.isBoundary = true ∧ e.segment = segment ∧ cut.newest segment = some e.locator
      ∧ ∀ x ∈ cut.capture.entries, x.isBoundary = true → x.segment = segment → x = e
  tracked : ∀ e ∈ cut.capture.entries, e.isBoundary = true → e.segment ∈ cut.taken.tracked
  discards : ∀ e, e.isBoundary = false → (e ∈ cut.capture.entries
    ↔ (e ∈ cut.taken.entries ∧ e.isDiscard = true)
      ∨ ∃ h ∈ cut.taken.discards, h.pin = e ∧ h.prepare < cut.capture.end_)

theorem Cut.Right.carried {cut : Cut} (hright : cut.Right) (hcomplete : cut.capture.complete = true) :
    cut.Carried := by
  obtain ⟨hkept, hexact, hnewest⟩ := hright
  have huniq : ∀ e ∈ cut.capture.entries, e.isBoundary = true → ∀ x ∈ cut.capture.entries,
      x.isBoundary = true → x.segment = e.segment → x = e := by
    intro e he heb x hx hxb hsegment
    exact hexact.entries.unique hx he
      ((slot_eq_boundary.mpr ⟨hsegment, hxb⟩).trans (slot_eq_boundary.mpr ⟨rfl, heb⟩).symm)
  refine ⟨ordered_key hexact.entries, ?_, hexact.boundaries, ?_⟩
  · intro segment htracked
    by_cases hwaits : ∃ b ∈ cut.taken.pending, b.segment = segment
    · obtain ⟨b, hb, rfl⟩ := hwaits
      obtain ⟨e, he, heb, hsegment, hlocator⟩ :=
        hexact.refreshed hcomplete (hexact.refresh ▸ hb)
      refine ⟨e, he, heb, hsegment, ?_, ?_⟩
      · rw [hlocator]
        exact hnewest.pending b hb
      · rw [← hsegment]
        exact huniq e he heb
    · rcases Owner.mem_tracked.mp htracked with ⟨e, he, heb, rfl⟩ | hb
      · have hfree : ∀ b ∈ cut.taken.pending, b.segment ≠ e.segment :=
          fun b hb hsegment => hwaits ⟨b, hb, hsegment⟩
        have hin := hexact.carried e he heb hfree
        exact ⟨e, hin, heb, rfl, hnewest.entries e he heb hfree, huniq e hin heb⟩
      · exact absurd hb hwaits
  · intro e hnot
    constructor
    · intro he
      have hd := (hexact.plain e he).resolve_left (by rw [hnot]; simp)
      rcases (hexact.discards e hd).mp he with hin | hheld
      · exact .inl ⟨hin, hd⟩
      · exact .inr hheld
    · rintro (⟨hin, hd⟩ | ⟨h, hmem, rfl, hlt⟩)
      · exact (hexact.discards e hd).mpr (.inl hin)
      · exact (hexact.discards h.pin (hkept.pins h hmem)).mpr (.inr ⟨h, hmem, rfl, hlt⟩)

theorem names_of {o : Owner} (hkept : o.Kept) {segment : SegmentContext}
    (h : (∃ e ∈ o.entries, e.segment = segment) ∨ o.Lingers segment) : o.names segment = true := by
  unfold Owner.names
  rw [Bool.or_eq_true, Bool.or_eq_true, (weak_segment hkept.entries).lookup_isSome]
  rcases h with he | huncounted | hcovered
  · exact .inl (.inl he)
  · exact .inl (.inr huncounted)
  · exact .inr (List.contains_iff_mem.mpr hcovered)

/-- **The pins over any run.** The three tables are in strict order, the two counters count what they
    are for, a cut whose footers were all read carries what was tracked when it was taken, and a
    segment that was shut is named for as long as the durable checkpoint has an entry of it, or the
    open cut does that was taken before. -/
theorem pins_run {s : State} (h : Reached s) :
    (Ordered Entry.key s.owner.entries ∧ Ordered Boundary.segment s.owner.pending
        ∧ Ordered (fun held => held.pin.key) s.owner.discards)
      ∧ (s.owner.segments = s.owner.tracked.card ∧ s.owner.segments ≤ s.owner.limits.segments)
      ∧ (s.owner.decisions = (s.owner.entries.filter Entry.isDiscard).length
          + s.owner.discards.length
        ∧ s.owner.decisions ≤ s.owner.limits.decisions)
      ∧ (∀ cut ∈ s.cuts, cut.capture.complete = true → cut.Carried)
      ∧ ∀ segment k, s.shut segment = some k →
        ((∃ e ∈ s.durable, e.segment = segment)
          ∨ ∃ cut, s.IsOpen cut ∧ cut.capture.cut ≤ k ∧ cut.capture.Carries segment) →
        s.owner.names segment = true := by
  have hright := reached_right h
  have hkept := hright.kept
  refine ⟨⟨ordered_key hkept.entries, hkept.pending, List.Pairwise.imp slot_lt_key hkept.discards⟩,
    ⟨hkept.segments, hkept.segments_le⟩, ⟨?_, hkept.decisions_le⟩, ?_, ?_⟩
  · rw [hkept.decisions]
    exact hkept.card_decided
  · exact fun cut hcut hcomplete => (hright.cuts cut hcut).carried hcomplete
  · intro segment k hk hcarried
    refine names_of hkept ?_
    rcases hcarried with ⟨e, he, rfl⟩ | ⟨cut, hopen, hle, hcarries⟩
    · exact (hright.durable e he).imp (fun hin => ⟨e, hin, rfl⟩) id
    · exact .inr (hright.shut segment k hk cut hopen (hopen.2.2 ▸ hle) hcarries)

/-! ## A segment that is shut while a cut is open -/

def exampleSegment : SegmentContext := ⟨1, 2, 3, 4, 5⟩

def exampleBoundary : Boundary where
  device := 7
  history := { segment := exampleSegment, alignment := 4096, dataStart := 4096, logicalOrigin := 0,
               physicalOrigin := 0, logical_fits := Nat.zero_le _, physical_fits := Nat.zero_le _ }
  covered := ⟨⟨0, 1⟩, ⟨0, 1⟩, ⟨0, 10⟩⟩
  footer := ⟨10, 20⟩

def exampleReference : FooterReference := ⟨10, 10, footerFamily, 99⟩

/-- The footer's pin is durable, a recovering publication covers it, and the segment is sealed while
    the next cut, which has nothing of it, is open. -/
def exampleCalls : List Call :=
  [.observe exampleBoundary, .capture ⟨0, 0⟩, .install 0 exampleReference, .adopt 0,
    .cover ⟨exampleSegment, .recovering, some exampleReference⟩, .capture ⟨0, 0⟩,
    .cover ⟨exampleSegment, .sealed_, none⟩]

def exampleStart : State := { owner := { limits := ⟨8, 8⟩, capacity := 8 } }

theorem exampleStart_reached : Reached exampleStart :=
  .init (@State.Begins.made ⟨8, 8⟩ 8 _ rfl)

def exampleRun (calls : List Call) : State :=
  (system.execIf State.inOrder exampleStart calls).getD exampleStart

theorem exampleRun_reached {calls : List Call}
    (h : (system.execIf State.inOrder exampleStart calls).isSome = true) :
    Reached (exampleRun calls) := by
  obtain ⟨s, hs⟩ := Option.isSome_iff_exists.mp h
  have hrun : exampleRun calls = s := by
    unfold exampleRun
    rw [hs]
    rfl
  rw [hrun]
  exact System.Run.of_execIf exampleStart_reached hs

theorem sealed_named :
    (exampleRun exampleCalls).shut exampleSegment = some 2
      ∧ (∃ e ∈ (exampleRun exampleCalls).durable, e.segment = exampleSegment)
      ∧ (exampleRun exampleCalls).owner.names exampleSegment = true := by
  have hrun : (system.execIf State.inOrder exampleStart exampleCalls).isSome = true := by
    decide +kernel
  have hshut : (exampleRun exampleCalls).shut exampleSegment = some 2 := by decide +kernel
  have hdurable : ∃ e ∈ (exampleRun exampleCalls).durable, e.segment = exampleSegment := by
    decide +kernel
  exact ⟨hshut, hdurable, (pins_run (exampleRun_reached hrun)).2.2.2.2 _ _ hshut (.inl hdurable)⟩

/-- A segment that was sealed before its footer was observed, and the cut that is then open. -/
def lateCalls : List Call :=
  [.cover ⟨exampleSegment, .sealed_, none⟩, .observe exampleBoundary, .capture ⟨0, 0⟩]

/-- **A segment that was shut may be named no longer although no cut taken since was adopted**: the
    cut that was open then ends it. And the open cut may carry a segment that is not named, when it
    was taken after. -/
theorem names_ends_early :
    (Reached (exampleRun exampleCalls) ∧ (exampleRun exampleCalls).shut exampleSegment = some 2
        ∧ (∃ e ∈ (exampleRun exampleCalls).durable, e.segment = exampleSegment)
        ∧ (exampleRun exampleCalls).cuts.map (fun cut => cut.capture.cut) = [2]
        ∧ ((exampleRun exampleCalls).step (.adopt 0)).map
          (fun s => s.owner.names exampleSegment) = some false)
      ∧ Reached (exampleRun lateCalls) ∧ (exampleRun lateCalls).shut exampleSegment = some 0
        ∧ (∃ cut ∈ (exampleRun lateCalls).cuts, (exampleRun lateCalls).owner.cutOpen = true
          ∧ cut.capture.cut = (exampleRun lateCalls).owner.cut
          ∧ ∃ b ∈ cut.capture.refresh, b.segment = exampleSegment)
        ∧ (exampleRun lateCalls).owner.names exampleSegment = false := by
  refine ⟨⟨?_, ?_⟩, ?_, ?_⟩
  · apply exampleRun_reached
    decide +kernel
  · decide +kernel
  · apply exampleRun_reached
    decide +kernel
  · decide +kernel

end KwaqueStorage.Pins
