import KwaqueStorage.Ids.Allocator

/-!
# No ID is returned twice

Everything that was returned lies at or below the kind's mark in the durable record, and what a range
has left lies above everything that was returned and at or below that mark. A refill that is durable
begins at the mark of the record before it, and the marks of durable records never go back.
-/

namespace KwaqueStorage.Ids

open Lib
open Publication (Failure Outcome pathError)
open KwaqueStorage.Control (Fields Update Owner Running RootReference CheckpointRoot Good Moves)

/-! ## Marks and blocks -/

theorem checkedAdvance_ok {kind : Kind} {high count next : Nat}
    (h : checkedAdvance kind high count = .ok next) : next = high + count ∧ 0 < count := by
  unfold checkedAdvance at h
  split at h
  next => cases h
  next hcount =>
    split at h
    next => cases h
    next => exact ⟨(Except.ok.inj h).symm, Nat.pos_of_ne_zero hcount⟩

theorem block_ok {kind : Kind} {blockSize start count high : Nat}
    (h : block kind blockSize start = .ok (count, high)) : high = start + count ∧ 0 < count := by
  unfold block at h
  split at h
  next next hnext =>
    cases h
    exact checkedAdvance_ok hnext
  next =>
    split at h
    next next hnext =>
      cases h
      exact checkedAdvance_ok hnext
    next => cases h

theorem Range.serve_ok {kind : Kind} {range rest : Range} {id : Nat}
    (h : range.serve kind = .ok (id, rest)) :
    id = range.current + 1 ∧ rest = ⟨range.current + 1, range.remaining - 1⟩ := by
  unfold Range.serve at h
  split at h
  next => cases h
  next next hnext =>
    split at h
    next => cases h
    next =>
      cases h
      rw [(checkedAdvance_ok hnext).1]
      exact ⟨rfl, rfl⟩

theorem Kind.high_setHigh (kind : Kind) (fields : Fields) (high : Nat) :
    kind.high (kind.setHigh fields high) = high := by
  cases kind <;> rfl

/-- What the edit of a refill makes of the record. -/
theorem reserve_ok {kind : Kind} {blockSize : Nat} {before after : Fields}
    (h : (reserve kind blockSize).edit before = .ok after) :
    ∃ count, block kind blockSize (kind.high before) = .ok (count, kind.high after) := by
  unfold reserve at h
  dsimp only at h
  split at h
  next => cases h
  next count high hblock =>
    cases h
    rw [Kind.high_setHigh]
    exact ⟨count, hblock⟩

theorem Kind.high_progress {before after : Fields} (h : Control.controlProgress before after = .ok ())
    (kind : Kind) : kind.high before ≤ kind.high after := by
  obtain ⟨⟨hwal, hobject, hdecision, hdeletion⟩, _⟩ := Control.controlProgress_ok h
  cases kind with
  | wal => exact hwal
  | object => exact hobject
  | decision => exact hdecision
  | deletion => exact hdeletion

/-! ## What a state keeps -/

/-- Everything of the kind that was returned is at or below the mark. -/
def Below (issued : List (Kind × Nat)) (kind : Kind) (mark : Nat) : Prop :=
  ∀ id, (kind, id) ∈ issued → id ≤ mark

/-- What a range has left was not returned, and is reserved. -/
def Reserved (issued : List (Kind × Nat)) (kind : Kind) (range : Range) (mark : Nat) : Prop :=
  range.remaining ≠ 0 → Below issued kind range.current ∧ range.current + range.remaining ≤ mark

/-- **A refill in flight**: its call is in line with its own edit; where the edit was run, it was on the
    record that is still current; and where its record is durable, the block lies above everything
    that was returned. -/
structure Refilling (s : State) (blockSize : Nat) (o : Owner) (f : Refill) : Prop where
  called : f.call < s.control.calls
  lined : ∀ u, (f.call, u) ∈ o.lined → u = reserve f.kind blockSize
  edited : ∀ r, o.turn = .running r → r.call = f.call → r.phase.edited = true →
    f = f.edits blockSize o.current.fields
  applied : ∀ a ∈ s.control.applied, a.call = f.call →
    Below s.issued f.kind f.start ∧ 0 < f.count
      ∧ f.start + f.count ≤ f.kind.high s.control.durable.fields

/-- **What a state keeps.** -/
structure Sound (rootOf : RootReference → CheckpointRoot) (s : State) : Prop where
  good : Good rootOf s.control
  below : ∀ kind, Below s.issued kind (kind.high s.control.durable.fields)
  order : ∀ kind, ((s.issued.filter fun i => i.1 = kind).map Prod.snd).Pairwise (· > ·)
  owner : ∀ a, s.allocator = some a → s.control.owner.isSome = true
  ranges : ∀ a, s.allocator = some a → ∀ kind,
    Reserved s.issued kind (a.ranges kind) (kind.high s.control.durable.fields)
  idle : ∀ a f, s.allocator = some a → a.refill = some f → (a.ranges f.kind).remaining = 0
  refill : ∀ a f o, s.allocator = some a → a.refill = some f → s.control.owner = some o →
    Refilling s a.blockSize o f

section Steps

variable {rootOf : RootReference → CheckpointRoot} {s : State} {o : Owner} {a : Allocator}

theorem Below.mono {issued : List (Kind × Nat)} {kind : Kind} {mark mark' : Nat}
    (h : Below issued kind mark) (hle : mark ≤ mark') : Below issued kind mark' :=
  fun id hid => le_trans (h id hid) hle

/-- **The marks of the durable record never go back.** -/
theorem durable_progress {c c' : Control.State} (h : Good rootOf c) {event : Control.Event}
    (hstep : c.step rootOf event = some c') (kind : Kind) :
    kind.high c.durable.fields ≤ kind.high c'.durable.fields := by
  have hgood' := h.step hstep
  cases howner : c.owner with
  | some o =>
    have howned := h.owned o howner
    rcases Control.step_moves howner hstep with ⟨_, _, happlied, hfirst⟩ | ⟨o', howner', hmoves⟩
    · unfold Control.State.durable
      rw [happlied, hfirst]
    · rw [← (hgood'.owned o' howner').current, ← howned.current]
      rcases hmoves.applied with ⟨_, hcurrent⟩ | ⟨r, candidate, noted, hturn, hat, _, hcurrent⟩
      · rw [hcurrent]
      · have hphase := (howned.running r hturn).2.phase
        rw [hat] at hphase
        rw [hcurrent, howned.current]
        exact Kind.high_progress hphase.1.progress kind
  | none =>
    unfold Control.State.step at hstep
    rw [howner] at hstep
    cases event with
    | open_ found requireHead =>
      cases found with
      | false =>
        have hsame : c'.durable = c.durable := by
          unfold Control.State.opened at hstep
          dsimp only at hstep
          obtain ⟨_, ⟨⟩⟩ := Option.ite_none_left_eq_some.mp hstep
          rfl
        rw [hsame]
      | true =>
        obtain ⟨record, hunsure, hopened⟩ := Option.bind_eq_some_iff.mp hstep
        have hsame : c'.durable = record.record := by
          unfold Control.State.opened at hopened
          dsimp only at hopened
          obtain ⟨_, ⟨⟩⟩ := Option.ite_none_left_eq_some.mp hopened
          rfl
        have hfollows := (h.unsure record hunsure).1
        rw [hsame]
        cases kind with
        | wal => exact hfollows.walHigh
        | object => exact hfollows.objectHigh
        | decision => exact hfollows.decisionHigh
        | deletion => exact hfollows.deletionHigh
    | _ => cases hstep

/-! ## The control goes on -/

theorem Refill.edits_edits (f : Refill) (blockSize : Nat) (fields : Fields) :
    (f.edits blockSize fields).edits blockSize fields = f.edits blockSize fields := rfl

/-- What an event of the control leaves of the allocator. -/
theorem Allocator.sees_frame (c : Control.State) (event : Control.Event) :
    (a.sees c event).blockSize = a.blockSize ∧ (a.sees c event).ranges = a.ranges := by
  unfold Allocator.sees
  split
  next =>
    split
    next => exact ⟨rfl, rfl⟩
    next => exact ⟨rfl, rfl⟩
  next => exact ⟨rfl, rfl⟩

/-- A refill stays as it is, or its edit is run while it has the turn. -/
theorem Allocator.sees_refill {c : Control.State} (howner : c.owner = some o) {event : Control.Event}
    {f' : Refill} (h : (a.sees c event).refill = some f') :
    ∃ f, a.refill = some f ∧ f'.call = f.call ∧ f'.kind = f.kind
      ∧ ((f' = f ∧ ∀ r, o.turn = .running r → event = .validated (.ok ()) → r.call ≠ f.call)
        ∨ ∃ r, o.turn = .running r ∧ r.call = f.call ∧ f' = f.edits a.blockSize o.current.fields) := by
  unfold Allocator.sees at h
  rw [howner] at h
  split at h
  next _ heq =>
    cases heq
    split at h
    next r hturn =>
      obtain ⟨f, hf, hf'⟩ := Option.map_eq_some_iff.mp h
      split at hf'
      next hcall =>
        obtain rfl := hf'
        exact ⟨f, hf, rfl, rfl, .inr ⟨r, hturn, hcall.symm, rfl⟩⟩
      next hcall =>
        obtain rfl := hf'
        refine ⟨f, hf, rfl, rfl, .inl ⟨rfl, ?_⟩⟩
        intro r' hr' _
        rw [hturn] at hr'
        obtain rfl := Control.Turn.running.inj hr'
        exact fun hbad => hcall hbad.symm
    next hturn =>
      refine ⟨f', h, rfl, rfl, .inl ⟨rfl, ?_⟩⟩
      intro r hr
      exact absurd hr (hturn r)
  next hnot =>
    refine ⟨f', h, rfl, rfl, .inl ⟨rfl, ?_⟩⟩
    rintro r _ rfl
    exact absurd rfl (hnot () o rfl)

/-- **A refill goes on with the control.** -/
theorem Refilling.moves {f f' : Refill} {blockSize : Nat} (hgood : Good rootOf s.control)
    (howner : s.control.owner = some o) (hbelow : Below s.issued f.kind (f.kind.high s.control.durable.fields))
    (h : Refilling s blockSize o f) {event : Control.Event} {c' : Control.State}
    (hstep : s.control.step rootOf event = some c') {o' : Owner} (howner' : c'.owner = some o')
    (hmoves : Moves s.control o event c' o') (hcall : f'.call = f.call) (hkind : f'.kind = f.kind)
    (hsees : (f' = f ∧ ∀ r, o.turn = .running r → event = .validated (.ok ()) → r.call ≠ f.call)
      ∨ ∃ r, o.turn = .running r ∧ r.call = f.call ∧ f' = f.edits blockSize o.current.fields)
    {allocator : Option Allocator} :
    Refilling { s with control := c', allocator } blockSize o' f' := by
  have howned := hgood.owned o howner
  have hmark := durable_progress hgood hstep f.kind
  refine ⟨?_, ?_, ?_, ?_⟩
  · rw [hcall]
    exact lt_of_lt_of_le h.called hmoves.calls
  · intro u hu
    rw [hcall] at hu
    rw [hkind]
    rcases hmoves.lined _ hu with hold | ⟨u', reserved, _, hnew, _⟩
    · exact h.lined u hold
    · exact absurd (Prod.mk.inj hnew).1 (Nat.ne_of_lt h.called)
  · intro r' hr' hcall' hedited
    obtain ⟨hcurrent, r, hturn, hsame, _, hran⟩ := hmoves.edited r' hr' hedited
    have hr : r.call = f.call := hsame.trans (hcall'.trans hcall)
    have hf' : f' = f.edits blockSize o.current.fields := by
      rcases hsees with ⟨rfl, hnot⟩ | ⟨_, _, _, hf'⟩
      · rcases hran with hold | hevent
        · exact h.edited r hturn hr hold
        · exact absurd hr (hnot r hturn hevent)
      · exact hf'
    rw [hcurrent, hf']
    exact (f.edits_edits _ _).symm
  · intro x hx hxcall
    rw [hcall] at hxcall
    -- a call that has the turn has no durable record yet
    have hold : x ∈ s.control.applied → f' = f := by
      intro hin
      rcases hsees with ⟨hsame, _⟩ | ⟨r, hturn, hr, _⟩
      · exact hsame
      · have hline : r.call ∈ o.line := by
          rw [Control.line_running hturn]
          exact List.mem_cons_self
        have hlater := (howned.fresh r.call hline).applied x hin
        rw [hxcall, hr] at hlater
        exact absurd hlater (Nat.lt_irrefl _)
    have hkeep : x ∈ s.control.applied → Below s.issued f'.kind f'.start ∧ 0 < f'.count
        ∧ f'.start + f'.count ≤ f'.kind.high c'.durable.fields := by
      intro hin
      obtain ⟨habove, hcount, hle⟩ := h.applied x hin hxcall
      rw [hold hin]
      exact ⟨habove, hcount, le_trans hle hmark⟩
    rcases hmoves.applied with ⟨hsame, _⟩ | ⟨r, candidate, noted, hturn, hat, hnew, hcurrent⟩
    · exact hkeep (hsame ▸ hx)
    · have hx' : x ∈ c'.applied := hx
      rw [hnew, List.mem_cons] at hx'
      rcases hx' with rfl | hin
      · -- the record of the refill itself becomes durable
        have hr : r.call = f.call := hxcall
        have hupdate : r.update = reserve f.kind blockSize := by
          refine h.lined r.update ?_
          rw [← hr, Control.lined_running hturn]
          exact List.mem_cons_self
        have hphase := (howned.running r hturn).2.phase
        rw [hat] at hphase
        have hedit := hphase.1.edited
        rw [hupdate] at hedit
        obtain ⟨count, hblock⟩ := reserve_ok hedit
        obtain ⟨hhigh, hcount⟩ := block_ok hblock
        have hf' : f' = f.edits blockSize o.current.fields := by
          rcases hsees with ⟨rfl, _⟩ | ⟨_, _, _, hf'⟩
          · exact h.edited r hturn hr (by rw [hat]; rfl)
          · exact hf'
        have hdurable : c'.durable.fields = candidate := by
          rw [← ((hgood.step hstep).owned o' howner').current, hcurrent]
        have hstart : f'.start = f.kind.high s.control.durable.fields := by
          rw [hf', howned.current]
          rfl
        have hcounted : f'.count = count := by
          rw [hf', howned.current]
          unfold Refill.edits
          dsimp only
          rw [hblock]
        rw [hkind, hstart, hcounted]
        refine ⟨hbelow, hcount, ?_⟩
        dsimp only
        rw [hdurable, hhigh]
      · exact hkeep hin

theorem Sound.control (h : Sound rootOf s) {event : Control.Event} {c' : Control.State}
    (hstep : s.control.step rootOf event = some c') :
    Sound rootOf { s with
      control := c'
      allocator := if c'.owner.isSome then s.allocator.map fun a => a.sees s.control event else none } := by
  have hmark := durable_progress h.good hstep
  have hsome : ∀ a', (if c'.owner.isSome then s.allocator.map fun a => a.sees s.control event else none)
      = some a' → c'.owner.isSome = true ∧ ∃ a, s.allocator = some a ∧ a' = a.sees s.control event := by
    intro a' ha'
    split at ha'
    next hopen =>
      obtain ⟨a, ha, rfl⟩ := Option.map_eq_some_iff.mp ha'
      exact ⟨hopen, a, ha, rfl⟩
    next => cases ha'
  refine ⟨h.good.step hstep, fun kind => (h.below kind).mono (hmark kind), h.order, ?_, ?_, ?_, ?_⟩
  · intro a' ha'
    exact (hsome a' ha').1
  · intro a' ha' kind hleft
    obtain ⟨_, a, ha, rfl⟩ := hsome a' ha'
    rw [(a.sees_frame _ _).2] at hleft ⊢
    obtain ⟨habove, hle⟩ := h.ranges a ha kind hleft
    exact ⟨habove, le_trans hle (hmark kind)⟩
  · intro a' f' ha' hf'
    obtain ⟨_, a, ha, rfl⟩ := hsome a' ha'
    obtain ⟨o, howner⟩ := Option.isSome_iff_exists.mp (h.owner a ha)
    obtain ⟨f, hf, _, hkind, _⟩ := Allocator.sees_refill howner hf'
    rw [(a.sees_frame _ _).2, hkind]
    exact h.idle a f ha hf
  · intro a' f' o' ha' hf' howner'
    obtain ⟨_, a, ha, rfl⟩ := hsome a' ha'
    obtain ⟨o, howner⟩ := Option.isSome_iff_exists.mp (h.owner a ha)
    obtain ⟨f, hf, hcall, hkind, hsees⟩ := Allocator.sees_refill howner hf'
    rcases Control.step_moves howner hstep with ⟨_, hnone, _⟩ | ⟨o'', howner'', hmoves⟩
    · cases hnone.symm.trans howner'
    · obtain rfl := Option.some.inj (howner'.symm.trans howner'')
      rw [(a.sees_frame _ _).1]
      exact (h.refill a f o ha hf howner).moves h.good howner (h.below f.kind) hstep howner' hmoves hcall
        hkind hsees

/-! ## An ID is returned -/

theorem below_cons {issued : List (Kind × Nat)} {kind other : Kind} {id mark : Nat} (hne : other ≠ kind) :
    Below ((kind, id) :: issued) other mark ↔ Below issued other mark := by
  refine ⟨fun h i hi => h i (List.mem_cons_of_mem _ hi), ?_⟩
  intro h i hi
  rcases List.mem_cons.mp hi with heq | hi
  · exact absurd (Prod.mk.inj heq).1 hne
  · exact h i hi

/-- **A range serves**: its next ID is above everything that was returned. -/
theorem Sound.serves (h : Sound rootOf { s with allocator := some a }) {kind : Kind} {range : Range}
    (habove : Below s.issued kind range.current) (hleft : 0 < range.remaining)
    (hle : range.current + range.remaining ≤ kind.high s.control.durable.fields)
    (hother : ∀ f, a.refill = some f → f.kind ≠ kind) : Sound rootOf (s.serves a kind range) := by
  unfold State.serves
  split
  next =>
    refine ⟨h.good, h.below, h.order, fun _ _ => h.owner a rfl, ?_, ?_, ?_⟩
    · intro a' ha' k
      cases ha'
      dsimp only
      by_cases hk : k = kind
      · subst hk
        rw [Function.update_self]
        exact fun _ => ⟨habove, hle⟩
      · rw [Function.update_of_ne hk]
        exact h.ranges a rfl k
    · intro a' f ha' hf
      cases ha'
      dsimp only
      rw [Function.update_of_ne (hother f hf)]
      exact h.idle a f rfl hf
    · intro a' f o' ha' hf howner
      cases ha'
      have hrefill := h.refill a f o' rfl hf howner
      exact ⟨hrefill.called, hrefill.lined, hrefill.edited, hrefill.applied⟩
  next id rest hserved =>
    obtain ⟨rfl, rfl⟩ := Range.serve_ok hserved
    refine ⟨h.good, ?_, ?_, fun _ _ => h.owner a rfl, ?_, ?_, ?_⟩
    · intro k
      by_cases hk : k = kind
      · subst hk
        intro i hi
        rcases List.mem_cons.mp hi with heq | hi
        · rw [(Prod.mk.inj heq).2]
          exact le_trans (Nat.add_le_add_left hleft _) hle
        · exact h.below k i hi
      · exact (below_cons hk).mpr (h.below k)
    · intro k
      by_cases hk : k = kind
      · subst hk
        rw [List.filter_cons_of_pos (by exact decide_eq_true rfl), List.map_cons, List.pairwise_cons]
        refine ⟨?_, h.order k⟩
        intro i hi
        obtain ⟨⟨k', i'⟩, hpair, rfl⟩ := List.mem_map.mp hi
        obtain ⟨hin, hkind⟩ := List.mem_filter.mp hpair
        obtain rfl : k' = k := of_decide_eq_true hkind
        exact Nat.lt_succ_of_le (habove i' hin)
      · dsimp only
        rw [List.filter_cons_of_neg (fun hbad => hk (of_decide_eq_true hbad).symm)]
        exact h.order k
    · intro a' ha' k
      cases ha'
      dsimp only
      by_cases hk : k = kind
      · subst hk
        rw [Function.update_self]
        intro hmore
        refine ⟨?_, ?_⟩
        · intro i hi
          rcases List.mem_cons.mp hi with heq | hi
          · exact le_of_eq (Prod.mk.inj heq).2
          · exact Nat.le_succ_of_le (habove i hi)
        · dsimp only at hmore ⊢
          omega
      · rw [Function.update_of_ne hk]
        intro hmore
        obtain ⟨habove', hle'⟩ := h.ranges a rfl k hmore
        exact ⟨(below_cons hk).mpr habove', hle'⟩
    · intro a' f ha' hf
      cases ha'
      dsimp only
      rw [Function.update_of_ne (hother f hf)]
      exact h.idle a f rfl hf
    · intro a' f o' ha' hf howner
      cases ha'
      have hrefill := h.refill a f o' rfl hf howner
      refine ⟨hrefill.called, hrefill.lined, hrefill.edited, ?_⟩
      intro x hx hcall
      obtain ⟨habove', hrest⟩ := hrefill.applied x hx hcall
      exact ⟨(below_cons (hother f hf)).mpr habove', hrest⟩

/-! ## The calls of the allocator -/

/-- A refill begins: its call is the next of the control. -/
theorem Sound.refills (h : Sound rootOf s) (ha : s.allocator = some a) (howner : s.control.owner = some o)
    {kind : Kind} (hempty : (a.ranges kind).remaining = 0)
    (reserved : Except Failure Unit) :
    Sound rootOf { s with
      control := s.control.update o (reserve kind a.blockSize) reserved
      allocator := some { a with
        refill := some { kind, call := s.control.calls, count := a.blockSize } } } := by
  have howned := h.good.owned o howner
  have hstep : s.control.step rootOf (.update (reserve kind a.blockSize) reserved)
      = some (s.control.update o (reserve kind a.blockSize) reserved) := by
    unfold Control.State.step
    rw [howner]
  obtain ⟨o', howner', hmoves⟩ := @Control.moves_update s.control o (reserve kind a.blockSize) reserved
  have hmark := durable_progress h.good hstep
  -- no call in line has the number of the new one
  have hnew : ∀ u, (s.control.calls, u) ∉ o.lined := by
    intro u hin
    exact absurd (howned.fresh _ (Control.mem_line hin)).called (Nat.lt_irrefl _)
  have hrunning : ∀ r, o.turn = .running r → r.call ≠ s.control.calls := by
    intro r hturn hbad
    refine hnew r.update ?_
    rw [Control.lined_running hturn, ← hbad]
    exact List.mem_cons_self
  refine ⟨h.good.step hstep, fun k => (h.below k).mono (hmark k), h.order, ?_, ?_, ?_, ?_⟩
  · intro _ _
    dsimp only
    rw [howner']
    rfl
  · intro a' ha' k hleft
    cases ha'
    obtain ⟨habove, hle⟩ := h.ranges a ha k hleft
    exact ⟨habove, le_trans hle (hmark k)⟩
  · intro a' f ha' hf
    cases ha'
    cases hf
    exact hempty
  · intro a' f o'' ha' hf howner''
    cases ha'
    cases hf
    obtain rfl := Option.some.inj (howner'.symm.trans howner'')
    refine ⟨?_, ?_, ?_, ?_⟩
    · dsimp only
      rw [Control.update_calls]
      exact Nat.lt_succ_self _
    · intro u hu
      rcases hmoves.lined _ hu with hold | ⟨u', reserved', hevent, hpair, _⟩
      · exact absurd hold (hnew u)
      · obtain ⟨rfl, _⟩ := Control.Event.update.inj hevent
        exact (Prod.mk.inj hpair).2
    · intro r' hr' hcall hedited
      obtain ⟨_, r, hturn, hsame, _⟩ := hmoves.edited r' hr' hedited
      exact absurd (hsame.trans hcall) (hrunning r hturn)
    · intro x hx hcall
      rcases hmoves.applied with ⟨hsame, _⟩ | ⟨r, candidate, noted, hturn, _, hadded, _⟩
      · exact absurd hcall (Nat.ne_of_lt (h.good.numbered x (hsame ▸ hx)))
      · have hx' : x ∈ (s.control.update o (reserve kind a.blockSize) reserved).applied := hx
        rw [hadded, List.mem_cons] at hx'
        rcases hx' with rfl | hin
        · exact absurd hcall (hrunning r hturn)
        · exact absurd hcall (Nat.ne_of_lt (h.good.numbered x hin))

theorem Sound.allocate (h : Sound rootOf s) (ha : s.allocator = some a) (howner : s.control.owner = some o)
    (kind : Kind) (polled : Bool) (reserved : Except Failure Unit) :
    Sound rootOf (s.allocate a o kind polled reserved) := by
  have hsame : { s with allocator := some a } = s := by
    rw [← ha]
  unfold State.allocate
  split
  next => exact h
  next =>
    split
    next hleft =>
      obtain ⟨habove, hle⟩ := h.ranges a ha kind hleft
      refine Sound.serves (hsame ▸ h) habove (Nat.pos_of_ne_zero hleft) hle ?_
      rintro f hf rfl
      exact hleft (h.idle a f ha hf)
    next hempty =>
      split
      next => exact h
      next => exact h.refills ha howner (not_not.mp hempty) reserved

/-- The allocator has changed in nothing that counts. -/
theorem Sound.allocator (h : Sound rootOf s) (ha : s.allocator = some a) {a' : Allocator}
    (hranges : a'.ranges = a.ranges) (hblock : a'.blockSize = a.blockSize)
    (hrefill : ∀ f, a'.refill = some f → a.refill = some f) :
    Sound rootOf { s with allocator := some a' } := by
  refine ⟨h.good, h.below, h.order, fun _ _ => h.owner a ha, ?_, ?_, ?_⟩
  · intro b hb
    cases hb
    rw [hranges]
    exact h.ranges a ha
  · intro b f hb hf
    cases hb
    rw [hranges]
    exact h.idle a f ha (hrefill f hf)
  · intro b f o' hb hf howner
    cases hb
    have hold := h.refill a f o' ha (hrefill f hf) howner
    rw [hblock]
    exact ⟨hold.called, hold.lined, hold.edited, hold.applied⟩

theorem Sound.refilled (h : Sound rootOf s) (ha : s.allocator = some a) {f : Refill}
    (hf : a.refill = some f) {outcome : Outcome} (houtcome : (f.call, outcome) ∈ s.control.replies) :
    Sound rootOf (s.refilled a f outcome) := by
  have hover : Sound rootOf { s with allocator := some { a with refill := none } } :=
    h.allocator ha rfl rfl fun g hbad => (by cases hbad)
  unfold State.refilled
  dsimp only
  split
  next => exact hover
  next hdurable =>
    rw [not_or, not_not] at hdurable
    obtain ⟨o, howner⟩ := Option.isSome_iff_exists.mp (h.owner a ha)
    obtain ⟨x, hx, hcall⟩ := (h.good.answered f.call outcome houtcome).2.1 hdurable.2
    obtain ⟨habove, hcount, hle⟩ := (h.refill a f o ha hf howner).applied x hx hcall
    exact Sound.serves hover habove hcount hle fun g hbad => (by cases hbad)

/-! ## Every run -/

theorem Sound.step (h : Sound rootOf s) {event : Event} {s' : State}
    (hstep : s.step rootOf event = some s') : Sound rootOf s' := by
  cases event with
  | control event =>
    obtain ⟨c', hc', rfl⟩ := Option.map_eq_some_iff.mp hstep
    exact h.control hc'
  | make blockSize =>
    simp only [State.step] at hstep
    split at hstep
    next o howner _ =>
      obtain ⟨_, ⟨⟩⟩ := Option.ite_none_left_eq_some.mp hstep
      refine ⟨h.good, h.below, h.order, ?_, ?_, ?_, ?_⟩
      · intro _ _
        dsimp only
        rw [howner]
        rfl
      · intro a ha kind hleft
        cases ha
        exact absurd rfl hleft
      · intro a f ha hf
        cases ha
        cases hf
      · intro a f o' ha hf
        cases ha
        cases hf
    next => cases hstep
  | allocate kind polled reserved =>
    simp only [State.step] at hstep
    split at hstep
    next o a howner ha =>
      cases hstep
      exact h.allocate ha howner kind polled reserved
    next => cases hstep
  | refilled =>
    simp only [State.step] at hstep
    split at hstep
    next => cases hstep
    next a ha =>
      split at hstep
      next => cases hstep
      next f hf =>
        obtain ⟨outcome, hfound, rfl⟩ := Option.map_eq_some_iff.mp hstep
        obtain ⟨newer, older, hreplies, _⟩ := List.lookup_eq_some_iff.mp hfound
        refine h.refilled ha hf ?_
        rw [hreplies]
        exact List.mem_append_right _ List.mem_cons_self
  | close =>
    simp only [State.step] at hstep
    split at hstep
    next o a _ ha =>
      split at hstep
      next =>
        cases hstep
        exact h
      next =>
        cases hstep
        exact h.allocator ha rfl rfl fun f hf => hf
    next => cases hstep
  | closed =>
    simp only [State.step] at hstep
    split at hstep
    next => cases hstep
    next a ha =>
      obtain ⟨_, ⟨⟩⟩ := Option.ite_none_right_eq_some.mp hstep
      exact ⟨h.good, h.below, h.order, fun b hb => (by cases hb), fun b hb => (by cases hb),
        fun b f hb => (by cases hb), fun b f o' hb => (by cases hb)⟩

theorem reachable_sound (h : (system rootOf).Reachable s) : Sound rootOf s := by
  refine System.Run.invariant ?_ (fun _ _ _ _ hsound _ hstep => hsound.step hstep) h
  rintro s ⟨control, hinit, rfl⟩
  refine ⟨Control.reachable_good (.init hinit), fun kind id hid => (by cases hid),
    fun kind => List.Pairwise.nil, fun a ha => (by cases ha), fun a ha => (by cases ha),
    fun a f ha => (by cases ha), fun a f o ha => (by cases ha)⟩

/-- What an event returns: nothing, or one ID. -/
theorem step_issued {event : Event} {s' : State} (hstep : s.step rootOf event = some s') :
    s'.issued = s.issued ∨ ∃ kind id, s'.issued = (kind, id) :: s.issued := by
  have hserves : ∀ (a : Allocator) (kind : Kind) (range : Range), (s.serves a kind range).issued = s.issued
      ∨ ∃ k id, (s.serves a kind range).issued = (k, id) :: s.issued := by
    intro a kind range
    unfold State.serves
    split
    next => exact .inl rfl
    next id _ _ => exact .inr ⟨kind, id, rfl⟩
  cases event with
  | control event =>
    obtain ⟨c', _, rfl⟩ := Option.map_eq_some_iff.mp hstep
    exact .inl rfl
  | make blockSize =>
    simp only [State.step] at hstep
    split at hstep
    next =>
      obtain ⟨_, ⟨⟩⟩ := Option.ite_none_left_eq_some.mp hstep
      exact .inl rfl
    next => cases hstep
  | allocate kind polled reserved =>
    simp only [State.step] at hstep
    split at hstep
    next o a _ _ =>
      cases hstep
      unfold State.allocate
      split
      next => exact .inl rfl
      next =>
        split
        next => exact hserves a kind _
        next =>
          split
          next => exact .inl rfl
          next => exact .inl rfl
    next => cases hstep
  | refilled =>
    simp only [State.step] at hstep
    split at hstep
    next => cases hstep
    next a _ =>
      split at hstep
      next => cases hstep
      next f _ =>
        obtain ⟨outcome, _, rfl⟩ := Option.map_eq_some_iff.mp hstep
        unfold State.refilled
        dsimp only
        split
        next => exact .inl rfl
        next => exact hserves _ f.kind _
  | close =>
    simp only [State.step] at hstep
    split at hstep
    next =>
      split at hstep
      next =>
        cases hstep
        exact .inl rfl
      next =>
        cases hstep
        exact .inl rfl
    next => cases hstep
  | closed =>
    simp only [State.step] at hstep
    split at hstep
    next => cases hstep
    next =>
      obtain ⟨_, ⟨⟩⟩ := Option.ite_none_right_eq_some.mp hstep
      exact .inl rfl

/-- An ID that has just been returned is above all of its kind before it. -/
theorem Sound.newest (h : Sound rootOf s) {kind : Kind} {id : Nat} {issued : List (Kind × Nat)}
    (hissued : s.issued = (kind, id) :: issued) : ∀ i, (kind, i) ∈ issued → i < id := by
  intro i hi
  have horder := h.order kind
  rw [hissued, List.filter_cons_of_pos (by exact decide_eq_true rfl), List.map_cons, List.pairwise_cons]
    at horder
  exact horder.1 i (List.mem_map.mpr ⟨(kind, i), List.mem_filter.mpr ⟨hi, decide_eq_true rfl⟩, rfl⟩)

/-- **No ID is returned twice.** Over calls of all kinds, refills that are durable, that fail or whose
    outcome is unknown, allocators that are closed and made again, and any number of stops followed by an
    opening of what is durable: the IDs of a kind are returned in strictly increasing order. And each is
    reserved in the durable record, so that no later block reaches it. -/
theorem ids_unique (h : (system rootOf).Reachable s) (kind : Kind) :
    ((s.issued.filter fun i => i.1 = kind).map Prod.snd).Pairwise (· > ·)
      ∧ ∀ id, (kind, id) ∈ s.issued → id ≤ kind.high s.control.durable.fields :=
  ⟨(reachable_sound h).order kind, (reachable_sound h).below kind⟩

end Steps

/-! ## Two blocks, and a stop between them -/

/-- A refill of the control, as it is published. -/
def exampleRefill (kind : Kind) (outcome : Outcome) (fenced : Bool) : List Event :=
  [.allocate kind true (.ok ()), .control (.validated (.ok ())), .control (.depended (.ok ())),
    .control (.encoded (.ok ())), .control (.revalidated (.ok ())), .control (.published outcome fenced),
    .refilled]

/-- Two IDs of a block of four, a refill of another kind whose outcome is unknown, a stop that finds it,
    and the first ID of each kind after it. -/
def exampleEvents : List Event :=
  [.control (.open_ false false), .make 4] ++ exampleRefill .object { disposition := .durable } false
    ++ [.allocate .object true (.ok ())]
    ++ exampleRefill .decision { disposition := .uncertain, failure := some .thrown } true
    ++ [.control .stop, .control (.open_ true false), .make 4]
    ++ exampleRefill .object { disposition := .durable } false
    ++ exampleRefill .decision { disposition := .durable } false

def exampleBegin : State := { control := { first := ⟨1, Control.exampleFields⟩ } }

def exampleState : State :=
  ((system Control.exampleRoots).exec exampleBegin exampleEvents).getD exampleBegin

theorem exampleState_reachable : (system Control.exampleRoots).Reachable exampleState := by
  have hstart : (system Control.exampleRoots).Reachable exampleBegin := .init ⟨_, ⟨_, rfl⟩, rfl⟩
  have hexec : (system Control.exampleRoots).exec exampleBegin exampleEvents = some exampleState := rfl
  exact System.Run.of_exec hstart hexec

/-- What was left of the first block, and the block nobody knew of, are burned. -/
theorem example_ids : exampleState.issued = [(.decision, 5), (.object, 5), (.object, 2), (.object, 1)]
    ∧ ((exampleState.issued.filter fun i => i.1 = .object).map Prod.snd).Pairwise (· > ·) := by
  refine ⟨by decide +kernel, ?_⟩
  exact (ids_unique exampleState_reachable .object).1

end KwaqueStorage.Ids
