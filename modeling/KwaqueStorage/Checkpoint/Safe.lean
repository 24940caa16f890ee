import KwaqueStorage.Checkpoint.Step

/-!
# What a stop cannot lose

`Kept` says of the device that every control record that may be durable names a bundle that is
there, and that no WAL file is removed that one of them needs. `Owned` says what the two owners in
memory know of it: that the record they hold is one of these, where its checkpoint ends, that a
sequence once used is never given again, and that what they owe to remove is named by none of
these records. The one place where the records disagree on the checkpoint is the checkpoint's own
update after its rename: from there a run removes nothing until the update is durable, and a run
that cannot tell ends its owner.
-/

namespace KwaqueStorage.Checkpoint

/-- Where the checkpoint a record names ends. -/
def Device.cutoff (d : Device) (c : Control) : Option Cursor :=
  match c.checkpoint with
  | none => none
  | some r => (d.bundles r.sequence).map fun b => b.root.end_

/-- No record that may be durable names this bundle. -/
def Device.Unnamed (d : Device) (sequence : Nat) : Prop :=
  ∀ c ∈ d.records, ∀ r, c.checkpoint = some r → r.sequence ≠ sequence

/-- **What the device keeps**, whichever record is in place after a stop. -/
structure Kept (d : Device) : Prop where
  backed : ∀ c ∈ d.records, ∀ r, c.checkpoint = some r →
    ∃ root, d.bundles r.sequence = some ⟨r, root, true⟩
  needed : ∀ c ∈ d.records, ∀ i ∈ d.removed,
    ∃ cutoff, d.cutoff c = some cutoff ∧ i < cutoff.incarnation
  used : ∀ c ∈ d.records, ∀ q b, d.bundles q = some b → q ≤ c.objectHigh

/-- A sequence that is never given again. -/
structure Spent (current : Control) (ids : Range) (sequence : Nat) : Prop where
  high : sequence ≤ current.objectHigh
  served : ids.remaining ≠ 0 → sequence ≤ ids.current

/-- A bundle that may be removed: no record names it, and no later one will. -/
def Disposable (d : Device) (current : Control) (ids : Range) (sequence : Nat) : Prop :=
  d.Unnamed sequence ∧ Spent current ids sequence

/-- **What a record in memory is**: one of those that may be durable, with the end of its
    checkpoint and a range of its own sequences. -/
structure Known (d : Device) (current : Control) (checkpointEnd : Option Cursor) (ids : Range) :
    Prop where
  kept : Kept d
  possible : current ∈ d.records
  high : ∀ c ∈ d.records, current.objectHigh ≤ c.objectHigh
  ended : checkpointEnd = d.cutoff current
  range : ids.remaining ≠ 0 → ids.current + ids.remaining ≤ current.objectHigh
  served : ∀ q b, d.bundles q = some b → Spent current ids q

/-! ## The owners -/

/-- Whether the checkpoint's own update asked for its rename. -/
def Head.moving (h : Head) : Bool :=
  h.turn.any fun u => decide (u.owner = .checkpoint) && decide (u.stage = .renamed)

/-- What a run knows where it waits. -/
def Phase.Sound (d : Device) (head : Head) (ids : Range) (debts : List Nat) : Phase → Prop
  | .idle => True
  | .pinning cut => cut.begin_ ≤ cut.end_
  | .allocating cut => cut.begin_ ≤ cut.end_
  | .encoding cut sequence => cut.begin_ ≤ cut.end_
      ∧ Disposable d head.current ids sequence ∧ sequence ∉ debts
  | .bundling cut reference => cut.begin_ ≤ cut.end_
      ∧ Disposable d head.current ids reference.sequence ∧ reference.sequence ∉ debts
  | .updating cut reference => cut.begin_ ≤ cut.end_
      ∧ d.bundles reference.sequence = some ⟨reference, ⟨cut.begin_, cut.end_⟩, true⟩
      ∧ (head.moving = false → d.Unnamed reference.sequence) ∧ reference.sequence ∉ debts
  | .retiring sequence => Disposable d head.current ids sequence
  | .settling kept todo => ∀ q ∈ kept ++ todo, Disposable d head.current ids q
  | .reclaiming cutoff => head.checkpointEnd = some cutoff

/-- What the checkpoint owner knows. -/
structure Checkpointer.Sound (d : Device) (head : Head) (ids : Range) (k : Checkpointer) :
    Prop where
  debts : ∀ q ∈ k.debts, Disposable d head.current ids q
  phase : k.phase.Sound d head ids k.debts

/-- The checkpoint's own update has the turn: the run waits for it, and no hold is held. -/
def Update.Own (head : Head) (checkpointer : Option Checkpointer) (u : Update) : Prop :=
  ∃ k cut reference, checkpointer = some k ∧ k.phase = .updating cut reference
    ∧ k.publishing = true ∧ k.holds = []
    ∧ cut.replaced = head.current.checkpoint
    ∧ (∀ r, head.current.checkpoint = some r → r.sequence ≠ reference.sequence)
    ∧ u.candidate = { head.current with checkpoint := some reference }
    ∧ (u.stage ≠ .edited → u.end_ = some cut.end_
      ∧ ∀ e, head.checkpointEnd = some e → cut.begin_ = e)

/-- What an update in its turn is. -/
structure Update.Sound (d : Device) (head : Head) (checkpointer : Option Checkpointer)
    (u : Update) : Prop where
  progress : controlProgress head.current u.candidate = true
  same : u.owner ≠ .checkpoint →
    u.candidate.checkpoint = head.current.checkpoint ∧ u.end_ = none
  reserves : ∀ start count, u.owner = .allocator start count →
    start = head.current.objectHigh ∧ u.candidate.objectHigh = start + count
  own : u.owner = .checkpoint → u.Own head checkpointer
  renamed : u.stage = .renamed → u.candidate ∈ d.records

/-- Whether the records may disagree on the checkpoint: its update is past its rename, or ended
    there and ended its owner. -/
def Process.divided (p : Process) : Bool :=
  p.head.moving || p.checkpointer.any fun k => k.failed && decide (k.phase = .idle)

/-- What a pass of a reopen knows. -/
def Sweep.Sound (head : Head) (checkpointer : Option Checkpointer) : Sweep → Prop
  | .bundles kept => checkpointer = none ∧ kept = head.current.checkpoint
  | .wal durable => checkpointer = none ∧ durable = head.checkpointEnd

/-- **What the owners in memory know of the device.** -/
structure Owned (d : Device) (p : Process) : Prop where
  known : Known d p.head.current p.head.checkpointEnd p.ids
  turn : ∀ u, p.head.turn = some u → u.Sound d p.head p.checkpointer
  alike : p.divided = false → ∀ c ∈ d.records, c.checkpoint = p.head.current.checkpoint
  sweep : ∀ w, p.sweep = some w → w.Sound p.head p.checkpointer
  run : ∀ k, p.checkpointer = some k → k.Sound d p.head p.ids

/-! ## The device under one operation -/

section Device

variable {d : Device} {current : Control} {checkpointEnd : Option Cursor} {ids : Range}
  {sequence : Nat}

/-- A record's cutoff is read from the bundle it names, so it needs no other. -/
theorem Device.cutoff_congr {d d' : Device} {c c' : Control} (hc : c.checkpoint = c'.checkpoint)
    (hb : ∀ r, c'.checkpoint = some r → d.bundles r.sequence = d'.bundles r.sequence) :
    d.cutoff c = d'.cutoff c' := by
  unfold Device.cutoff
  rw [hc]
  cases hr : c'.checkpoint with
  | none => rfl
  | some r => simp only [hb r hr]

theorem incarnation_mono {a b : Cursor} (h : a ≤ b) : a.incarnation ≤ b.incarnation := by
  have h' : toLex (a.incarnation, a.position) ≤ toLex (b.incarnation, b.position) := h
  rcases Prod.Lex.toLex_le_toLex.mp h' with h'' | ⟨h'', _⟩
  · exact h''.le
  · exact h''.le

/-- A bundle no record names may go, or come. -/
theorem Known.setBundle (h : Known d current checkpointEnd ids) (hq : d.Unnamed sequence)
    (b : Option Bundle) (hs : b.isSome → Spent current ids sequence) :
    Known { d with bundles := Function.update d.bundles sequence b } current checkpointEnd ids := by
  have hother : ∀ c ∈ d.records, ∀ r, c.checkpoint = some r →
      Function.update d.bundles sequence b r.sequence = d.bundles r.sequence := by
    intro c hc r hr
    exact Function.update_of_ne (hq c hc r hr) ..
  have hcut : ∀ c ∈ d.records,
      Device.cutoff { d with bundles := Function.update d.bundles sequence b } c = d.cutoff c :=
    fun c hc => Device.cutoff_congr rfl fun r hr => hother c hc r hr
  have hspent : ∀ q b', Function.update d.bundles sequence b q = some b' →
      Spent current ids q := by
    intro q b' hb
    by_cases hqs : q = sequence
    · subst hqs
      rw [Function.update_self] at hb
      exact hs (by rw [hb]; rfl)
    · rw [Function.update_of_ne hqs] at hb
      exact h.served q b' hb
  refine ⟨⟨?_, ?_, ?_⟩, h.possible, h.high, ?_, h.range, hspent⟩
  · intro c hc r hr
    obtain ⟨root, hroot⟩ := h.kept.backed c hc r hr
    exact ⟨root, (hother c hc r hr).trans hroot⟩
  · intro c hc i hi
    rw [hcut c hc]
    exact h.kept.needed c hc i hi
  · intro c hc q b' hb
    exact (hspent q b' hb).high.trans (h.high c hc)
  · rw [hcut current h.possible]
    exact h.ended

/-- A WAL file below the cutoff may go, where the records agree on it. -/
theorem Known.removeWal (h : Known d current checkpointEnd ids)
    (halike : ∀ c ∈ d.records, c.checkpoint = current.checkpoint) {cutoff : Cursor}
    (hcut : checkpointEnd = some cutoff) {i : Nat} (hi : i < cutoff.incarnation) (r : Removal) :
    Known (d.removeWal i r) current checkpointEnd ids := by
  unfold Device.removeWal
  split
  next =>
    refine { h with kept := ⟨h.kept.backed, ?_, h.kept.used⟩ }
    intro c hc j hj
    rcases List.mem_cons.mp hj with rfl | hj
    · refine ⟨cutoff, ?_, hi⟩
      show d.cutoff c = some cutoff
      rw [Device.cutoff_congr (halike c hc) fun _ _ => rfl, ← h.ended, hcut]
    · exact h.kept.needed c hc j hj
  next => exact h

/-- Every sequence below the next one given is spent. -/
theorem Spent.next (h : Spent current ids sequence) :
    Spent current ⟨ids.current + 1, ids.remaining - 1⟩ sequence :=
  ⟨h.high, fun hr => (h.served (by simp only at hr; omega)).trans (Nat.le_succ _)⟩

/-- A sequence is given. -/
theorem Known.next (h : Known d current checkpointEnd ids) :
    Known d current checkpointEnd ⟨ids.current + 1, ids.remaining - 1⟩ := by
  refine ⟨h.kept, h.possible, h.high, h.ended, ?_, fun q b hb => (h.served q b hb).next⟩
  intro hr
  have hr' : ids.remaining - 1 ≠ 0 := hr
  have := h.range (by omega)
  show ids.current + 1 + (ids.remaining - 1) ≤ current.objectHigh
  omega

/-- The sequence given is one that nothing has, and it is spent from there on. -/
theorem Known.next_fresh (h : Known d current checkpointEnd ids) (hr : ids.remaining ≠ 0) :
    Disposable d current ⟨ids.current + 1, ids.remaining - 1⟩ (ids.current + 1) := by
  refine ⟨?_, ?_, fun _ => le_rfl⟩
  · intro c hc r hname heq
    obtain ⟨root, hroot⟩ := h.kept.backed c hc r hname
    have := (h.served _ _ hroot).served hr
    omega
  · have := h.range hr
    omega

/-- The rename of a record is asked for: it is one more that may be durable. -/
theorem Known.rename (h : Known d current checkpointEnd ids) {candidate : Control}
    (hhigh : current.objectHigh ≤ candidate.objectHigh)
    (hbacked : ∀ r, candidate.checkpoint = some r →
      ∃ root, d.bundles r.sequence = some ⟨r, root, true⟩)
    (hneeded : ∀ i ∈ d.removed, ∃ cutoff, d.cutoff candidate = some cutoff ∧
      i < cutoff.incarnation) :
    Known { d with records := candidate :: d.records } current checkpointEnd ids := by
  refine ⟨⟨?_, ?_, ?_⟩, List.mem_cons_of_mem _ h.possible, ?_, h.ended, h.range, h.served⟩
  · intro c hc
    rcases List.mem_cons.mp hc with rfl | hc
    · exact hbacked
    · exact h.kept.backed c hc
  · intro c hc
    rcases List.mem_cons.mp hc with rfl | hc
    · exact hneeded
    · exact h.kept.needed c hc
  · intro c hc q b hb
    rcases List.mem_cons.mp hc with rfl | hc
    · exact (h.served q b hb).high.trans hhigh
    · exact h.kept.used c hc q b hb
  · intro c hc
    rcases List.mem_cons.mp hc with rfl | hc
    · exact hhigh
    · exact h.high c hc

theorem Kept.only {d : Device} (h : Kept d) {c : Control} (hc : c ∈ d.records) :
    Kept { d with records := [c] } := by
  refine ⟨?_, ?_, ?_⟩ <;> intro c' hc' <;> obtain rfl := List.mem_singleton.mp hc'
  · exact h.backed c' hc
  · exact h.needed c' hc
  · exact h.used c' hc

/-- A record that may be durable is: no other may be. -/
theorem Known.commit (h : Known d current checkpointEnd ids) {candidate : Control}
    (hc : candidate ∈ d.records) {ids' : Range}
    (hrange : ids'.remaining ≠ 0 → ids'.current + ids'.remaining ≤ candidate.objectHigh)
    (hspent : ∀ q, Spent current ids q → Spent candidate ids' q) :
    Known { d with records := [candidate] } candidate (d.cutoff candidate) ids' := by
  refine ⟨h.kept.only hc, List.mem_singleton_self _, ?_, rfl, hrange, ?_⟩
  · intro c hc'
    obtain rfl := List.mem_singleton.mp hc'
    exact le_rfl
  · intro q b hb
    exact hspent q (h.served q b hb)

theorem Disposable.next (h : Disposable d current ids sequence) :
    Disposable d current ⟨ids.current + 1, ids.remaining - 1⟩ sequence :=
  ⟨h.1, h.2.next⟩

end Device

end KwaqueStorage.Checkpoint
