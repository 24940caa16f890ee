import KwaqueStorage.Control.Owner

/-!
# The control over any sequence of events

One update at a time has the turn, and what it knows of the record it edits stays true until it is
published: nothing else changes what is current. So a step of the update in flight does one of two
things, which `Turned` says once: it goes on with what its phase promises, or it ends with nothing
touched and the next in line has the turn.
-/

namespace KwaqueStorage.Control

open Lib Publication

section Records

variable (rootOf : RootReference → CheckpointRoot)

/-- **What a durable record is to the one before it**: its edit of that one's fields, one generation
    later, with nothing that goes back, and with a checkpoint that continues the one before. -/
structure Follows (before : Snapshot) (a : Applied) : Prop where
  generation : a.record.generation = before.generation + 1
  edited : a.update.edit before.fields = .ok a.record.fields
  walHigh : before.fields.walHigh ≤ a.record.fields.walHigh
  objectHigh : before.fields.objectHigh ≤ a.record.fields.objectHigh
  decisionHigh : before.fields.decisionHigh ≤ a.record.fields.decisionHigh
  deletionHigh : before.fields.deletionHigh ≤ a.record.fields.deletionHigh
  head : ∀ head, before.fields.walHead = some head →
    ∃ next, a.record.fields.walHead = some next ∧ head.incarnation ≤ next.incarnation
  keeps : before.fields.checkpoint.isSome = true → a.record.fields.checkpoint.isSome = true
  continues : ∀ old new, before.fields.checkpoint = some old →
    a.record.fields.checkpoint = some new → new ≠ old → (rootOf new).begin_ = (rootOf old).end_

/-- Every durable record follows the one before it. -/
def Chained (first : Snapshot) : List Applied → Prop
  | [] => True
  | newest :: older => Follows rootOf (latest first older) newest ∧ Chained first older

/-- A candidate that its edit made of the record, and that passed `control_progress`. -/
structure Candidate (before : Snapshot) (u : Update) (candidate : Fields) : Prop where
  edited : u.edit before.fields = .ok candidate
  progress : controlProgress before.fields candidate = .ok ()

/-- Its checkpoint, if it is new, begins where the one before it ended, and ends where the update has
    noted it. -/
structure Continued (before : Snapshot) (candidate : Fields) (noted : Option Cursor) : Prop where
  continues : ∀ old new, before.fields.checkpoint = some old → candidate.checkpoint = some new →
    new ≠ old → (rootOf new).begin_ = (rootOf old).end_
  noted : noted.or (before.fields.checkpoint.map fun reference => (rootOf reference).end_)
    = candidate.checkpoint.map fun reference => (rootOf reference).end_

/-- What the update in flight knows. -/
def PhaseOk (before : Snapshot) (u : Update) : Phase → Prop
  | .validating => True
  | .depending candidate => Candidate before u candidate
  | .loadingHead candidate => Candidate before u candidate
  | .loadingRoot candidate reference => Candidate before u candidate
    ∧ candidate.checkpoint = some reference ∧ some reference ≠ before.fields.checkpoint
  | .encoding candidate noted => Candidate before u candidate ∧ Continued rootOf before candidate noted
  | .revalidating candidate noted =>
    Candidate before u candidate ∧ Continued rootOf before candidate noted
  | .publishing candidate noted =>
    Candidate before u candidate ∧ Continued rootOf before candidate noted

structure RunningOk (before : Snapshot) (r : Running) : Prop where
  generation : r.generation = before.generation + 1
  phase : PhaseOk rootOf before r.update r.phase

variable {rootOf} {before : Snapshot} {first : Snapshot} {u : Update} {candidate : Fields}

/-- What `control_progress` passes. -/
theorem controlProgress_ok {before after : Fields} (h : controlProgress before after = .ok ()) :
    (before.walHigh ≤ after.walHigh ∧ before.objectHigh ≤ after.objectHigh
        ∧ before.decisionHigh ≤ after.decisionHigh ∧ before.deletionHigh ≤ after.deletionHigh)
      ∧ headGoesBack before.walHead after.walHead = false
      ∧ checkpointGoesBack before.checkpoint after.checkpoint = false := by
  unfold controlProgress at h
  split at h
  next => cases h
  next hmarks =>
    split at h
    next => cases h
    next hhead =>
      split at h
      next => cases h
      next =>
        split at h
        next => cases h
        next hcheckpoint =>
          rw [not_or, not_or, not_or, Nat.not_lt, Nat.not_lt, Nat.not_lt, Nat.not_lt] at hmarks
          exact ⟨hmarks, Bool.eq_false_of_not_eq_true hhead, Bool.eq_false_of_not_eq_true hcheckpoint⟩

theorem headGoesBack_false {before after : Option WalHead} (h : headGoesBack before after = false)
    {head : WalHead} (hbefore : before = some head) :
    ∃ next, after = some next ∧ head.incarnation ≤ next.incarnation := by
  subst hbefore
  cases after with
  | none => cases h
  | some next =>
    refine ⟨next, rfl, ?_⟩
    simp only [headGoesBack, decide_eq_false_iff_not, not_or, Nat.not_lt] at h
    exact h.1

theorem checkpointGoesBack_false {before after : Option RootReference}
    (h : checkpointGoesBack before after = false) (hbefore : before.isSome = true) :
    after.isSome = true := by
  cases before with
  | none => cases hbefore
  | some root =>
    cases after with
    | none => cases h
    | some next => rfl

/-- A candidate that continues the checkpoint follows. -/
theorem Candidate.follows (h : Candidate before u candidate) {noted : Option Cursor}
    (hcontinued : Continued rootOf before candidate noted) {call : Nat} :
    Follows rootOf before ⟨call, u, before.generation + 1, candidate⟩ := by
  obtain ⟨⟨hwal, hobject, hdecision, hdeletion⟩, hhead, hcheckpoint⟩ := controlProgress_ok h.progress
  exact ⟨rfl, h.edited, hwal, hobject, hdecision, hdeletion,
    fun head hbefore => headGoesBack_false hhead hbefore, checkpointGoesBack_false hcheckpoint,
    hcontinued.continues⟩

/-- A checkpoint that stays is continued by itself. -/
theorem Continued.same (h : candidate.checkpoint = before.fields.checkpoint) :
    Continued rootOf before candidate none := by
  refine ⟨?_, ?_⟩
  · intro old new hold hnew hdiffer
    rw [h, hold] at hnew
    exact absurd (Option.some.inj hnew).symm hdiffer
  · rw [h, Option.none_or]

theorem Continued.loaded {reference : RootReference} (hnew : candidate.checkpoint = some reference)
    (hbegins : ∀ end_, (before.fields.checkpoint.map fun reference => (rootOf reference).end_) = some end_ →
      (rootOf reference).begin_ = end_) :
    Continued rootOf before candidate (some (rootOf reference).end_) := by
  refine ⟨?_, ?_⟩
  · intro old new hold hnamed _
    obtain rfl : new = reference := Option.some.inj (hnamed.symm.trans hnew)
    refine hbegins _ ?_
    rw [hold]
    rfl
  · rw [hnew]
    rfl

end Records

/-! ## The line -/

/-- The calls that have the turn or wait for it. -/
def Owner.line (o : Owner) : List Nat :=
  (match o.turn with
    | .free => []
    | .granted call _ => [call]
    | .running r => [r.call]) ++ o.queue.map Prod.fst

section Line

variable {o : Owner}

theorem line_running {r : Running} (h : o.turn = .running r) :
    o.line = r.call :: o.queue.map Prod.fst := by
  unfold Owner.line
  rw [h]
  rfl

theorem line_granted {call : Nat} {u : Update} (h : o.turn = .granted call u) :
    o.line = call :: o.queue.map Prod.fst := by
  unfold Owner.line
  rw [h]
  rfl

/-- The next in line has the turn, and it does not run yet. -/
theorem release_line : o.release.line = o.queue.map Prod.fst := by
  unfold Owner.release
  split
  next h => simp [Owner.line, h]
  next call update rest h => simp [Owner.line, h]

theorem release_idle {r : Running} : o.release.turn ≠ .running r := by
  unfold Owner.release
  split
  · exact nofun
  · exact nofun

theorem release_frame : o.release.current = o.current ∧ o.release.checkpointEnd = o.checkpointEnd
    ∧ o.release.publisherFenced = o.publisherFenced ∧ o.release.fenced = o.fenced := by
  unfold Owner.release
  split
  · exact ⟨rfl, rfl, rfl, rfl⟩
  · exact ⟨rfl, rfl, rfl, rfl⟩

end Line

/-- A call that has come, that nothing was published for and that was not answered, and that came after
    every call something was published for. -/
structure Fresh (s : State) (call : Nat) : Prop where
  called : call < s.calls
  applied : ∀ a ∈ s.applied, a.call < call
  unsure : ∀ a, s.unsure = some a → a.call < call
  unanswered : ∀ outcome, (call, outcome) ∉ s.replies

/-- **What the owner keeps.** -/
structure Owned (rootOf : RootReference → CheckpointRoot) (s : State) (o : Owner) : Prop where
  current : o.current = s.durable
  checkpointEnd : o.checkpointEnd
    = s.durable.fields.checkpoint.map fun reference => (rootOf reference).end_
  publisher : o.publisherFenced = true → o.fenced = true
  unsure : s.unsure.isSome = true → o.fenced = true
  uncertain : .uncertain ∈ s.publications → o.fenced = true
  running : ∀ r, o.turn = .running r → o.fenced = false ∧ RunningOk rootOf s.durable r
  line : o.line.Pairwise (· < ·)
  fresh : ∀ call ∈ o.line, Fresh s call

/-- **What a state keeps.** -/
structure Good (rootOf : RootReference → CheckpointRoot) (s : State) : Prop where
  chained : Chained rootOf s.first s.applied
  order : (s.applied.map Applied.call).Pairwise (· > ·)
  numbered : ∀ a ∈ s.applied, a.call < s.calls
  unsure : ∀ a, s.unsure = some a → Follows rootOf s.durable a ∧ (∀ b ∈ s.applied, b.call < a.call)
    ∧ a.call < s.calls ∧ ∀ outcome, (a.call, outcome) ∈ s.replies → outcome.disposition = .uncertain
  answered : ∀ call outcome, (call, outcome) ∈ s.replies → call < s.calls
    ∧ (outcome.disposition = .durable → ∃ a ∈ s.applied, a.call = call)
    ∧ (outcome.disposition = .untouched → ∀ a ∈ s.applied, a.call ≠ call)
  once : .uncertain ∉ s.publications.tail
  owned : ∀ o, s.owner = some o → Owned rootOf s o

section Steps

variable {rootOf : RootReference → CheckpointRoot} {s : State} {o : Owner} {r : Running} {call : Nat}

/-- **What a step of the update that has the turn does**, short of its publication: it goes on, or it
    ends with nothing touched. -/
structure Turned (rootOf : RootReference → CheckpointRoot) (o : Owner) (call : Nat)
    (after : Owner × Option Outcome) : Prop where
  current : after.1.current = o.current
  checkpointEnd : after.1.checkpointEnd = o.checkpointEnd
  publisher : after.1.publisherFenced = o.publisherFenced
  fenced : o.fenced = true → after.1.fenced = true
  outcome : (after.2 = none ∧ after.1.fenced = o.fenced ∧ after.1.queue = o.queue
      ∧ ∃ r, after.1.turn = .running r ∧ r.call = call ∧ RunningOk rootOf o.current r)
    ∨ (∃ outcome, after.2 = some outcome ∧ outcome.disposition = .untouched
      ∧ after.1.line = o.queue.map Prod.fst ∧ ∀ r, after.1.turn ≠ .running r)

theorem turned_leave (why : Fault) : Turned rootOf o call (o.leave why) := by
  obtain ⟨hcurrent, hend, hpublisher, hfenced⟩ := @release_frame
    { o with fenced := o.fenced || (decide (why = .thrown) && o.publisherFenced) }
  refine ⟨hcurrent, hend, hpublisher, ?_, .inr ⟨_, rfl, rfl, release_line, fun r => release_idle⟩⟩
  intro hold
  unfold Owner.leave
  rw [hfenced, hold, Bool.true_or]

theorem turned_goes {phase : Phase} (hgeneration : r.generation = o.current.generation + 1)
    (hphase : PhaseOk rootOf o.current r.update phase) : Turned rootOf o r.call (o.goes r phase) :=
  ⟨rfl, rfl, rfl, fun h => h, .inl ⟨rfl, rfl, rfl, _, rfl, rfl, hgeneration, hphase⟩⟩

theorem turned_begin (u : Update) : Turned rootOf o call (o.begin_ call u) := by
  unfold Owner.begin_
  split
  next => exact turned_leave _
  next => exact turned_goes (r := ⟨call, u, o.current.generation + 1, .validating⟩) rfl trivial

theorem turned_validated (h : RunningOk rootOf o.current r) (result : Except Fault Unit) :
    Turned rootOf o r.call (o.validated r result) := by
  cases result with
  | error why => exact turned_leave why
  | ok _ =>
    simp only [Owner.validated]
    split
    next => exact turned_leave _
    next candidate hedit =>
      split
      next => exact turned_leave _
      next hprogress =>
        have hcandidate : Candidate o.current r.update candidate := ⟨hedit, hprogress⟩
        exact turned_goes h.generation hcandidate

variable {candidate : Fields}

theorem turned_loadRoot (hgeneration : r.generation = o.current.generation + 1)
    (h : Candidate o.current r.update candidate) :
    Turned rootOf o r.call (o.loadRoot r candidate) := by
  obtain ⟨_, _, hkeeps⟩ := controlProgress_ok h.progress
  unfold Owner.loadRoot
  split
  next hnone =>
    refine turned_goes hgeneration ⟨h, Continued.same ?_⟩
    -- no checkpoint now, so there was none
    cases hbefore : o.current.fields.checkpoint with
    | none => exact hnone
    | some root =>
      have hsome := checkpointGoesBack_false hkeeps (by rw [hbefore]; rfl)
      rw [hnone] at hsome
      cases hsome
  next reference hsome =>
    split
    next hnew => exact turned_goes hgeneration ⟨h, hsome, hnew⟩
    next hsame =>
      refine turned_goes hgeneration ⟨h, Continued.same ?_⟩
      rw [hsome]
      exact not_not.mp hsame

theorem turned_loadHead (hgeneration : r.generation = o.current.generation + 1)
    (h : Candidate o.current r.update candidate) :
    Turned rootOf o r.call (o.loadHead r candidate) := by
  unfold Owner.loadHead
  split
  next => exact turned_goes hgeneration h
  next => exact turned_loadRoot hgeneration h

theorem turned_depended (hgeneration : r.generation = o.current.generation + 1)
    (h : Candidate o.current r.update candidate) (result : Except Fault Unit) :
    Turned rootOf o r.call (o.depended r candidate result) := by
  unfold Owner.depended
  split
  next => exact turned_leave _
  next => exact turned_loadHead hgeneration h

theorem turned_headLoaded (hgeneration : r.generation = o.current.generation + 1)
    (h : Candidate o.current r.update candidate) (result : Except Fault Unit) :
    Turned rootOf o r.call (o.headLoaded r candidate result) := by
  cases result with
  | error why => exact turned_leave why
  | ok _ => exact turned_loadRoot hgeneration h

/-- The root of a new checkpoint begins where the durable one ended. -/
theorem turned_rootLoaded {reference : RootReference} (hgeneration : r.generation = o.current.generation + 1)
    (h : Candidate o.current r.update candidate) (hnew : candidate.checkpoint = some reference)
    (hend : o.checkpointEnd = o.current.fields.checkpoint.map fun reference => (rootOf reference).end_)
    (result : Except Fault Unit) :
    Turned rootOf o r.call
      (o.rootLoaded r candidate (result.map fun _ => rootOf reference)) := by
  cases result with
  | error why => exact turned_leave why
  | ok _ =>
    change Turned rootOf o r.call
      (if o.checkpointEnd.any fun end_ => decide ((rootOf reference).begin_ ≠ end_) then
        o.leave (pathError .wrongContext)
      else o.goes r (.encoding candidate (some (rootOf reference).end_)))
    split
    next => exact turned_leave _
    next hbegins =>
      refine turned_goes hgeneration ⟨h, Continued.loaded hnew ?_⟩
      intro end_ hat
      rw [← hend] at hat
      rw [hat, Option.any_some, decide_eq_true_eq, not_not] at hbegins
      exact hbegins

theorem turned_passed {next : Phase} (hgeneration : r.generation = o.current.generation + 1)
    (h : PhaseOk rootOf o.current r.update next) (result : Except Fault Unit) :
    Turned rootOf o r.call (o.passed r next result) := by
  cases result with
  | error why => exact turned_leave why
  | ok _ => exact turned_goes hgeneration h

/-- The turn is given back, with nothing touched. -/
theorem turned_release {outcome : Outcome} (h : outcome.disposition = .untouched) :
    Turned rootOf o call (o.release, some outcome) := by
  obtain ⟨hcurrent, hend, hpublisher, hfenced⟩ := @release_frame o
  exact ⟨hcurrent, hend, hpublisher, fun hold => hfenced.trans hold,
    .inr ⟨outcome, rfl, h, release_line, fun r => release_idle⟩⟩

/-- **An owner that keeps what it must, and an answer that says that nothing was touched.** -/
theorem Good.settled (h : Good rootOf s) {after : Owner × Option Outcome}
    (howned : Owned rootOf s after.1)
    (hreply : ∀ outcome, after.2 = some outcome →
      outcome.disposition = .untouched ∧ Fresh s call ∧ call ∉ after.1.line) :
    Good rootOf (s.settle call after) := by
  obtain ⟨o', reply⟩ := after
  cases reply with
  | none =>
    refine { h with owned := ?_ }
    intro other hother
    cases hother
    exact { howned with
      fresh := fun c hc => ⟨(howned.fresh c hc).called, (howned.fresh c hc).applied, (howned.fresh c hc).unsure, (howned.fresh c hc).unanswered⟩ }
  | some outcome =>
    obtain ⟨huntouched, hfresh, hout⟩ := hreply outcome rfl
    refine ⟨h.chained, h.order, h.numbered, ?_, ?_, h.once, ?_⟩
    · intro a ha
      obtain ⟨hfollows, hnewer, hcalled, hanswer⟩ := h.unsure a ha
      refine ⟨hfollows, hnewer, hcalled, ?_⟩
      intro answer hin
      rcases List.mem_cons.mp hin with heq | hin
      · -- the answer is to a later call
        exact absurd (congrArg Prod.fst heq) (Nat.ne_of_lt (hfresh.unsure a ha))
      · exact hanswer answer hin
    · intro c answer hin
      rcases List.mem_cons.mp hin with heq | hin
      · cases heq
        refine ⟨hfresh.called, ?_, fun _ a ha => Nat.ne_of_lt (hfresh.applied a ha)⟩
        intro hbad
        rw [huntouched] at hbad
        cases hbad
      · exact h.answered c answer hin
    · intro other hother
      cases hother
      refine { howned with fresh := ?_ }
      intro c hc
      have hc' := howned.fresh c hc
      refine ⟨hc'.called, hc'.applied, hc'.unsure, ?_⟩
      intro answer hin
      rcases List.mem_cons.mp hin with heq | hin
      · obtain ⟨rfl, _⟩ := Prod.mk.inj heq
        exact hout hc
      · exact hc'.unanswered answer hin

/-- **A step of the update that has the turn**, or takes it. -/
theorem Good.turned (h : Good rootOf s) (howned : Owned rootOf s o)
    (hline : (call :: o.queue.map Prod.fst).Pairwise (· < ·))
    (hfresh : ∀ c ∈ call :: o.queue.map Prod.fst, Fresh s c) {after : Owner × Option Outcome}
    (hturned : Turned rootOf o call after) (hopen : after.2 = none → o.fenced = false) :
    Good rootOf (s.settle call after) := by
  have hpublisher : after.1.publisherFenced = true → after.1.fenced = true := by
    intro hfenced
    rw [hturned.publisher] at hfenced
    exact hturned.fenced (howned.publisher hfenced)
  refine h.settled ⟨?_, ?_, hpublisher, ?_, ?_, ?_, ?_, ?_⟩ ?_
  · rw [hturned.current, howned.current]
  · rw [hturned.checkpointEnd, howned.checkpointEnd]
  · intro hunsure
    exact hturned.fenced (howned.unsure hunsure)
  · intro huncertain
    exact hturned.fenced (howned.uncertain huncertain)
  · intro r hr
    rcases hturned.outcome with ⟨hnone, hfenced, _, r', hr', _, hok⟩ | ⟨_, _, _, _, hidle⟩
    · obtain rfl := Turn.running.inj (hr.symm.trans hr')
      rw [howned.current] at hok
      exact ⟨hfenced.trans (hopen hnone), hok⟩
    · exact absurd hr (hidle r)
  · rcases hturned.outcome with ⟨_, _, hqueue, r', hr', hcall, _⟩ | ⟨_, _, _, hafter, _⟩
    · rw [line_running hr', hqueue, hcall]
      exact hline
    · rw [hafter]
      exact (List.pairwise_cons.mp hline).2
  · rcases hturned.outcome with ⟨_, _, hqueue, r', hr', hcall, _⟩ | ⟨_, _, _, hafter, _⟩
    · rw [line_running hr', hqueue, hcall]
      exact hfresh
    · rw [hafter]
      exact fun c hc => hfresh c (List.mem_cons_of_mem _ hc)
  · intro outcome hsome
    rcases hturned.outcome with ⟨hnone, _⟩ | ⟨outcome', hsome', huntouched, hafter, _⟩
    · rw [hnone] at hsome
      cases hsome
    · obtain rfl := Option.some.inj (hsome.symm.trans hsome')
      refine ⟨huntouched, hfresh call List.mem_cons_self, ?_⟩
      rw [hafter]
      intro hin
      exact lt_irrefl _ ((List.pairwise_cons.mp hline).1 call hin)

/-! ## Each event -/

theorem Fresh.tick {c : Nat} (h : Fresh s c) : Fresh { s with calls := s.calls + 1 } c :=
  ⟨h.called.trans (Nat.lt_succ_self _), h.applied, h.unsure, h.unanswered⟩

theorem Owned.tick (h : Owned rootOf s o) : Owned rootOf { s with calls := s.calls + 1 } o :=
  { h with fresh := fun c hc => (h.fresh c hc).tick }

/-- Another call comes. -/
theorem Good.tick (h : Good rootOf s) : Good rootOf { s with calls := s.calls + 1 } := by
  have hle : ∀ {c}, c < s.calls → c < s.calls + 1 := fun hlt => hlt.trans (Nat.lt_succ_self _)
  refine ⟨h.chained, h.order, fun a ha => hle (h.numbered a ha), ?_, ?_, h.once,
    fun o ho => (h.owned o ho).tick⟩
  · intro a ha
    obtain ⟨hfollows, hnewer, hcalled, hanswer⟩ := h.unsure a ha
    exact ⟨hfollows, hnewer, hle hcalled, hanswer⟩
  · intro c outcome hin
    obtain ⟨hcalled, hrest⟩ := h.answered c outcome hin
    exact ⟨hle hcalled, hrest⟩

/-- The call that comes is fresh. -/
theorem Good.fresh (h : Good rootOf s) : Fresh { s with calls := s.calls + 1 } s.calls := by
  refine ⟨Nat.lt_succ_self _, h.numbered, ?_, ?_⟩
  · intro a ha
    exact (h.unsure a ha).2.2.1
  · intro outcome hin
    exact lt_irrefl _ (h.answered _ outcome hin).1

/-- The owner as it is, but for what nothing rests on. -/
theorem Owned.same (howned : Owned rootOf s o) {o' : Owner}
    (hcurrent : o'.current = o.current) (hend : o'.checkpointEnd = o.checkpointEnd)
    (hpublisher : o'.publisherFenced = o.publisherFenced) (hfenced : o'.fenced = o.fenced)
    (hturn : o'.turn = o.turn) (hqueue : o'.queue = o.queue) : Owned rootOf s o' := by
  have hline : o'.line = o.line := by
    unfold Owner.line
    rw [hturn, hqueue]
  refine ⟨hcurrent.trans howned.current, hend.trans howned.checkpointEnd, ?_, ?_, ?_, ?_, ?_, ?_⟩
  · rw [hpublisher, hfenced]
    exact howned.publisher
  · rw [hfenced]
    exact howned.unsure
  · rw [hfenced]
    exact howned.uncertain
  · rw [hturn, hfenced]
    exact howned.running
  · rw [hline]
    exact howned.line
  · rw [hline]
    exact howned.fresh

theorem Good.owner (h : Good rootOf s) (howned : Owned rootOf s o) :
    Good rootOf { s with owner := some o } :=
  @Good.settled rootOf s 0 h (o, none) howned fun _ hbad => by cases hbad

theorem turnFree_queue (h : o.turnFree = true) : o.queue = [] ∧ o.turn = .free := by
  unfold Owner.turnFree at h
  split at h
  next hfree => exact ⟨List.isEmpty_iff.mp h, hfree⟩
  next => cases h

/-- **A call** is turned away, takes the turn, or waits behind every call before it. -/
theorem Good.update (h : Good rootOf s) (howner : s.owner = some o) (u : Update)
    (reserved : Except Failure Unit) : Good rootOf (s.update o u reserved) := by
  have howned := (h.owned o howner).tick
  have hfresh := h.fresh
  have hlast : ∀ c ∈ o.line, c < s.calls := fun c hc => ((h.owned o howner).fresh c hc).called
  have hreject : ∀ why, Good rootOf (State.settle { s with calls := s.calls + 1 } s.calls
      (o, some (rejected why))) := by
    intro why
    refine h.tick.settled howned ?_
    intro outcome hsome
    cases hsome
    exact ⟨rfl, hfresh, fun hin => lt_irrefl _ (hlast _ hin)⟩
  unfold State.update
  split
  next => exact hreject _
  next hshut =>
    have hopen : o.fenced = false := by
      simp only [Owner.shut, Bool.or_eq_true, not_or, Bool.not_eq_true] at hshut
      exact hshut.2
    split
    next => exact hreject _
    next =>
      split
      next why => exact hreject why
      next =>
        split
        next hfree =>
          obtain ⟨hqueue, _⟩ := turnFree_queue hfree
          refine h.tick.turned howned ?_ ?_ (turned_begin u) fun _ => hopen
          · rw [hqueue]
            exact List.pairwise_singleton _ _
          · intro c hc
            rw [hqueue, List.map_nil, List.mem_singleton] at hc
            rw [hc]
            exact hfresh
        next =>
          have hline : Owner.line { o with
              waiting := o.waiting + 1, queue := o.queue ++ [(s.calls, u)] }
              = o.line ++ [s.calls] := by
            simp [Owner.line]
          refine h.tick.owner { howned with line := ?_, fresh := ?_ }
          · rw [hline]
            refine List.pairwise_append.mpr ⟨howned.line, List.pairwise_singleton _ _, ?_⟩
            intro c hc last hin
            rw [List.mem_singleton.mp hin]
            exact hlast c hc
          · rw [hline]
            intro c hc
            rcases List.mem_append.mp hc with hc | hc
            · exact howned.fresh c hc
            · rw [List.mem_singleton.mp hc]
              exact hfresh

/-- A waiter has the turn. -/
theorem Good.resume (h : Good rootOf s) (howner : s.owner = some o) {u : Update}
    (hturn : o.turn = .granted call u) : Good rootOf (s.resume o call u) := by
  have howned := h.owned o howner
  have hwaited : Owned rootOf s { o with waiting := o.waiting - 1 } :=
    howned.same rfl rfl rfl rfl rfl rfl
  have hline := howned.line
  have hfresh := howned.fresh
  rw [line_granted hturn] at hline hfresh
  unfold State.resume
  dsimp only
  split
  next => exact h.turned hwaited hline hfresh (turned_release rfl) fun hbad => by cases hbad
  next hshut =>
    have hopen : o.fenced = false := by
      simp only [Owner.shut, Bool.or_eq_true, not_or, Bool.not_eq_true] at hshut
      exact hshut.2
    exact h.turned hwaited hline hfresh (turned_begin u) fun _ => hopen

/-- What the update in flight is about to publish follows what is durable. -/
theorem Owned.follows (howned : Owned rootOf s o) {noted : Option Cursor} (hturn : o.turn = .running r)
    (hphase : r.phase = .publishing candidate noted) :
    Follows rootOf s.durable ⟨r.call, r.update, r.generation, candidate⟩ := by
  obtain ⟨_, hok⟩ := howned.running r hturn
  have hpublishing := hok.phase
  rw [hphase] at hpublishing
  rw [hok.generation]
  exact hpublishing.1.follows hpublishing.2

/-- What the owner keeps past a publication: it follows the disk, and is fenced where that is
    uncertain. -/
theorem Owned.published (howned : Owned rootOf s o) {noted : Option Cursor} (hturn : o.turn = .running r)
    (hphase : r.phase = .publishing candidate noted) {outcome : Outcome} {publisherFenced : Bool} {t : State}
    (hdurable : t.durable = if outcome.disposition = .durable then ⟨r.generation, candidate⟩ else s.durable)
    (hunsure : t.unsure.isSome = true → outcome.disposition = .uncertain)
    (huncertain : .uncertain ∈ t.publications → outcome.disposition = .uncertain)
    (hfresh : ∀ c ∈ o.queue.map Prod.fst, Fresh t c) :
    Owned rootOf t (o.published r candidate noted outcome publisherFenced) := by
  obtain ⟨_, hok⟩ := howned.running r hturn
  have hpublishing := hok.phase
  rw [hphase] at hpublishing
  have hline := howned.line
  rw [line_running hturn] at hline
  obtain ⟨hcurrent', hend', hpublisher', hfenced'⟩ := @release_frame { o with
    current := if outcome.disposition = .durable then ⟨r.generation, candidate⟩ else o.current
    checkpointEnd := if outcome.disposition = .durable then noted.or o.checkpointEnd
      else o.checkpointEnd
    publisherFenced
    fenced := o.fenced || publisherFenced || decide (outcome.disposition = .uncertain) }
  have hfences : outcome.disposition = .uncertain →
      (o.published r candidate noted outcome publisherFenced).fenced = true := by
    intro h
    rw [Owner.published, hfenced']
    simp [h]
  refine ⟨?_, ?_, ?_, fun h => hfences (hunsure h), fun h => hfences (huncertain h), ?_, ?_, ?_⟩
  · rw [Owner.published, hcurrent', hdurable, howned.current]
  · rw [Owner.published, hend', hdurable, howned.checkpointEnd]
    split
    next => exact hpublishing.2.noted
    next => rfl
  · intro h
    rw [Owner.published, hpublisher'] at h
    replace h : publisherFenced = true := h
    rw [Owner.published, hfenced', h, Bool.or_true, Bool.true_or]
  · intro r' hbad
    exact absurd hbad release_idle
  · rw [Owner.published, release_line]
    exact (List.pairwise_cons.mp hline).2
  · rw [Owner.published, release_line]
    exact hfresh

/-- **A publication ends**, and its outcome is true. -/
theorem Good.published (h : Good rootOf s) (howner : s.owner = some o) {noted : Option Cursor}
    (hturn : o.turn = .running r) (hphase : r.phase = .publishing candidate noted) (outcome : Outcome)
    (publisherFenced : Bool) :
    Good rootOf (s.published o r candidate noted outcome publisherFenced) := by
  have howned := h.owned o howner
  obtain ⟨hopen, _⟩ := howned.running r hturn
  have hfollows := howned.follows hturn hphase
  have hline := howned.line
  have hfresh := howned.fresh
  rw [line_running hturn] at hline hfresh
  have hcall := hfresh r.call List.mem_cons_self
  -- an owner that publishes is not fenced, so nothing was uncertain before
  have hquiet : s.unsure = none := by
    cases hunsure : s.unsure with
    | none => rfl
    | some a =>
      have hfenced := howned.unsure (by rw [hunsure]; rfl)
      rw [hopen] at hfenced
      cases hfenced
  have hcertain : Disposition.uncertain ∉ s.publications := by
    intro hin
    have hfenced := howned.uncertain hin
    rw [hopen] at hfenced
    cases hfenced
  have hnext : ∀ c ∈ o.queue.map Prod.fst, r.call < c ∧ Fresh s c := fun c hc =>
    ⟨(List.pairwise_cons.mp hline).1 c hc, hfresh c (List.mem_cons_of_mem _ hc)⟩
  have hunanswered : ∀ {c}, r.call < c → Fresh s c → ∀ answer,
      (c, answer) ∉ (r.call, outcome) :: s.replies := by
    intro c hlater hc answer hin
    rcases List.mem_cons.mp hin with heq | hin
    · exact Nat.ne_of_lt hlater (congrArg Prod.fst heq).symm
    · exact hc.unanswered answer hin
  have hanswered : ∀ {c answer}, (c, answer) ∈ s.replies → r.call ≠ c :=
    fun hin heq => hcall.unanswered _ (heq ▸ hin)
  unfold State.published
  cases hdisposition : outcome.disposition with
  | durable =>
    refine ⟨⟨hfollows, h.chained⟩, ?_, ?_, ?_, ?_, hcertain, ?_⟩
    · refine List.pairwise_cons.mpr ⟨?_, h.order⟩
      intro c hc
      obtain ⟨a, ha, rfl⟩ := List.mem_map.mp hc
      exact hcall.applied a ha
    · intro a ha
      rcases List.mem_cons.mp ha with rfl | ha
      · exact hcall.called
      · exact h.numbered a ha
    · intro a hbad
      exact absurd (hbad.symm.trans hquiet) (by simp)
    · intro c answer hin
      rcases List.mem_cons.mp hin with heq | hin
      · cases heq
        refine ⟨hcall.called, fun _ => ⟨_, List.mem_cons_self, rfl⟩, ?_⟩
        intro hbad
        rw [hdisposition] at hbad
        cases hbad
      · obtain ⟨hcalled, hdurable, huntouched⟩ := h.answered c answer hin
        refine ⟨hcalled, ?_, ?_⟩
        · intro hanswer
          obtain ⟨a, ha, heq⟩ := hdurable hanswer
          exact ⟨a, List.mem_cons_of_mem _ ha, heq⟩
        · intro hanswer a ha
          rcases List.mem_cons.mp ha with rfl | ha
          · exact hanswered hin
          · exact huntouched hanswer a ha
    · intro other hother
      cases hother
      refine howned.published hturn hphase ?_ ?_ ?_ ?_
      · rw [hdisposition]
        rfl
      · intro hbad
        replace hbad : s.unsure.isSome = true := hbad
        rw [hquiet] at hbad
        cases hbad
      · intro hbad
        exact absurd hbad (by simpa using hcertain)
      · intro c hc
        obtain ⟨hlater, hc'⟩ := hnext c hc
        refine ⟨hc'.called, ?_, hc'.unsure, hunanswered hlater hc'⟩
        intro a ha
        rcases List.mem_cons.mp ha with rfl | ha
        · exact hlater
        · exact hc'.applied a ha
  | uncertain =>
    refine ⟨h.chained, h.order, h.numbered, ?_, ?_, hcertain, ?_⟩
    · intro a ha
      cases ha
      refine ⟨hfollows, hcall.applied, hcall.called, ?_⟩
      intro answer hin
      rcases List.mem_cons.mp hin with heq | hin
      · obtain ⟨_, rfl⟩ := Prod.mk.inj heq
        exact hdisposition
      · exact absurd hin (hcall.unanswered answer)
    · intro c answer hin
      rcases List.mem_cons.mp hin with heq | hin
      · cases heq
        refine ⟨hcall.called, ?_, ?_⟩
        · intro hbad
          rw [hdisposition] at hbad
          cases hbad
        · intro hbad
          rw [hdisposition] at hbad
          cases hbad
      · exact h.answered c answer hin
    · intro other hother
      cases hother
      refine howned.published hturn hphase ?_ (fun _ => hdisposition) (fun _ => hdisposition) ?_
      · rw [hdisposition]
        rfl
      · intro c hc
        obtain ⟨hlater, hc'⟩ := hnext c hc
        refine ⟨hc'.called, hc'.applied, ?_, hunanswered hlater hc'⟩
        intro a ha
        cases ha
        exact hlater
  | untouched =>
    refine ⟨h.chained, h.order, h.numbered, ?_, ?_, hcertain, ?_⟩
    · intro a hbad
      exact absurd (hbad.symm.trans hquiet) (by simp)
    · intro c answer hin
      rcases List.mem_cons.mp hin with heq | hin
      · cases heq
        refine ⟨hcall.called, ?_, fun _ a ha => Nat.ne_of_lt (hcall.applied a ha)⟩
        intro hbad
        rw [hdisposition] at hbad
        cases hbad
      · exact h.answered c answer hin
    · intro other hother
      cases hother
      refine howned.published hturn hphase ?_ ?_ ?_ ?_
      · rw [hdisposition]
        rfl
      · intro hbad
        replace hbad : s.unsure.isSome = true := hbad
        rw [hquiet] at hbad
        cases hbad
      · intro hbad
        exact absurd hbad (by simpa using hcertain)
      · intro c hc
        obtain ⟨hlater, hc'⟩ := hnext c hc
        exact ⟨hc'.called, hc'.applied, hc'.unsure, hunanswered hlater hc'⟩

/-- A step of the update in flight. -/
theorem Good.advance (h : Good rootOf s) (howner : s.owner = some o) (hturn : o.turn = .running r)
    {event : Event} {s' : State} (hstep : s.advance rootOf o r event = some s') : Good rootOf s' := by
  have howned := h.owned o howner
  obtain ⟨hopen, hok⟩ := howned.running r hturn
  rw [← howned.current] at hok
  have hgeneration := hok.generation
  have hphase := hok.phase
  have hturned : ∀ {after}, Turned rootOf o r.call after → Good rootOf (s.settle r.call after) := by
    intro after hafter
    have hline := howned.line
    have hfresh := howned.fresh
    rw [line_running hturn] at hline hfresh
    exact h.turned howned hline hfresh hafter fun _ => hopen
  unfold State.advance at hstep
  split at hstep
  next result =>
    split at hstep
    next =>
      cases hstep
      exact hturned (turned_validated hok result)
    next => cases hstep
  next result =>
    split at hstep
    next candidate hat =>
      rw [hat] at hphase
      cases hstep
      exact hturned (turned_depended hgeneration hphase result)
    next => cases hstep
  next result =>
    split at hstep
    next candidate hat =>
      rw [hat] at hphase
      cases hstep
      exact hturned (turned_headLoaded hgeneration hphase result)
    next => cases hstep
  next result =>
    split at hstep
    next candidate reference hat =>
      rw [hat] at hphase
      cases hstep
      have hend := howned.checkpointEnd
      rw [← howned.current] at hend
      exact hturned (turned_rootLoaded hgeneration hphase.1 hphase.2.1 hend result)
    next => cases hstep
  next result =>
    split at hstep
    next candidate noted hat =>
      rw [hat] at hphase
      cases hstep
      have hnext : PhaseOk rootOf o.current r.update (.revalidating candidate noted) := hphase
      exact hturned (turned_passed hgeneration hnext result)
    next => cases hstep
  next result =>
    split at hstep
    next candidate noted hat =>
      rw [hat] at hphase
      cases hstep
      have hnext : PhaseOk rootOf o.current r.update (.publishing candidate noted) := hphase
      exact hturned (turned_passed hgeneration hnext result)
    next => cases hstep
  next outcome fenced =>
    split at hstep
    next candidate noted hat =>
      cases hstep
      exact h.published howner hturn hat outcome fenced
    next => cases hstep
  next =>
    split at hstep
    next =>
      cases hstep
      exact hturned (turned_leave _)
    next => cases hstep
  next => cases hstep

/-- **The process stops**: what was being published may be found, and nothing else that is new. -/
theorem Good.stop (h : Good rootOf s) (howner : s.owner = some o) :
    Good rootOf { s with owner := none, unsure := (State.cutOff o).or s.unsure } := by
  have howned := h.owned o howner
  have hgone : ∀ other, (none : Option Owner) = some other → Owned rootOf
      { s with owner := none, unsure := (State.cutOff o).or s.unsure } other := by
    intro other hbad
    cases hbad
  refine { h with unsure := ?_, owned := hgone }
  intro a ha
  replace ha : (State.cutOff o).or s.unsure = some a := ha
  unfold State.cutOff at ha
  split at ha
  next call update generation candidate noted hturn =>
    cases ha
    have hfollows := howned.follows hturn rfl
    have hfresh := howned.fresh call (by rw [line_running hturn]; exact List.mem_cons_self)
    exact ⟨hfollows, hfresh.applied, hfresh.called,
      fun outcome hin => absurd hin (hfresh.unanswered outcome)⟩
  next =>
    rw [Option.none_or] at ha
    exact h.unsure a ha

/-- The control is opened over the record that is durable. -/
theorem Good.opened (h : Good rootOf s) (hquiet : s.unsure = none) {requireHead : Bool} {s' : State}
    (hstep : s.opened rootOf requireHead = some s') : Good rootOf s' := by
  unfold State.opened at hstep
  dsimp only at hstep
  obtain ⟨_, ⟨⟩⟩ := Option.ite_none_left_eq_some.mp hstep
  refine { h with once := List.not_mem_nil, owned := ?_ }
  intro other hother
  cases hother
  refine ⟨rfl, rfl, nofun, ?_, nofun,
    fun r hbad => (by cases hbad), List.Pairwise.nil, fun c hc => (by cases hc)⟩
  intro hbad
  replace hbad : s.unsure.isSome = true := hbad
  rw [hquiet] at hbad
  cases hbad

/-- What was unsure is not there. -/
theorem Good.forget (h : Good rootOf s) (howner : s.owner = none) :
    Good rootOf { s with unsure := none } := by
  refine { h with unsure := fun a hbad => (by cases hbad), owned := ?_ }
  intro o ho
  exact absurd (howner.symm.trans ho) (by simp)

/-- **What was unsure is there**, and is durable from here on. -/
theorem Good.find (h : Good rootOf s) (howner : s.owner = none) {a : Applied}
    (hunsure : s.unsure = some a) :
    Good rootOf { s with unsure := none, applied := a :: s.applied } := by
  obtain ⟨hfollows, hnewer, hcalled, hanswer⟩ := h.unsure a hunsure
  refine ⟨⟨hfollows, h.chained⟩, ?_, ?_, fun a hbad => (by cases hbad), ?_, h.once, ?_⟩
  · refine List.pairwise_cons.mpr ⟨?_, h.order⟩
    intro c hc
    obtain ⟨b, hb, rfl⟩ := List.mem_map.mp hc
    exact hnewer b hb
  · intro b hb
    rcases List.mem_cons.mp hb with rfl | hb
    · exact hcalled
    · exact h.numbered b hb
  · intro c outcome hin
    obtain ⟨hcalled, hdurable, huntouched⟩ := h.answered c outcome hin
    refine ⟨hcalled, ?_, ?_⟩
    · intro hd
      obtain ⟨b, hb, heq⟩ := hdurable hd
      exact ⟨b, List.mem_cons_of_mem _ hb, heq⟩
    · intro hu b hb
      rcases List.mem_cons.mp hb with rfl | hb
      · rintro rfl
        rw [hanswer outcome hin] at hu
        cases hu
      · exact huntouched hu b hb
  · intro o ho
    exact absurd (howner.symm.trans ho) (by simp)

/-- What an event does while there is an owner. -/
inductive Stepped (rootOf : RootReference → CheckpointRoot) (s : State) (o : Owner) : Event → State → Prop
  | stop : Stepped rootOf s o .stop { s with owner := none, unsure := (State.cutOff o).or s.unsure }
  | update (u : Update) (reserved : Except Failure Unit) :
    Stepped rootOf s o (.update u reserved) (s.update o u reserved)
  | marked {event : Event} (walWriterActive closing closed : Bool) :
    Stepped rootOf s o event { s with owner := some { o with walWriterActive, closing, closed } }
  | resume {call : Nat} {u : Update} (hturn : o.turn = .granted call u) : Stepped rootOf s o .resume (s.resume o call u)
  | advance {r : Running} {event : Event} {s' : State} (hturn : o.turn = .running r)
    (h : s.advance rootOf o r event = some s') : Stepped rootOf s o event s'

theorem stepped_of_step (howner : s.owner = some o) {event : Event} {s' : State}
    (hstep : s.step rootOf event = some s') : Stepped rootOf s o event s' := by
  unfold State.step at hstep
  rw [howner] at hstep
  cases event with
  | update u reserved =>
    cases hstep
    exact .update u reserved
  | attach active =>
    cases hstep
    exact .marked active o.closing o.closed
  | close =>
    dsimp only at hstep
    split at hstep
    next =>
      cases hstep
      have hsame := @Stepped.marked rootOf s o .close o.walWriterActive o.closing o.closed
      rw [← howner] at hsame
      exact hsame
    next =>
      cases hstep
      exact .marked o.walWriterActive true o.closed
  | closed =>
    obtain ⟨_, ⟨⟩⟩ := Option.ite_none_right_eq_some.mp hstep
    exact .marked o.walWriterActive o.closing true
  | stop =>
    cases hstep
    exact .stop
  | open_ found requireHead => cases hstep
  | resume =>
    dsimp only at hstep
    split at hstep
    next => cases hstep
    next call u hturn =>
      cases hstep
      exact .resume hturn
    next r hturn => exact .advance hturn hstep
  | _ =>
    dsimp only at hstep
    split at hstep
    next => cases hstep
    next => cases hstep
    next r hturn => exact .advance hturn hstep

/-- **Every event keeps it.** -/
theorem Good.step (h : Good rootOf s) {event : Event} {s' : State}
    (hstep : s.step rootOf event = some s') : Good rootOf s' := by
  cases howner : s.owner with
  | none =>
    unfold State.step at hstep
    rw [howner] at hstep
    cases event with
    | open_ found requireHead =>
      cases found with
      | false => exact (h.forget howner).opened rfl hstep
      | true =>
        obtain ⟨a, hunsure, hopened⟩ := Option.bind_eq_some_iff.mp hstep
        exact (h.find howner hunsure).opened rfl hopened
    | _ => cases hstep
  | some o =>
    cases stepped_of_step howner hstep with
    | stop => exact h.stop howner
    | update u reserved => exact h.update howner u reserved
    | marked walWriterActive closing closed =>
      exact h.owner ((h.owned o howner).same rfl rfl rfl rfl rfl rfl)
    | resume hturn => exact h.resume howner hturn
    | advance hturn hadvance => exact h.advance howner hturn hadvance

theorem reachable_good (h : (system rootOf).Reachable s) : Good rootOf s := by
  refine System.Run.invariant ?_ (fun _ _ _ _ hgood _ hstep => hgood.step hstep) h
  rintro s ⟨first, rfl⟩
  exact ⟨trivial, List.Pairwise.nil, fun a ha => (by cases ha), fun a ha => (by cases ha),
    fun c outcome hin => (by cases hin), List.not_mem_nil, fun o ho => (by cases ho)⟩

/-- The records follow each other all the way down. -/
theorem Chained.at {first : Snapshot} {applied newer older : List Applied} {a : Applied}
    (h : Chained rootOf first applied) (heq : applied = newer ++ a :: older) :
    Follows rootOf (latest first older) a := by
  subst heq
  induction newer with
  | nil => exact h.1
  | cons _ rest ih => exact ih h.2

/-- **Control updates take turns and never go back.** In every state that calls, failures, uncertain
    outcomes, closes, stops and openings lead to:

* every durable record after the first is its own edit of exactly the durable record before it, one
  generation later, with no mark, head or checkpoint that goes back (`Follows`);
* the records became durable in the order of their calls, each call at most once; an update that was
  answered as durable is among them, and one that was answered as untouched is not;
* `snapshot` is the last durable record, wherever it answers;
* an uncertain publication is the last of its owner, which then runs no update. -/
theorem control_updates (h : (system rootOf).Reachable s) :
    (∀ newer a older, s.applied = newer ++ a :: older → Follows rootOf (latest s.first older) a)
      ∧ (s.applied.map Applied.call).Pairwise (· > ·)
      ∧ (∀ call outcome, (call, outcome) ∈ s.replies →
        (outcome.disposition = .durable → ∃ a ∈ s.applied, a.call = call)
          ∧ (outcome.disposition = .untouched → ∀ a ∈ s.applied, a.call ≠ call))
      ∧ (∀ o record, s.owner = some o → o.snapshot = .ok record → record = s.durable)
      ∧ (∀ newer older, s.publications = newer ++ .uncertain :: older → newer = []
        ∧ ∀ o, s.owner = some o → o.fenced = true ∧ ∀ r, o.turn ≠ .running r) := by
  have hgood := reachable_good h
  refine ⟨fun newer a older heq => hgood.chained.at heq, hgood.order, ?_, ?_, ?_⟩
  · intro call outcome hin
    exact (hgood.answered call outcome hin).2
  · intro o record howner hsnapshot
    unfold Owner.snapshot at hsnapshot
    split at hsnapshot
    next => cases hsnapshot
    next =>
      rw [← (hgood.owned o howner).current]
      exact (Except.ok.inj hsnapshot).symm
  · intro newer older heq
    have hin : Disposition.uncertain ∈ s.publications := by
      rw [heq]
      exact List.mem_append_right _ List.mem_cons_self
    refine ⟨?_, ?_⟩
    · cases newer with
      | nil => rfl
      | cons newest rest =>
        refine absurd ?_ hgood.once
        rw [heq]
        exact List.mem_append_right _ List.mem_cons_self
    · intro o howner
      have howned := hgood.owned o howner
      have hfenced := howned.uncertain hin
      refine ⟨hfenced, ?_⟩
      intro r hturn
      have hopen := (howned.running r hturn).1
      rw [hfenced] at hopen
      cases hopen

end Steps

/-! ## Two updates, one that is uncertain, and a stop -/

def exampleFields : Fields where
  walHigh := 3
  objectHigh := 0
  decisionHigh := 0
  deletionHigh := 0
  checkpoint := none
  walHead := none

/-- An update that reserves identities, as the allocator makes it. -/
def reserve (count : Nat) : Update where
  edit fields := .ok { fields with objectHigh := fields.objectHigh + count }
  validates := false

def exampleRoots (_ : RootReference) : CheckpointRoot := ⟨⟨1, 0⟩, ⟨1, 0⟩⟩

/-- The steps of an update that has the turn, up to its publication. -/
def prepares : List Event :=
  [.validated (.ok ()), .depended (.ok ()), .encoded (.ok ()), .revalidated (.ok ())]

/-- One update becomes durable while another waits, whose publication is uncertain; a third is turned
    away, and the record of the second is found after the stop. -/
def exampleEvents : List Event :=
  [.open_ false false, .update (reserve 5) (.ok ()), .update (reserve 7) (.ok ())]
    ++ prepares ++ [.published { disposition := .durable } false, .resume]
    ++ prepares ++ [.published { disposition := .uncertain, failure := some .thrown } true,
      .update (reserve 1) (.ok ()), .stop, .open_ true false]

def exampleState : State :=
  ((system exampleRoots).exec { first := ⟨1, exampleFields⟩ } exampleEvents).getD
    { first := ⟨1, exampleFields⟩ }

theorem exampleState_reachable : (system exampleRoots).Reachable exampleState := by
  have hstart : (system exampleRoots).Reachable { first := ⟨1, exampleFields⟩ } := .init ⟨_, rfl⟩
  have hexec : (system exampleRoots).exec { first := ⟨1, exampleFields⟩ } exampleEvents
      = some exampleState := rfl
  exact System.Run.of_exec hstart hexec

/-- Both edits are in the record that is opened, in the order of their calls. -/
theorem example_updates : exampleState.applied.map Applied.call = [1, 0]
    ∧ exampleState.durable.generation = 3 ∧ exampleState.durable.fields.objectHigh = 12
    ∧ ∀ newer a older, exampleState.applied = newer ++ a :: older →
      Follows exampleRoots (latest exampleState.first older) a := by
  refine ⟨by decide +kernel, by decide +kernel, by decide +kernel, ?_⟩
  exact (control_updates exampleState_reachable).1

end KwaqueStorage.Control
