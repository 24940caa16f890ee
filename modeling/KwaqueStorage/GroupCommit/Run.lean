import KwaqueStorage.GroupCommit.Apart

/-!
# Group commit over every interleaving

Submissions, deadlines, forces, rotations, stops, completed writes, barriers and the close, in any order
in which the code can take them. Each keeps the queue in its shape and the tasks apart, so a ticket is
settled once and in its turn, and no assertion of the owner fails.
-/

namespace KwaqueStorage.GroupCommit

open Lib

section Events

variable {s : State}

/-! ## The callers -/

/-- A close that is not under way and not over has not begun. -/
theorem Tasked.unclosed (h : Tasked s) (hclosing : s.commit.closing = false)
    (hclosed : s.commit.closed = false) : s.closer = .none := by
  by_contra hcloser
  rcases h.closing hcloser with hbad | hbad
  · rw [hclosing] at hbad
    cases hbad
  · rw [hclosed] at hbad
    cases hbad

theorem Tasked.unrotated (h : Tasked s) (hrotating : s.commit.rotating = false) : s.rotator = .none := by
  by_contra hr
  have hrotates := (h.rotator hr).1
  rw [hrotating] at hrotates
  cases hrotates

/-- **A caller that consumes finds no other task.** -/
theorem Tasked.consumes (h : Tasked s) (hc : s.consumes = true) :
    Quiet s ∧ s.service = .off ∧ s.rotator = .none ∧ s.closer = .none
      ∧ s.commit.serviceEnabled = false ∧ ∀ place, s.flushAt place = none := by
  simp only [State.consumes, Bool.and_eq_true, Bool.not_eq_true'] at hc
  obtain ⟨⟨⟨⟨⟨hclosing, hclosed⟩, hservice⟩, hrotating⟩, hwaiting⟩, hjoining⟩ := hc
  refine ⟨h.quiet hwaiting hjoining, ?_, h.unrotated hrotating, h.unclosed hclosing hclosed, hservice, ?_⟩
  · by_contra hon
    have henabled := (h.service hon).1
    rw [hservice] at henabled
    cases henabled
  · intro place
    cases hf : s.flushAt place with
    | none => rfl
    | some f =>
      have hjoins := (h.flush place f hf).joining
      rw [hjoining] at hjoins
      cases hjoins

theorem Tasked.consumes_alone (h : Tasked s) (hc : s.consumes = true) :
    Alone s.commit.serviceEnabled s.closer s.rotator := by
  obtain ⟨_, _, hrotator, hcloser, hservice, _⟩ := h.consumes hc
  rw [hrotator, hcloser]
  exact ⟨hservice, rfl, rfl⟩

/-- What `reserve` takes. -/
theorem reserve_ok {q q' : Commit} {members origin now : Nat} {p : Pending}
    (h : q.reserve members origin now = .ok (p, q')) :
    q.slots ≠ 0 ∧ q' = { q with slots := q.slots - 1 } := by
  unfold Commit.reserve at h
  split at h
  next => cases h
  next =>
    split at h
    next => cases h
    next =>
      split at h
      next => cases h
      next =>
        split at h
        next => cases h
        next hslots =>
          obtain ⟨_, rfl⟩ := Prod.mk.inj (Except.ok.inj h)
          exact ⟨hslots, rfl⟩

/-- Groups come and go that hold a slot and are not in the queue. -/
theorem Live.holding (h : Live s) {slots retained : Nat} {reserved : List Pending}
    {submission : Option Pending} {submitting : Bool}
    (hsubmission : submission.isSome = true → submitting = true ∧ s.closer.early = true)
    (hslots : slots + (reserved.length + (if submission.isSome then 1 else 0) + retained)
      = s.commit.slots + (s.reserved.length + (if s.submission.isSome then 1 else 0) + s.retained)) :
    Live { s with
      commit := { s.commit with slots, submitting }, reserved, submission, retained } := by
  refine ⟨h.kept.congr rfl rfl rfl rfl rfl rfl rfl rfl rfl rfl, ?_⟩
  refine { h.tasked with submission := hsubmission, slots := ?_ }
  have hall := h.tasked.slots
  unfold State.held at hall ⊢
  dsimp only
  omega

/-- A submission that is let in finds that the close has not begun. -/
theorem Tasked.submits (h : Tasked s) (hs : s.submits = true) :
    s.closer.early = true ∧ s.submission = none := by
  simp only [State.submits, Bool.and_eq_true, Bool.not_eq_true'] at hs
  obtain ⟨⟨⟨⟨⟨_, hclosing⟩, hclosed⟩, _⟩, hsubmitting⟩, _⟩ := hs
  refine ⟨?_, ?_⟩
  · rw [h.unclosed hclosing hclosed]
    rfl
  · cases hsubmission : s.submission with
    | none => rfl
    | some p =>
      have hsubmits := (h.submission (by rw [hsubmission]; rfl)).1
      rw [hsubmitting] at hsubmits
      cases hsubmits

theorem Closer.fills_of_early {c : Closer} (h : c.early = true) : c.empties = false := by
  cases c with
  | none => rfl
  | gate => rfl
  | _ => cases h

/-- **A group is installed.** -/
theorem Live.installed (h : Live s) {pending : Pending} (hpending : s.submission = some pending)
    (submission : Submission) (now : Nat) :
    Live { s with
      commit := { s.commit.install pending submission now with submitting := false }
      submission := none } := by
  obtain ⟨_, hearly⟩ := h.tasked.submission (by rw [hpending]; rfl)
  obtain ⟨hflags, hactive, hbarriers, hlength⟩ := Commit.install_frame s.commit pending submission now
  simp only [Commit.flags, Commit.Flags.mk.injEq] at hflags
  obtain ⟨hconfig, hslots, hrotating, _, hwaiting, hjoining, hflushing, hservice, hclosing, hclosed⟩ := hflags
  have hkept := Commit.kept_install h.kept pending submission now
  -- the group leaves the submission first, as one that somebody holds, and joins the queue from there
  have hsubmitted : Live { s with
      commit := { s.commit with submitting := false }, submission := none, retained := s.retained + 1 } := by
    refine h.holding (by simp) ?_
    rw [hpending]
    simp only [Option.isSome_none, Option.isSome_some, Bool.false_eq_true, if_false, if_true]
    omega
  refine ⟨hkept.congr rfl rfl rfl rfl rfl rfl rfl rfl rfl rfl, ?_⟩
  have hopen : s.closer.empties = false := Closer.fills_of_early hearly
  have ht := hsubmitted.tasked
  refine ⟨?_, ?_, ?_, ?_, ?_, ?_, ?_, by simp, ?_, ?_, ?_, ?_, ?_, ?_⟩
  all_goals dsimp only
  · rw [hservice]
    exact ht.worker
  · rw [hservice, hactive, hjoining, hflushing]
    exact ht.joiner
  · rw [hservice, hwaiting]
    exact ht.waiter
  · rw [hservice]
    exact ht.service
  · rw [hactive]
    exact ht.selected
  · rw [hrotating]
    exact ht.rotator
  · rw [hclosing, hclosed]
    exact ht.closing
  · rw [hjoining, hflushing, hactive, hbarriers]
    exact ht.flush
  · rw [hopen]
    intro hover
    cases hover
  · rw [hclosed]
    exact ht.closed
  · have hall := ht.slots
    unfold State.held at hall ⊢
    dsimp only at hall ⊢
    rw [hconfig, hslots, hlength]
    omega
  · rw [hflushing, hjoining]
    exact ht.paired
  · rw [hconfig]
    exact ht.valid

/-! ## What the callers do with their groups -/

theorem Live.reserves (h : Live s) {members origin now : Nat} {pending : Pending} {q : Commit}
    (hok : s.commit.reserve members origin now = .ok (pending, q)) :
    Live { s with commit := q, reserved := s.reserved ++ [pending] } := by
  obtain ⟨hslots, rfl⟩ := reserve_ok hok
  refine h.holding h.tasked.submission ?_
  rw [List.length_append, List.length_singleton]
  omega

theorem Live.dropAdmission (h : Live s) {at_ : Nat} (hat : at_ < s.reserved.length) :
    Live { s with
      reserved := s.reserved.eraseIdx at_, commit := { s.commit with slots := s.commit.slots + 1 } } := by
  refine h.holding h.tasked.submission ?_
  rw [List.length_eraseIdx_of_lt hat]
  omega

theorem Live.release (h : Live s) (hsome : s.retained ≠ 0) :
    Live { s with
      retained := s.retained - 1, commit := { s.commit with slots := s.commit.slots + 1 } } := by
  refine h.holding h.tasked.submission ?_
  omega

theorem Live.submit (h : Live s) (hs : s.submits = true) {members origin now : Nat} {pending : Pending}
    {q : Commit} (hok : s.commit.reserve members origin now = .ok (pending, q)) :
    Live { s with commit := { q with submitting := true }, submission := some pending } := by
  obtain ⟨hslots, rfl⟩ := reserve_ok hok
  obtain ⟨hearly, hnone⟩ := h.tasked.submits hs
  refine h.holding (fun _ => ⟨rfl, hearly⟩) ?_
  rw [hnone]
  simp only [Option.isSome_none, Option.isSome_some, Bool.false_eq_true, if_false, if_true]
  omega

theorem Live.submitAdmitted (h : Live s) (hs : s.submits = true) {at_ : Nat} (pending : Pending)
    (hat : at_ < s.reserved.length) :
    Live { s with
      commit := { s.commit with submitting := true }
      reserved := s.reserved.eraseIdx at_
      submission := some pending } := by
  obtain ⟨hearly, hnone⟩ := h.tasked.submits hs
  refine h.holding (fun _ => ⟨rfl, hearly⟩) ?_
  rw [hnone, List.length_eraseIdx_of_lt hat]
  simp only [Option.isSome_none, Option.isSome_some, Bool.false_eq_true, if_false, if_true]
  omega

/-- The writer took nothing. -/
theorem Live.refused (h : Live s) {pending : Pending} (hpending : s.submission = some pending) :
    Live { s with
      commit := { s.commit with submitting := false, slots := s.commit.slots + 1 }
      submission := none } := by
  refine h.holding nofun ?_
  rw [hpending]
  simp only [Option.isSome_none, Option.isSome_some, Bool.false_eq_true, if_false, if_true]
  omega

/-! ## What is captured, and who waits for it -/

theorem Live.captured (h : Live s) (now : Nat) : Live { s with commit := (s.commit.capture now).2 } := by
  obtain ⟨hflags, hbarriers, hlength, hactive, _⟩ := Commit.capture_frame s.commit now
  exact ⟨Commit.kept_capture h.kept h.tasked.short now,
    h.tasked.same hflags hactive hlength fun _ hin => hbarriers ▸ hin⟩

/-- Somebody waits for a capture, or nobody does any more. -/
theorem Live.awaits (h : Live s) (waiting : Bool)
    (hover : waiting = false → s.waiter = false) :
    Live { s with commit := { s.commit with waiting } } := by
  refine ⟨h.kept.congr rfl rfl rfl rfl rfl rfl rfl rfl rfl rfl, ?_⟩
  refine { h.tasked with waiter := fun hw => ⟨(h.tasked.waiter hw).1, ?_⟩ }
  by_contra hnot
  rw [hover (Bool.eq_false_of_not_eq_true hnot)] at hw
  cases hw

theorem Tasked.withWaiter (h : Tasked s) (x : Bool)
    (hwaits : x = true → Alone s.commit.serviceEnabled s.closer s.rotator ∧ s.commit.waiting = true) :
    Tasked { s with waiter := x } :=
  { h with waiter := hwaits }

/-- The service is off where a caller's task rests on that. -/
theorem Tasked.off (h : Tasked s) (ha : Alone s.commit.serviceEnabled s.closer s.rotator) :
    s.service = .off := by
  by_contra hon
  have henabled := (h.service hon).1
  rw [ha.disabled] at henabled
  cases henabled

/-- While the service runs no task of a caller does. -/
theorem Tasked.served (h : Tasked s) (hon : s.service ≠ .off) : Quiet s :=
  h.quiet_of_served fun ha => hon (h.off ha)

theorem Live.waitCapture (h : Live s) (hc : s.consumes = true) :
    Live { s with waiter := true, commit := { s.commit with waiting := true } } := by
  have hwaits := h.awaits true nofun
  exact ⟨hwaits.kept, hwaits.tasked.withWaiter true fun _ => ⟨h.tasked.consumes_alone hc, rfl⟩⟩

/-- **One look for a capture.** -/
theorem Live.looks (h : Live s) (now : Nat) {found : Capture → State → State} {ended : State → State}
    (hfound : ∀ c commit, Live { s with commit } → commit.active = some c →
      Live (found c { s with commit := { commit with waiting := false } }))
    (hended : Live (ended { s with commit := { s.commit with waiting := false } })) :
    Live (s.looks now found ended) := by
  have hcaptured := h.captured now
  obtain ⟨_, _, _, _, hselects, hnothing⟩ := Commit.capture_frame s.commit now
  unfold State.looks
  split
  next c commit heq =>
    rw [heq] at hcaptured hselects
    exact hfound c commit hcaptured (hselects c rfl)
  next commit heq =>
    rw [heq] at hnothing
    obtain rfl := hnothing rfl
    split
    next => exact hended
    next => exact h

theorem Live.waiterOver (h : Live s) :
    Live { s with commit := { s.commit with waiting := false }, waiter := false } := by
  have hgone : Live { s with waiter := false } :=
    ⟨h.kept, h.tasked.withWaiter false nofun⟩
  exact hgone.awaits false fun _ => rfl

/-! ## The service -/

theorem Live.serviceAt (h : Live s) (hon : s.service ≠ .off) {x : Service}
    (hselected : ∀ c, x = .selected c → s.commit.active = some c)
    (hidle : ∀ f, x ≠ .flush f ∧ x ≠ .drain (.flush f)) : Live { s with service := x } := by
  refine ⟨h.kept, h.tasked.withService x (fun _ => h.tasked.service hon) hselected ?_⟩
  rintro f (hbad | hbad)
  · exact absurd hbad (hidle f).1
  · exact absurd hbad (hidle f).2

theorem Live.start (h : Live s) (hc : s.consumes = true) :
    Live { s with commit := { s.commit with serviceEnabled := true }, service := .looping } := by
  obtain ⟨hquiet, _, hrotator, hcloser, _, hidle⟩ := h.tasked.consumes hc
  refine ⟨h.kept.congr rfl rfl rfl rfl rfl rfl rfl rfl rfl rfl, ?_⟩
  refine ⟨fun f hf => absurd hf (hquiet.worker f), ?_, ?_, ?_,
    fun c hbad => (by cases hbad), h.tasked.rotator, h.tasked.closing, h.tasked.submission, ?_,
    h.tasked.empties, h.tasked.closed, h.tasked.slots, h.tasked.paired, h.tasked.valid⟩
  · intro c hj
    rw [show s.joiner = none from hquiet.joiner] at hj
    cases hj
  · intro hw
    rw [show s.waiter = false from hquiet.waiter] at hw
    cases hw
  · intro _
    dsimp only
    rw [hcloser, hrotator]
    exact ⟨rfl, rfl, rfl⟩
  · intro place f hf
    have hnone := hidle place
    cases place with
    | service => cases hf
    | serviceDrain => cases hf
    | worker => cases hnone.symm.trans hf
    | rotate => cases hnone.symm.trans hf
    | close => cases hnone.symm.trans hf

theorem Live.serviceLooks (h : Live s) (hw : s.service = .waiting) (now : Nat) :
    Live (s.looks now (fun c s => { s with service := .selected c }) fun s => { s with service := .done }) := by
  have hon : s.service ≠ .off := by
    rw [hw]
    exact nofun
  have hquiet := h.tasked.served hon
  refine h.looks now ?_ ?_
  · intro c commit hlive hactive
    have hselected : Live { s with commit, service := .selected c } := by
      refine hlive.serviceAt hon ?_ fun f => ⟨nofun, nofun⟩
      intro d hd
      cases hd
      exact hactive
    exact hselected.awaits false fun _ => hquiet.waiter
  · have hdone : Live { s with service := .done } :=
      h.serviceAt hon (fun c hbad => (by cases hbad)) fun f => ⟨nofun, nofun⟩
    exact hdone.awaits false fun _ => hquiet.waiter

theorem Live.serviceFlushes (h : Live s) {c : Capture} (hc : s.service = .selected c) :
    Live (s.flushOwned .service c) := by
  have hon : s.service ≠ .off := by
    rw [hc]
    exact nofun
  have hfit : Fit s .service := hon
  exact h.flushOwned hfit trivial (h.tasked.served hon).joiner (h.tasked.selected c hc)

/-- The service falls back to a drain. -/
theorem Live.serviceThrows (h : Live s) (hon : s.service ≠ .off) :
    Live { s with commit := s.commit.coordinatorFails .thrown, service := .drain .settle } := by
  have hfails := h.step (Commit.kept_coordinatorFails h.kept .thrown) (Commit.same_coordinatorFails .thrown)
  exact hfails.serviceAt hon (fun c hbad => (by cases hbad)) fun f => ⟨nofun, nofun⟩

/-! ## The tasks of a caller -/

theorem Live.flush (h : Live s) (hc : s.consumes = true) {c : Capture} (hactive : s.commit.active = some c) :
    Live (s.flushOwned .worker c) := by
  have hfit : Fit s .worker := h.tasked.consumes_alone hc
  exact h.flushOwned hfit trivial (h.tasked.consumes hc).1.joiner hactive

theorem Tasked.withJoiner (h : Tasked s) (x : Option Capture)
    (hjoins : ∀ c, x = some c → Alone s.commit.serviceEnabled s.closer s.rotator
      ∧ s.commit.active = some c ∧ s.commit.joining = true ∧ s.commit.flushing = false) :
    Tasked { s with joiner := x } :=
  { h with joiner := hjoins }

/-- Nothing flushes and nobody joins, whatever the owner says of it. -/
theorem Live.joining (h : Live s) (joining : Bool) (hjoiner : s.joiner = none)
    (hflushing : s.commit.flushing = false) : Live { s with commit := { s.commit with joining } } := by
  refine ⟨h.kept.congr rfl rfl rfl rfl rfl rfl rfl rfl rfl rfl, ?_⟩
  refine { h.tasked with joiner := ?_, flush := ?_, paired := ?_ }
  · intro c hc
    rw [show s.joiner = none from hjoiner] at hc
    cases hc
  · intro place f hf
    have hflushes := (h.tasked.flush place f hf).flushing
    rw [hflushing] at hflushes
    cases hflushes
  · intro hflushes
    rw [show s.commit.flushing = false from hflushing] at hflushes
    cases hflushes

/-- `join_written` goes on. -/
theorem Live.joins (h : Live s) {c : Capture}
    (ha : Alone s.commit.serviceEnabled s.closer s.rotator) (hactive : s.commit.active = some c)
    (hjoining : s.commit.joining = true) (hflushing : s.commit.flushing = false) : Live (s.joins c) := by
  unfold State.joins
  split
  next =>
    refine ⟨h.kept, h.tasked.withJoiner (some c) ?_⟩
    intro d hd
    cases hd
    exact ⟨ha, hactive, hjoining, hflushing⟩
  next =>
    have hnone : Live { s with joiner := none } :=
      ⟨h.kept, h.tasked.withJoiner none fun d hbad => (by cases hbad)⟩
    exact hnone.joining false rfl hflushing

theorem Live.joinWritten (h : Live s) (hc : s.consumes = true) {c : Capture}
    (hactive : s.commit.active = some c) :
    Live ({ s with commit := { s.commit with joining := true } }.joins c) := by
  have hflushing : s.commit.flushing = false := by
    by_contra hbad
    have hjoining := h.tasked.paired (Bool.eq_true_of_not_eq_false hbad)
    simp only [State.consumes, Bool.and_eq_true, Bool.not_eq_true'] at hc
    rw [hc.2] at hjoining
    cases hjoining
  have hjoins := h.joining true (h.tasked.consumes hc).1.joiner hflushing
  exact hjoins.joins (h.tasked.consumes_alone hc) hactive rfl hflushing

theorem Live.joinerWritten (h : Live s) {c : Capture} (hc : s.joiner = some c) (id : Nat)
    (failure : Option Fault) : Live ({ s with commit := s.commit.join id failure }.joins c) := by
  have hjoined := h.step (Commit.kept_join h.kept id failure) (Commit.same_join id failure)
  obtain ⟨ha, hactive, hjoining, hflushing⟩ := hjoined.tasked.joiner c hc
  exact hjoined.joins ha hactive hjoining hflushing

/-- A caller gives a capture up. -/
theorem Live.retireWritten (h : Live s) (hc : s.consumes = true) {c : Capture}
    (hactive : s.commit.active = some c) :
    Live { s with commit := s.commit.retireWritten c, retained := s.retained + c.nodes.length } := by
  obtain ⟨hquiet, hoff, _, _, _, hidle⟩ := h.tasked.consumes hc
  have hgroups := h.kept.groups hactive
  refine ⟨Commit.kept_retireWritten h.kept hactive, h.tasked.commit rfl rfl rfl rfl rfl rfl rfl ?_ ?_ ?_ ?_
    h.tasked.paired ?_⟩
  · intro d hd
    rw [hoff] at hd
    cases hd
  · intro d hd
    rw [hquiet.joiner] at hd
    cases hd
  · intro place f hf
    rw [hidle place] at hf
    cases hf
  · intro hnil
    unfold Commit.retireWritten
    dsimp only
    rw [hnil, List.drop_nil]
  · unfold Commit.retireWritten
    dsimp only
    rw [List.length_drop]
    omega

/-! ## Rotation and close -/

theorem Live.rotate (h : Live s) (hclosing : s.commit.closing = false) (hclosed : s.commit.closed = false)
    (hrotating : s.commit.rotating = false) :
    Live { s with commit := { s.commit with rotating := true }.force, rotator := .service } := by
  have hrotator := h.tasked.unrotated hrotating
  have hcloser := h.tasked.unclosed hclosing hclosed
  have hmarked : Live { s with commit := { s.commit with rotating := true } } := by
    refine ⟨h.kept.congr rfl rfl rfl rfl rfl rfl rfl rfl rfl rfl, ?_⟩
    refine { h.tasked with rotator := ?_ }
    intro hr
    exact absurd hrotator hr
  have hforced := hmarked.step (Commit.kept_force hmarked.kept) Commit.same_force
  refine ⟨hforced.kept, hforced.tasked.withRotator .service ?_ nofun
    nofun fun f hbad => (by cases hbad)⟩
  intro _
  refine ⟨?_, ?_⟩
  · have hflags := congrArg Commit.Flags.rotating (@Commit.same_force { s.commit with rotating := true }).flags
    exact hflags
  · dsimp only
    rw [hcloser]
    rfl

/-- The service has ended: it is off from here. -/
theorem Live.served (h : Live s) : Live { s with service := .off } :=
  ⟨h.kept, h.tasked.withService .off (fun hbad => absurd rfl hbad)
    (fun c hbad => (by cases hbad)) fun f hbad => (by rcases hbad with hbad | hbad <;> cases hbad)⟩

theorem Live.rotateServed (h : Live s) (hr : s.rotator = .service) :
    Live { s with service := .off, rotator := .drain .settle } := by
  have hsome : s.rotator ≠ .none := by
    rw [hr]
    exact nofun
  have hoff := h.served
  exact ⟨hoff.kept, hoff.tasked.withRotator (.drain .settle) (fun _ => h.tasked.rotator hsome)
    nofun (fun _ => rfl) fun f hbad => (by cases hbad)⟩

theorem Live.rotated (h : Live s) (hr : s.rotator = .writer) {threw : Bool} {failure : Option Fault}
    {scope : Option (Except Errc Boundary)} {restarts : Bool} {s' : State}
    (hstep : s.step (.rotated threw failure scope restarts) = some s') : Live s' := by
  have hends : ∀ q : Commit, Live { s with commit := q } → Live (State.rotateEnds { s with commit := q } restarts) := by
    intro q hq
    refine hq.rotateEnds ?_ restarts
    dsimp only
    rw [hr]
    rfl
  have hremembers := h.step (Commit.kept_remember h.kept failure) (@Commit.same_remember s.commit failure)
  have hfails : ∀ why : Fault, Live { s with commit := (s.commit.remember failure).coordinatorFails why } :=
    fun why => hremembers.step (Commit.kept_coordinatorFails hremembers.kept why)
      (Commit.same_coordinatorFails why)
  simp only [State.step, hr, if_true] at hstep
  split at hstep
  next =>
    cases hstep
    refine hends _ ?_
    split
    next => exact hremembers
    next => exact hfails .thrown
  next =>
    split at hstep
    next =>
      cases hstep
      exact hends _ hremembers
    next code =>
      cases hstep
      exact hends _ (hfails (.error code))
    next scope =>
      cases hstep
      refine hends _ ⟨hremembers.kept.congr rfl rfl rfl rfl rfl rfl rfl rfl rfl rfl, ?_⟩
      exact hremembers.tasked.same rfl (fun _ hc => hc) rfl fun _ hin => hin

theorem Live.close (h : Live s) (hclosed : s.commit.closed = false) :
    Live { s with commit := { s.commit with closing := true }.requestStop, closer := .gate } := by
  have hmarked : Live { s with commit := { s.commit with closing := true } } := by
    refine ⟨h.kept.congr rfl rfl rfl rfl rfl rfl rfl rfl rfl rfl, ?_⟩
    exact { h.tasked with closing := fun _ => .inl rfl }
  have hstops := hmarked.step (Commit.kept_requestStop hmarked.kept) Commit.same_requestStop
  have hflags := (@Commit.same_requestStop { s.commit with closing := true }).flags
  refine ⟨hstops.kept, hstops.tasked.withCloser .gate ?_ nofun
    nofun nofun ?_ fun f hbad => (by cases hbad)⟩
  · intro _
    exact .inl (congrArg Commit.Flags.closing hflags)
  · intro hover
    have hsame : _ = s.commit.closed := congrArg Commit.Flags.closed hflags
    have hbad := hsame.symm.trans hover
    rw [hclosed] at hbad
    cases hbad

theorem Live.closeEntered (h : Live s) (hc : s.closer = .gate) (hgate : s.gateEmpty = true) :
    Live { s with commit := s.commit.force, closer := .service } := by
  have hforced := h.step (Commit.kept_force h.kept) Commit.same_force
  have hsome : s.closer ≠ .none := by
    rw [hc]
    exact nofun
  simp only [State.gateEmpty, Bool.and_eq_true, Bool.not_eq_true', Option.isNone_iff_eq_none,
    decide_eq_true_eq] at hgate
  obtain ⟨⟨⟨⟨hsubmission, hwaiter⟩, hjoiner⟩, hrotator⟩, hworker⟩ := hgate
  refine ⟨hforced.kept, hforced.tasked.withCloser .service (fun _ => hforced.tasked.closing hsome) ?_
    nofun nofun ?_ fun f hbad => (by cases hbad)⟩
  · intro _
    refine ⟨⟨?_, hjoiner, hwaiter⟩, hrotator, hsubmission⟩
    intro f hf
    rw [show s.worker = .running f from hf] at hworker
    cases hworker
  · intro hover
    have hempties := hforced.tasked.closed hover
    rw [show s.closer = .gate from hc] at hempties
    cases hempties

theorem Live.closeServed (h : Live s) (hc : s.closer = .service) :
    Live { s with service := .off, closer := .drain .settle } := by
  have hlate : s.closer.early = false := by
    rw [hc]
    rfl
  have hsome : s.closer ≠ .none := by
    rw [hc]
    exact nofun
  have hoff := h.served
  refine ⟨hoff.kept, hoff.tasked.withCloser (.drain .settle) (fun _ => h.tasked.closing hsome)
    (fun _ => hoff.tasked.closer_late hlate) (fun _ => rfl) nofun ?_
    fun f hbad => (by cases hbad)⟩
  intro hover
  have hempties := h.tasked.closed hover
  rw [hc] at hempties
  cases hempties

/-- The close is over. Nothing was active, and no cohort formed. -/
theorem Live.closeDone (h : Live s) (hc : s.closer = .observers) :
    Live { s with
      commit := { s.commit with active := none, formingTail := none, closed := true, closing := false }
      closer := .done } := by
  have hempties : s.closer.empties = true := by
    rw [hc]
    rfl
  have hnil := h.tasked.empties hempties
  have hactive : s.commit.active = none := by
    cases hactive : s.commit.active with
    | none => rfl
    | some c =>
      have hgroups := h.kept.groups hactive
      rw [hnil] at hgroups
      have hbounds := h.kept.bounded c (h.kept.active c hactive)
      exact absurd (List.length_eq_zero_iff.mp (Nat.le_zero.mp hgroups)) hbounds.1
  have hforming : s.commit.formingTail = none := by
    obtain ⟨cohorts, tail, hshape⟩ := h.kept.shape
    have hqueue := hshape.queue
    rw [hnil] at hqueue
    rw [hshape.forming, (List.append_eq_nil_iff.mp hqueue.symm).2]
    rfl
  have hmarked : Live { s with
      commit := { s.commit with active := none, formingTail := none, closed := true, closing := false } } := by
    refine ⟨h.kept.congr rfl hforming.symm rfl rfl rfl rfl hactive.symm rfl rfl rfl, ?_⟩
    have ht := h.tasked
    refine ⟨ht.worker, ?_, ht.waiter, ht.service, ?_, ht.rotator, fun _ => .inr rfl, ht.submission,
      ?_, ht.empties, fun _ => hempties, ht.slots, ht.paired, ht.valid⟩
    · dsimp only
      rw [← hactive]
      exact ht.joiner
    · dsimp only
      rw [← hactive]
      exact ht.selected
    · dsimp only
      rw [← hactive]
      exact ht.flush
  have hlate : s.closer.waits = false := by
    rw [hc]
    rfl
  refine ⟨hmarked.kept, hmarked.tasked.closes hlate .done ?_ fun f hbad => (by cases hbad)⟩
  exact ⟨fun _ => hempties, fun _ => rfl⟩

end Events

/-! ## Every event -/

/-- **Whatever happens, the queue keeps its shape and the tasks keep apart.** -/
theorem Live.steps {s s' : State} {e : Event} (h : Live s) (hstep : s.step e = some s') : Live s' := by
  cases e with
  | reserve members origin now =>
    simp only [State.step] at hstep
    split at hstep
    next =>
      split at hstep
      next => cases hstep
      next pending q hok =>
        cases hstep
        exact h.reserves hok
    next => cases hstep
  | dropAdmission at_ =>
    obtain ⟨hat, ⟨⟩⟩ := Option.ite_none_right_eq_some.mp hstep
    exact h.dropAdmission hat
  | release =>
    obtain ⟨hsome, ⟨⟩⟩ := Option.ite_none_left_eq_some.mp hstep
    exact h.release hsome
  | submit members origin now =>
    simp only [State.step] at hstep
    split at hstep
    next hs =>
      split at hstep
      next => cases hstep
      next pending q hok =>
        cases hstep
        exact h.submit hs hok
    next => cases hstep
  | submitAdmitted at_ members =>
    simp only [State.step] at hstep
    split at hstep
    next hs =>
      split at hstep
      next => cases hstep
      next pending hpending =>
        obtain ⟨_, ⟨⟩⟩ := Option.ite_none_left_eq_some.mp hstep
        exact h.submitAdmitted hs _ (List.getElem?_eq_some_iff.mp hpending).1
    next => cases hstep
  | submitted submission now =>
    simp only [State.step] at hstep
    split at hstep
    next => cases hstep
    next pending hpending =>
      split at hstep
      next =>
        cases hstep
        exact h.refused hpending
      next submission =>
        obtain ⟨_, ⟨⟩⟩ := Option.ite_none_right_eq_some.mp hstep
        exact h.installed hpending submission now
  | capture now =>
    cases hstep
    exact h.captured now
  | force =>
    cases hstep
    exact h.step (Commit.kept_force h.kept) Commit.same_force
  | requestStop =>
    cases hstep
    exact h.step (Commit.kept_requestStop h.kept) Commit.same_requestStop
  | waitCapture =>
    obtain ⟨hc, ⟨⟩⟩ := Option.ite_none_right_eq_some.mp hstep
    exact h.waitCapture hc
  | waiterLooks now =>
    obtain ⟨_, ⟨⟩⟩ := Option.ite_none_right_eq_some.mp hstep
    refine h.looks now ?_ h.waiterOver
    intro c commit hlive _
    exact hlive.waiterOver
  | sleepFails why =>
    simp only [State.step] at hstep
    split at hstep
    next =>
      split at hstep
      next =>
        cases hstep
        exact h.step (Commit.kept_requestStop h.kept) Commit.same_requestStop
      next why =>
        cases hstep
        exact h.step (Commit.kept_coordinatorFails h.kept why) (Commit.same_coordinatorFails why)
    next => cases hstep
  | start =>
    obtain ⟨hc, ⟨⟩⟩ := Option.ite_none_right_eq_some.mp hstep
    exact h.start hc.1
  | serviceLoops =>
    obtain ⟨hloops, ⟨⟩⟩ := Option.ite_none_right_eq_some.mp hstep
    have hwaits := h.awaits true nofun
    refine hwaits.serviceAt ?_ (fun c hbad => (by cases hbad))
      fun f => ⟨nofun, nofun⟩
    dsimp only
    rw [hloops]
    exact nofun
  | serviceLooks now =>
    obtain ⟨hw, ⟨⟩⟩ := Option.ite_none_right_eq_some.mp hstep
    exact h.serviceLooks hw now
  | serviceFlushes =>
    simp only [State.step] at hstep
    split at hstep
    next c hc =>
      cases hstep
      exact h.serviceFlushes hc
    next => cases hstep
  | serviceThrows =>
    simp only [State.step] at hstep
    split at hstep
    next hat =>
      cases hstep
      exact h.serviceThrows (by rw [hat]; exact nofun)
    next c hat =>
      cases hstep
      exact h.serviceThrows (by rw [hat]; exact nofun)
    next hat =>
      cases hstep
      have hon : s.service ≠ .off := by
        rw [hat]
        exact nofun
      exact (h.serviceThrows hon).awaits false fun _ => (h.tasked.served hon).waiter
    next => cases hstep
  | flush =>
    simp only [State.step] at hstep
    split at hstep
    next => cases hstep
    next => cases hstep
    next c hactive _ =>
      obtain ⟨hc, ⟨⟩⟩ := Option.ite_none_right_eq_some.mp hstep
      exact h.flush hc hactive
  | joinWritten =>
    simp only [State.step] at hstep
    split at hstep
    next => cases hstep
    next c hactive =>
      obtain ⟨hc, ⟨⟩⟩ := Option.ite_none_right_eq_some.mp hstep
      exact h.joinWritten hc hactive
  | joinerWritten failure =>
    simp only [State.step] at hstep
    split at hstep
    next => cases hstep
    next c hc =>
      obtain ⟨id, _, rfl⟩ := Option.map_eq_some_iff.mp hstep
      exact h.joinerWritten hc id failure
  | retireWritten =>
    simp only [State.step] at hstep
    split at hstep
    next => cases hstep
    next c hactive =>
      obtain ⟨hc, ⟨⟩⟩ := Option.ite_none_right_eq_some.mp hstep
      exact h.retireWritten hc.1 hactive
  | barrierDone place outcome => exact h.barrierDone hstep
  | writtenDone place failure => exact h.writtenDone hstep
  | drains who => exact h.drains hstep
  | rotate =>
    obtain ⟨hno, ⟨⟩⟩ := Option.ite_none_left_eq_some.mp hstep
    rw [not_or, not_or, not_or] at hno
    obtain ⟨_, hclosing, hclosed, hrotating⟩ := hno
    exact h.rotate (Bool.eq_false_of_not_eq_true hclosing) (Bool.eq_false_of_not_eq_true hclosed)
      (Bool.eq_false_of_not_eq_true hrotating)
  | rotateServed =>
    obtain ⟨hr, ⟨⟩⟩ := Option.ite_none_right_eq_some.mp hstep
    exact h.rotateServed hr.1
  | rotated threw failure scope restarts =>
    have hr : s.rotator = .writer := by
      by_contra hbad
      simp only [State.step, hbad, if_false] at hstep
      cases hstep
    exact h.rotated hr hstep
  | close =>
    obtain ⟨hno, ⟨⟩⟩ := Option.ite_none_left_eq_some.mp hstep
    rw [not_or] at hno
    exact h.close (Bool.eq_false_of_not_eq_true hno.1)
  | closeEntered =>
    obtain ⟨hc, ⟨⟩⟩ := Option.ite_none_right_eq_some.mp hstep
    exact h.closeEntered hc.1 hc.2
  | closeServed =>
    obtain ⟨hc, ⟨⟩⟩ := Option.ite_none_right_eq_some.mp hstep
    exact h.closeServed hc.1
  | closeDone =>
    obtain ⟨hc, ⟨⟩⟩ := Option.ite_none_right_eq_some.mp hstep
    exact h.closeDone hc

/-! ## Every run -/

def exampleBegin : State where
  commit := { config := {}, scope := ⟨0, ⟨1, 0⟩, 0⟩, slots := 2 }

def exampleBoundary : Boundary := ⟨0, ⟨1, 300⟩, 3⟩

/-- Two groups form a cohort, which is forced as no slot is left; a caller flushes it, and the close finds
    an empty queue. -/
def exampleEvents : List Event :=
  [.submit 1 0 0, .submitted (some ⟨1, 0, 100, ⟨0, ⟨1, 100⟩, 1⟩⟩) 0, .submit 2 0 0,
    .submitted (some ⟨2, 100, 300, exampleBoundary⟩) 0, .capture 0, .flush,
    .barrierDone .worker { receipt := some exampleBoundary }, .writtenDone .worker none,
    .writtenDone .worker none, .close, .closeEntered, .closeServed, .drains .close, .drains .close,
    .drains .close, .closeDone]

def exampleState : State := (system.exec exampleBegin exampleEvents).getD exampleBegin

theorem exampleState_reachable : system.Reachable exampleState := by
  have hstart : system.Reachable exampleBegin := .init ⟨{}, ⟨0, ⟨1, 0⟩, 0⟩, rfl, rfl⟩
  have hexec : system.exec exampleBegin exampleEvents = some exampleState := rfl
  exact System.Run.of_exec hstart hexec

end KwaqueStorage.GroupCommit
