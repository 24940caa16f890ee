import KwaqueStorage.GroupCommit.Cohorts
import KwaqueStorage.GroupCommit.Tasks

/-!
# The tasks keep apart

At any time at most one task flushes or joins, and it does so with the capture that is active. Which
task that may be is decided by flags that were set before: a caller's own tasks run only while the
service is not enabled and neither a rotation nor the close has passed them, the service only while
neither drains, and a rotation only before the close has entered (`Tasked`).
-/

namespace KwaqueStorage.GroupCommit

open Lib

/-- A rotation that has not passed the tasks it found, and one that has not begun to drain. -/
def Rotator.early : Rotator → Bool
  | .none | .service | .drain .settle => true
  | _ => false

def Rotator.waits : Rotator → Bool
  | .none | .service => true
  | _ => false

/-- A close that has not passed the gate, and one that has not begun to drain. -/
def Closer.early : Closer → Bool
  | .none | .gate => true
  | _ => false

def Closer.waits : Closer → Bool
  | .none | .gate | .service => true
  | _ => false

/-- The queue stays empty from here on. -/
def Closer.empties : Closer → Bool
  | .observers | .done => true
  | _ => false

/-- What a task of a caller rests on: the service is not enabled, and neither the close nor a rotation
    has passed it. -/
structure Alone (serviceEnabled : Bool) (closer : Closer) (rotator : Rotator) : Prop where
  disabled : serviceEnabled = false
  closer : closer.early = true
  rotator : rotator.early = true

/-- What a flush rests on: it is the one that flushes, its capture is active, and its receipt is one
    that a barrier returned for that capture's boundary. -/
structure Flushes (joining flushing : Bool) (active : Option Capture)
    (barriers : List (Boundary × Option Boundary)) (f : Flush) : Prop where
  joining : joining = true
  flushing : flushing = true
  active : active = some f.capture
  receipt : ∀ c outcome, f = .join c outcome → ∀ b, outcome.receipt = some b →
    (c.boundary, some b) ∈ barriers

/-- The groups that hold a slot. -/
def State.held (s : State) : Nat :=
  s.reserved.length + (if s.submission.isSome then 1 else 0) + s.commit.queue.length + s.retained

/-- **What the tasks keep.** -/
structure Tasked (s : State) : Prop where
  worker : ∀ f, s.worker = .running f → Alone s.commit.serviceEnabled s.closer s.rotator
  joiner : ∀ c, s.joiner = some c → Alone s.commit.serviceEnabled s.closer s.rotator
    ∧ s.commit.active = some c ∧ s.commit.joining = true ∧ s.commit.flushing = false
  waiter : s.waiter = true → Alone s.commit.serviceEnabled s.closer s.rotator ∧ s.commit.waiting = true
  service : s.service ≠ .off → s.commit.serviceEnabled = true ∧ s.closer.waits = true
    ∧ s.rotator.waits = true
  selected : ∀ c, s.service = .selected c → s.commit.active = some c
  rotator : s.rotator ≠ .none → s.commit.rotating = true ∧ s.closer.early = true
  closing : s.closer ≠ .none → s.commit.closing = true ∨ s.commit.closed = true
  submission : s.submission.isSome = true → s.commit.submitting = true ∧ s.closer.early = true
  flush : ∀ place f, s.flushAt place = some f →
    Flushes s.commit.joining s.commit.flushing s.commit.active s.commit.barriers f
  empties : s.closer.empties = true → s.commit.queue = []
  closed : s.commit.closed = true → s.closer.empties = true
  slots : s.commit.slots + s.held = s.commit.config.outstandingGroups
  paired : s.commit.flushing = true → s.commit.joining = true
  valid : s.commit.config.validate = .ok ()

/-- **What a state keeps.** -/
structure Live (s : State) : Prop where
  kept : s.commit.Kept
  tasked : Tasked s

section Tasks

variable {s : State}

variable {f : Flush}

theorem flushAt_service : s.flushAt .service = some f ↔ s.service = .flush f := by
  unfold State.flushAt
  cases s.service <;> simp

theorem flushAt_serviceDrain :
    s.flushAt .serviceDrain = some f ↔ s.service = .drain (.flush f) := by
  unfold State.flushAt
  cases s.service with
  | drain d => cases d <;> simp
  | _ => simp

theorem flushAt_worker : s.flushAt .worker = some f ↔ s.worker = .running f := by
  unfold State.flushAt
  cases s.worker <;> simp

theorem flushAt_rotate : s.flushAt .rotate = some f ↔ s.rotator = .drain (.flush f) := by
  unfold State.flushAt
  cases s.rotator with
  | drain d => cases d <;> simp
  | _ => simp

theorem flushAt_close : s.flushAt .close = some f ↔ s.closer = .drain (.flush f) := by
  unfold State.flushAt
  cases s.closer with
  | drain d => cases d <;> simp
  | _ => simp

theorem Tasked.short (h : Tasked s) : s.commit.queue.length ≤ maximumWalCohortGroups := by
  have hslots := h.slots
  have hvalid := h.valid
  unfold Config.validate at hvalid
  split at hvalid
  next => cases hvalid
  next hbounds =>
    have hgroups : s.commit.config.outstandingGroups ≤ maximumWalCohortGroups := by
      by_contra hbad
      exact hbounds (.inr (.inr (.inr (.inr (.inr (.inr (.inr (Nat.lt_of_not_le hbad))))))))
    refine le_trans ?_ hgroups
    rw [← hslots]
    unfold State.held
    omega

/-- Where a flush may run: the service is on, the caller is alone, or the rotation or the close has
    passed everything before it. -/
def Fit (s : State) : Place → Prop
  | .service | .serviceDrain => s.service ≠ .off
  | .worker => Alone s.commit.serviceEnabled s.closer s.rotator
  | .rotate => s.rotator.early = false
  | .close => s.closer.waits = false

theorem Rotator.early_of_waits {r : Rotator} (h : r.waits = true) : r.early = true := by
  cases r with
  | drain d => cases h
  | writer => cases h
  | none => rfl
  | service => rfl

theorem Closer.waits_of_early {c : Closer} (h : c.early = true) : c.waits = true := by
  cases c with
  | none => rfl
  | gate => rfl
  | _ => cases h

variable {place : Place}

theorem Tasked.fit (h : Tasked s) (hf : s.flushAt place = some f) :
    Fit s place := by
  cases place with
  | service =>
    intro hoff
    rw [flushAt_service.mp hf] at hoff
    cases hoff
  | serviceDrain =>
    intro hoff
    rw [flushAt_serviceDrain.mp hf] at hoff
    cases hoff
  | worker => exact h.worker f (flushAt_worker.mp hf)
  | rotate =>
    unfold Fit
    rw [flushAt_rotate.mp hf]
    rfl
  | close =>
    unfold Fit
    rw [flushAt_close.mp hf]
    rfl

/-- Who may consume what is captured. -/
inductive Role
  | caller
  | service
  | rotate
  | close
  deriving DecidableEq

def Place.role : Place → Role
  | .service | .serviceDrain => .service
  | .worker => .caller
  | .rotate => .rotate
  | .close => .close

def State.role (s : State) : Role :=
  if s.closer.waits = false then .close
  else if s.rotator.early = false then .rotate
  else if s.service ≠ .off then .service
  else .caller

theorem Tasked.serves (h : Tasked s) (hon : s.service ≠ .off) : s.role = .service := by
  obtain ⟨_, hcloser, hrotator⟩ := h.service hon
  unfold State.role
  rw [hcloser, Rotator.early_of_waits hrotator, if_neg Bool.true_eq_false.mp, if_neg Bool.true_eq_false.mp,
    if_pos hon]

theorem Tasked.alone (h : Tasked s) (ha : Alone s.commit.serviceEnabled s.closer s.rotator) :
    s.role = .caller := by
  have hoff : ¬ s.service ≠ .off := by
    intro hon
    have henabled := (h.service hon).1
    rw [ha.disabled] at henabled
    cases henabled
  unfold State.role
  rw [Closer.waits_of_early ha.closer, ha.rotator, if_neg Bool.true_eq_false.mp,
    if_neg Bool.true_eq_false.mp, if_neg hoff]

/-- **Where a flush may run is decided.** -/
theorem Tasked.role (h : Tasked s) (hfit : Fit s place) : s.role = place.role := by
  cases place with
  | service => exact h.serves hfit
  | serviceDrain => exact h.serves hfit
  | worker => exact h.alone hfit
  | rotate =>
    have hsome : s.rotator ≠ .none := by
      intro hnone
      have hlate : s.rotator.early = false := hfit
      rw [hnone] at hlate
      cases hlate
    unfold State.role
    rw [Closer.waits_of_early (h.rotator hsome).2, if_neg Bool.true_eq_false.mp]
    exact if_pos hfit
  | close => exact if_pos hfit

/-- **Only one task flushes.** -/
theorem Tasked.unique (h : Tasked s) {place place' : Place} {f f' : Flush}
    (hf : s.flushAt place = some f) (hf' : s.flushAt place' = some f') : place = place' := by
  have hrole : place.role = place'.role := (h.role (h.fit hf)).symm.trans (h.role (h.fit hf'))
  -- the service flushes for one of its two reasons
  have hapart : ∀ {f f'}, s.flushAt .service = some f → s.flushAt .serviceDrain = some f' → False := by
    intro f f' hservice hdrain
    have hboth := (flushAt_service.mp hservice).symm.trans (flushAt_serviceDrain.mp hdrain)
    cases hboth
  cases place <;> cases place' <;> first | rfl | cases hrole
  · exact (hapart hf hf').elim
  · exact (hapart hf' hf).elim

/-- The service has not selected a capture while a task flushes. -/
theorem Tasked.not_selected (h : Tasked s) (hf : s.flushAt place = some f) {c : Capture}
    : s.service ≠ .selected c := by
  intro hselected
  have hon : s.service ≠ .off := by
    rw [hselected]
    exact fun hbad => by cases hbad
  have hrole := (h.role (h.fit hf)).symm.trans (h.serves hon)
  cases place with
  | service => cases hselected.symm.trans (flushAt_service.mp hf)
  | serviceDrain => cases hselected.symm.trans (flushAt_serviceDrain.mp hf)
  | worker => cases hrole
  | rotate => cases hrole
  | close => cases hrole

/-! ## One task goes on -/

/-- No task of a caller runs. -/
structure Quiet (s : State) : Prop where
  worker : ∀ f, s.worker ≠ .running f
  joiner : s.joiner = none
  waiter : s.waiter = false

theorem Tasked.withService (h : Tasked s) (x : Service)
    (hon : x ≠ .off → s.commit.serviceEnabled = true ∧ s.closer.waits = true ∧ s.rotator.waits = true)
    (hselected : ∀ c, x = .selected c → s.commit.active = some c)
    (hflush : ∀ f, x = .flush f ∨ x = .drain (.flush f) →
      Flushes s.commit.joining s.commit.flushing s.commit.active s.commit.barriers f) :
    Tasked { s with service := x } := by
  refine { h with service := hon, selected := hselected, flush := ?_ }
  intro place f hf
  cases place with
  | service => exact hflush f (.inl (flushAt_service.mp hf))
  | serviceDrain => exact hflush f (.inr (flushAt_serviceDrain.mp hf))
  | worker => exact h.flush .worker f hf
  | rotate => exact h.flush .rotate f hf
  | close => exact h.flush .close f hf

theorem Tasked.withWorker (h : Tasked s) (x : Worker)
    (hrunning : ∀ f, x = .running f → Alone s.commit.serviceEnabled s.closer s.rotator
      ∧ Flushes s.commit.joining s.commit.flushing s.commit.active s.commit.barriers f) :
    Tasked { s with worker := x } := by
  refine { h with worker := fun f hf => (hrunning f hf).1, flush := ?_ }
  intro place f hf
  cases place with
  | service => exact h.flush .service f hf
  | serviceDrain => exact h.flush .serviceDrain f hf
  | worker => exact (hrunning f (flushAt_worker.mp hf)).2
  | rotate => exact h.flush .rotate f hf
  | close => exact h.flush .close f hf

theorem Tasked.withRotator (h : Tasked s) (x : Rotator)
    (hrotates : x ≠ .none → s.commit.rotating = true ∧ s.closer.early = true)
    (hlate : x.early = false → Quiet s) (hdrains : x.waits = false → s.service = .off)
    (hflush : ∀ f, x = .drain (.flush f) →
      Flushes s.commit.joining s.commit.flushing s.commit.active s.commit.barriers f) :
    Tasked { s with rotator := x } := by
  have halone : Alone s.commit.serviceEnabled s.closer s.rotator → ¬ Quiet s →
      Alone s.commit.serviceEnabled s.closer x := by
    intro ha hbusy
    refine ⟨ha.disabled, ha.closer, ?_⟩
    by_contra hx
    exact hbusy (hlate (Bool.eq_false_of_not_eq_true hx))
  refine ⟨?_, ?_, ?_, ?_, h.selected, hrotates, h.closing, h.submission, ?_, h.empties,
    h.closed, h.slots, h.paired, h.valid⟩
  · intro f hf
    exact halone (h.worker f hf) fun hquiet => hquiet.worker f hf
  · intro c hc
    obtain ⟨ha, hrest⟩ := h.joiner c hc
    refine ⟨halone ha fun hquiet => ?_, hrest⟩
    exact absurd hquiet.joiner (by simp [show s.joiner = some c from hc])
  · intro hw
    obtain ⟨ha, hwaits⟩ := h.waiter hw
    refine ⟨halone ha fun hquiet => ?_, hwaits⟩
    exact absurd hquiet.waiter (by simp [show s.waiter = true from hw])
  · intro hon
    obtain ⟨henabled, hcloser, _⟩ := h.service hon
    refine ⟨henabled, hcloser, ?_⟩
    by_contra hx
    exact hon (hdrains (Bool.eq_false_of_not_eq_true hx))
  · intro place f hf
    cases place with
    | service => exact h.flush .service f hf
    | serviceDrain => exact h.flush .serviceDrain f hf
    | worker => exact h.flush .worker f hf
    | rotate => exact hflush f (flushAt_rotate.mp hf)
    | close => exact h.flush .close f hf

theorem Tasked.withCloser (h : Tasked s) (x : Closer)
    (hcloses : x ≠ .none → s.commit.closing = true ∨ s.commit.closed = true)
    (hlate : x.early = false → Quiet s ∧ s.rotator = .none ∧ s.submission = none)
    (hdrains : x.waits = false → s.service = .off)
    (hempties : x.empties = true → s.commit.queue = [])
    (hclosed : s.commit.closed = true → x.empties = true)
    (hflush : ∀ f, x = .drain (.flush f) →
      Flushes s.commit.joining s.commit.flushing s.commit.active s.commit.barriers f) :
    Tasked { s with closer := x } := by
  have hearly : ¬ (Quiet s ∧ s.rotator = .none ∧ s.submission = none) → x.early = true := by
    intro hbusy
    by_contra hx
    exact hbusy (hlate (Bool.eq_false_of_not_eq_true hx))
  have halone : Alone s.commit.serviceEnabled s.closer s.rotator → ¬ Quiet s →
      Alone s.commit.serviceEnabled x s.rotator :=
    fun ha hbusy => ⟨ha.disabled, hearly fun hall => hbusy hall.1, ha.rotator⟩
  refine ⟨?_, ?_, ?_, ?_, h.selected, ?_, hcloses, ?_, ?_, hempties, hclosed, h.slots, h.paired, h.valid⟩
  · intro f hf
    exact halone (h.worker f hf) fun hquiet => hquiet.worker f hf
  · intro c hc
    obtain ⟨ha, hrest⟩ := h.joiner c hc
    refine ⟨halone ha fun hquiet => ?_, hrest⟩
    exact absurd hquiet.joiner (by simp [show s.joiner = some c from hc])
  · intro hw
    obtain ⟨ha, hwaits⟩ := h.waiter hw
    refine ⟨halone ha fun hquiet => ?_, hwaits⟩
    exact absurd hquiet.waiter (by simp [show s.waiter = true from hw])
  · intro hon
    obtain ⟨henabled, _, hrotator⟩ := h.service hon
    refine ⟨henabled, ?_, hrotator⟩
    by_contra hx
    exact hon (hdrains (Bool.eq_false_of_not_eq_true hx))
  · intro hr
    exact ⟨(h.rotator hr).1, hearly fun hall => hr hall.2.1⟩
  · intro hsubmission
    refine ⟨(h.submission hsubmission).1, hearly fun hall => ?_⟩
    replace hsubmission : s.submission.isSome = true := hsubmission
    rw [hall.2.2] at hsubmission
    cases hsubmission
  · intro place f hf
    cases place with
    | service => exact h.flush .service f hf
    | serviceDrain => exact h.flush .serviceDrain f hf
    | worker => exact h.flush .worker f hf
    | rotate => exact h.flush .rotate f hf
    | close => exact hflush f (flushAt_close.mp hf)

/-- Where nobody is alone with the owner no task of a caller runs. -/
theorem Tasked.quiet_of_served (h : Tasked s) (hnot : ¬ Alone s.commit.serviceEnabled s.closer s.rotator) : Quiet s := by
  refine ⟨fun f hf => hnot (h.worker f hf), ?_, ?_⟩
  · cases hj : s.joiner with
    | none => rfl
    | some c => exact absurd (h.joiner c hj).1 hnot
  · cases hw : s.waiter with
    | false => rfl
    | true => exact absurd (h.waiter hw).1 hnot

/-- What a rotation that passed the tasks before it has passed. -/
theorem Tasked.rotator_late (h : Tasked s) (hlate : s.rotator.early = false) :
    Quiet s ∧ s.service = .off ∧ s.commit.rotating = true ∧ s.closer.early = true := by
  have hsome : s.rotator ≠ .none := by
    intro hnone
    rw [hnone] at hlate
    cases hlate
  have hnot : ¬ Alone s.commit.serviceEnabled s.closer s.rotator := by
    intro ha
    have hearly := ha.rotator
    rw [hlate] at hearly
    cases hearly
  refine ⟨h.quiet_of_served hnot, ?_, h.rotator hsome⟩
  by_contra hon
  have hearly := Rotator.early_of_waits (h.service hon).2.2
  rw [hlate] at hearly
  cases hearly

/-- What a close that passed the gate has passed. -/
theorem Tasked.closer_late (h : Tasked s) (hlate : s.closer.early = false) :
    Quiet s ∧ s.rotator = .none ∧ s.submission = none := by
  have hnot : ¬ Alone s.commit.serviceEnabled s.closer s.rotator := by
    intro ha
    have hearly := ha.closer
    rw [hlate] at hearly
    cases hearly
  refine ⟨h.quiet_of_served hnot, ?_, ?_⟩
  · by_contra hr
    have hearly := (h.rotator hr).2
    rw [hlate] at hearly
    cases hearly
  · cases hsubmission : s.submission with
    | none => rfl
    | some p =>
      have hearly := (h.submission (by rw [hsubmission]; rfl)).2
      rw [hlate] at hearly
      cases hearly

theorem Tasked.closer_drains (h : Tasked s) (hlate : s.closer.waits = false) : s.service = .off := by
  by_contra hon
  have hwaits := (h.service hon).2.1
  rw [hlate] at hwaits
  cases hwaits

theorem Closer.late_of_drains {c : Closer} (h : c.waits = false) : c.early = false := by
  cases hearly : c.early with
  | false => rfl
  | true =>
    rw [Closer.waits_of_early hearly] at h
    cases h

/-- A rotation goes on, past what it waited for. -/
theorem Tasked.rotates (h : Tasked s) (hlate : s.rotator.early = false) (x : Rotator)
    (hflush : ∀ f, x = .drain (.flush f) →
      Flushes s.commit.joining s.commit.flushing s.commit.active s.commit.barriers f) :
    Tasked { s with rotator := x } := by
  obtain ⟨hquiet, hoff, hrotating, hcloser⟩ := h.rotator_late hlate
  exact h.withRotator x (fun _ => ⟨hrotating, hcloser⟩) (fun _ => hquiet) (fun _ => hoff) hflush

/-- The close goes on, past what it waited for. -/
theorem Tasked.closes (h : Tasked s) (hlate : s.closer.waits = false) (x : Closer)
    (hempties : x.empties = true ↔ s.closer.empties = true)
    (hflush : ∀ f, x = .drain (.flush f) →
      Flushes s.commit.joining s.commit.flushing s.commit.active s.commit.barriers f) :
    Tasked { s with closer := x } := by
  have hsome : s.closer ≠ .none := by
    intro hnone
    rw [hnone] at hlate
    cases hlate
  exact h.withCloser x (fun _ => h.closing hsome) (fun _ => h.closer_late (Closer.late_of_drains hlate))
    (fun _ => h.closer_drains hlate) (fun hx => h.empties (hempties.mp hx))
    (fun hc => hempties.mpr (h.closed hc)) hflush

/-! ## A flush -/

/-- The close drains, and has not emptied the queue. -/
def Place.drains (s : State) : Place → Prop
  | .close => s.closer.empties = false
  | _ => True

/-- A task's state where it runs a flush. -/
theorem Tasked.putFlush (h : Tasked s) (hfit : Fit s place) (hdrains : place.drains s)
    (hflush : Flushes s.commit.joining s.commit.flushing s.commit.active s.commit.barriers f) :
    Tasked (s.putFlush f place) := by
  cases place with
  | service =>
    refine h.withService (.flush f) (fun _ => h.service hfit)
      (fun c hbad => (by cases hbad)) ?_
    rintro f' (heq | heq)
    · obtain rfl := Service.flush.inj heq
      exact hflush
    · cases heq
  | serviceDrain =>
    refine h.withService (.drain (.flush f)) (fun _ => h.service hfit)
      (fun c hbad => (by cases hbad)) ?_
    rintro f' (heq | heq)
    · cases heq
    · cases heq
      exact hflush
  | worker =>
    refine h.withWorker (.running f) ?_
    intro f' heq
    cases heq
    exact ⟨hfit, hflush⟩
  | rotate =>
    refine h.rotates hfit (.drain (.flush f)) ?_
    intro f' heq
    cases heq
    exact hflush
  | close =>
    refine h.closes hfit (.drain (.flush f)) ?_ ?_
    · rw [show s.closer.empties = false from hdrains]
      exact Iff.rfl
    · intro f' heq
      cases heq
      exact hflush

theorem afterFlush_flushAt (place p : Place) :
    (s.afterFlush place).flushAt p = if p.role = place.role then none else s.flushAt p := by
  cases place <;> cases p <;> rfl

/-- A flush is over, and no other runs. -/
theorem Tasked.afterFlush (h : Tasked s) (hf : s.flushAt place = some f) :
    Tasked (s.afterFlush place) ∧ ∀ p, (s.afterFlush place).flushAt p = none := by
  have hfit := h.fit hf
  refine ⟨?_, ?_⟩
  · cases place with
    | service =>
      exact h.withService .looping (fun _ => h.service hfit)
        (fun c hbad => (by cases hbad)) fun f' hbad => (by rcases hbad with hbad | hbad <;> cases hbad)
    | serviceDrain =>
      exact h.withService (.drain .loop) (fun _ => h.service hfit)
        (fun c hbad => (by cases hbad)) fun f' hbad => (by rcases hbad with hbad | hbad <;> cases hbad)
    | worker => exact h.withWorker .finished fun f' hbad => (by cases hbad)
    | rotate => exact h.rotates hfit (.drain .loop) fun f' hbad => (by cases hbad)
    | close =>
      have hempties : s.closer.empties = false := by
        rw [flushAt_close.mp hf]
        rfl
      exact h.closes hfit (.drain .loop) (by rw [hempties]; exact Iff.rfl) fun f' hbad => (by cases hbad)
  · intro p
    rw [afterFlush_flushAt]
    split
    next => rfl
    next hrole =>
      cases hp : s.flushAt p with
      | none => rfl
      | some f' => exact absurd (congrArg Place.role (h.unique hp hf)) hrole

/-- The owner has done something, and what the tasks rest on is still there. -/
theorem Tasked.commit (h : Tasked s) {q : Commit} {retained : Nat} (hconfig : q.config = s.commit.config)
    (hservice : q.serviceEnabled = s.commit.serviceEnabled) (hrotating : q.rotating = s.commit.rotating)
    (hclosing : q.closing = s.commit.closing) (hclosed : q.closed = s.commit.closed)
    (hwaiting : q.waiting = s.commit.waiting) (hsubmitting : q.submitting = s.commit.submitting)
    (hselected : ∀ c, s.service = .selected c → q.active = some c)
    (hjoiner : ∀ c, s.joiner = some c → q.active = some c ∧ q.joining = true ∧ q.flushing = false)
    (hflush : ∀ place f, s.flushAt place = some f →
      Flushes q.joining q.flushing q.active q.barriers f)
    (hempties : s.commit.queue = [] → q.queue = [])
    (hpaired : q.flushing = true → q.joining = true)
    (hslots : q.slots + q.queue.length + retained
      = s.commit.slots + s.commit.queue.length + s.retained) :
    Tasked { s with commit := q, retained } := by
  have halone : Alone s.commit.serviceEnabled s.closer s.rotator →
      Alone q.serviceEnabled s.closer s.rotator :=
    fun ha => ⟨hservice.trans ha.disabled, ha.closer, ha.rotator⟩
  refine ⟨fun f hf => halone (h.worker f hf), fun c hc => ⟨halone (h.joiner c hc).1, hjoiner c hc⟩, ?_, ?_,
    hselected, ?_, ?_, ?_, hflush, ?_, ?_, ?_,
    hpaired, ?_⟩
  · intro hw
    obtain ⟨ha, hwaits⟩ := h.waiter hw
    exact ⟨halone ha, hwaiting.trans hwaits⟩
  · intro hon
    obtain ⟨henabled, hrest⟩ := h.service hon
    exact ⟨hservice.trans henabled, hrest⟩
  · intro hr
    obtain ⟨hrotates, hearly⟩ := h.rotator hr
    exact ⟨hrotating.trans hrotates, hearly⟩
  · intro hc
    rcases h.closing hc with hc | hc
    · exact .inl (hclosing.trans hc)
    · exact .inr (hclosed.trans hc)
  · intro hsubmission
    obtain ⟨hsubmits, hearly⟩ := h.submission hsubmission
    exact ⟨hsubmitting.trans hsubmits, hearly⟩
  · intro hnone
    exact hempties (h.empties hnone)
  · intro hc
    exact h.closed (hclosed.symm.trans hc)
  · have hall := h.slots
    unfold State.held at hall ⊢
    dsimp only
    rw [hconfig]
    omega
  · dsimp only
    rw [hconfig]
    exact h.valid

/-- The owner has done something that changes none of its flags. -/
theorem Tasked.same (h : Tasked s) {q : Commit} (hflags : q.flags = s.commit.flags)
    (hactive : ∀ c, s.commit.active = some c → q.active = some c)
    (hlength : q.queue.length = s.commit.queue.length)
    (hbarriers : ∀ entry ∈ s.commit.barriers, entry ∈ q.barriers) : Tasked { s with commit := q } := by
  simp only [Commit.flags, Commit.Flags.mk.injEq] at hflags
  obtain ⟨hconfig, hslots, hrotating, hsubmitting, hwaiting, hjoining, hflushing, hservice, hclosing,
    hclosed⟩ := hflags
  refine h.commit hconfig hservice hrotating hclosing hclosed hwaiting hsubmitting
    (fun c hc => hactive c (h.selected c hc)) ?_ ?_ ?_ ?_ (by rw [hslots, hlength])
  · intro c hc
    obtain ⟨_, hat, hjoins, hflushes⟩ := h.joiner c hc
    exact ⟨hactive c hat, hjoining.trans hjoins, hflushing.trans hflushes⟩
  · intro place f hf
    have hthis := h.flush place f hf
    exact ⟨hjoining.trans hthis.joining, hflushing.trans hthis.flushing, hactive _ hthis.active,
      fun c outcome hjoin b hb => hbarriers _ (hthis.receipt c outcome hjoin b hb)⟩
  · intro hnil
    rw [hnil] at hlength
    exact List.length_eq_zero_iff.mp hlength
  · rw [hflushing, hjoining]
    exact h.paired

theorem Tasked.step (h : Tasked s) {q : Commit} (hsame : Commit.Same s.commit q) :
    Tasked { s with commit := q } :=
  h.same hsame.flags (fun _ hc => hsame.active.trans hc) hsame.length fun _ hin => hsame.barriers ▸ hin

/-- What `certify` leaves alone. -/
theorem certify_frame (q : Commit) (c : Capture) (outcome : BarrierOutcome) :
    (q.certify c outcome).flags = { q.flags with flushing := false, joining := false }
      ∧ (q.certify c outcome).queue.length = q.queue.length - c.nodes.length := by
  unfold Commit.certify
  split
  next =>
    have hsame := @Commit.same_coordinatorFails q (.error .wrongContext)
    obtain ⟨hflags, hqueue⟩ := Commit.finishFlush_frame
      (q.coordinatorFails (.error .wrongContext)) c {
        failure := (q.coordinatorFails (.error .wrongContext)).first
        receipt := if (q.coordinatorFails (.error .wrongContext)).first.isSome then none
          else outcome.receipt }
    refine ⟨?_, ?_⟩
    · rw [hflags, hsame.flags]
    · rw [hqueue, List.length_drop, hsame.length]
  next =>
    obtain ⟨hflags, hqueue⟩ := Commit.finishFlush_frame q c {
      failure := q.first, receipt := if q.first.isSome then none else outcome.receipt }
    refine ⟨hflags, ?_⟩
    rw [hqueue, List.length_drop]

/-- **A flush that has joined its writes ends**, and settles what it captured. -/
theorem Live.finish (h : Live s) {c : Capture} {outcome : BarrierOutcome}
    (hf : s.flushAt place = some (.join c outcome)) (hjoined : s.commit.unjoined c = none) :
    Live ({ s with
      commit := s.commit.certify c outcome, retained := s.retained + c.nodes.length }.afterFlush
        place) := by
  have hflush := h.tasked.flush place _ hf
  have hactive : s.commit.active = some c := hflush.active
  have hkept : (s.commit.certify c outcome).Kept :=
    Commit.kept_certify h.kept hactive hflush.flushing hflush.joining hjoined
      (hflush.receipt c outcome rfl)
  obtain ⟨hflags, hlength⟩ := certify_frame s.commit c outcome
  obtain ⟨hafter, hidle⟩ := h.tasked.afterFlush hf
  -- the task goes on, and then the owner changes
  have hmoved : State.afterFlush { s with
        commit := s.commit.certify c outcome, retained := s.retained + c.nodes.length } place
      = { s.afterFlush place with
          commit := s.commit.certify c outcome, retained := s.retained + c.nodes.length } := by
    cases place <;> rfl
  have hsame : (s.afterFlush place).commit = s.commit ∧ (s.afterFlush place).retained = s.retained
      ∧ (s.afterFlush place).joiner = s.joiner := by
    cases place <;> exact ⟨rfl, rfl, rfl⟩
  obtain ⟨hcommit, hretained, hjoiner⟩ := hsame
  have hgroups := h.kept.groups hactive
  simp only [Commit.flags, Commit.Flags.mk.injEq] at hflags
  obtain ⟨hconfig, hslots, hrotating, hsubmitting, hwaiting, _, hover, hservice, hclosing, hclosed⟩ := hflags
  rw [hmoved]
  refine ⟨hkept, hafter.commit ?_ ?_ ?_ ?_ ?_ ?_ ?_ ?_ ?_ ?_ ?_ ?_ ?_⟩
  · rw [hcommit, hconfig]
  · rw [hcommit, hservice]
  · rw [hcommit, hrotating]
  · rw [hcommit, hclosing]
  · rw [hcommit, hclosed]
  · rw [hcommit, hwaiting]
  · rw [hcommit, hsubmitting]
  · intro d hd
    have hsource : s.service = .selected d := by
      cases place with
      | service => cases hd
      | serviceDrain => cases hd
      | worker => exact hd
      | rotate => exact hd
      | close => exact hd
    exact absurd hsource (h.tasked.not_selected hf)
  · intro d hd
    rw [hjoiner] at hd
    have hnot := (h.tasked.joiner d hd).2.2.2
    rw [hflush.flushing] at hnot
    cases hnot
  · intro p f hp
    rw [hidle p] at hp
    cases hp
  · intro hnil
    rw [hcommit] at hnil
    rw [hnil] at hlength
    exact List.length_eq_zero_iff.mp (hlength.trans (Nat.zero_sub _))
  · rw [hover]
    intro hempty
    cases hempty
  · rw [hcommit, hretained, hslots, hlength]
    omega

/-- **A flush goes on to its joins.** -/
theorem Live.advance (h : Live s) (hfit : Fit s place) (hdrains : place.drains s) {c : Capture}
    {outcome : BarrierOutcome}
    (hflush : Flushes s.commit.joining s.commit.flushing s.commit.active s.commit.barriers (.join c outcome))
    : Live (s.advance place c outcome) := by
  have hput : Live (s.putFlush (.join c outcome) place) := by
    refine ⟨?_, h.tasked.putFlush hfit hdrains hflush⟩
    cases place <;> exact h.kept
  have hcommit : (s.putFlush (.join c outcome) place).commit = s.commit := by
    cases place <;> rfl
  unfold State.advance
  split
  next => exact hput
  next hjoined =>
    have hf : (s.putFlush (.join c outcome) place).flushAt place = some (.join c outcome) := by
      cases place <;> rfl
    have hover : State.afterFlush { s with
          commit := s.commit.certify c outcome, retained := s.retained + c.nodes.length } place
        = State.afterFlush { s.putFlush (.join c outcome) place with
          commit := (s.putFlush (.join c outcome) place).commit.certify c outcome
          retained := (s.putFlush (.join c outcome) place).retained + c.nodes.length } place := by
      cases place <;> rfl
    rw [hover]
    refine hput.finish hf ?_
    rw [hcommit]
    exact hjoined

/-- **A flush begins** with the capture that is active. -/
theorem Live.flushOwned (h : Live s) (hfit : Fit s place) (hdrains : place.drains s)
    (hjoiner : s.joiner = none) {c : Capture} (hactive : s.commit.active = some c) :
    Live (s.flushOwned place c) := by
  have hstarted : Live { s with commit := s.commit.startFlush } := by
    refine ⟨h.kept.congr rfl rfl rfl rfl rfl rfl rfl rfl rfl rfl, ?_⟩
    refine h.tasked.commit rfl rfl rfl rfl rfl rfl rfl (fun d hd => h.tasked.selected d hd) ?_ ?_
      (fun hnil => hnil) (fun _ => rfl) rfl
    · intro d hd
      rw [hjoiner] at hd
      cases hd
    · intro p f hp
      have hthis := h.tasked.flush p f hp
      exact ⟨rfl, rfl, hthis.active, hthis.receipt⟩
  have hflushes : ∀ f : Flush, f.capture = c → (∀ d outcome, f = .join d outcome →
      outcome.receipt = none) → Flushes true true s.commit.active s.commit.barriers f := by
    intro f hf hreceipt
    refine ⟨rfl, rfl, by rw [hactive, hf], ?_⟩
    intro d outcome hjoin b hb
    rw [hreceipt d outcome hjoin] at hb
    cases hb
  have hfit' : Fit { s with commit := s.commit.startFlush } place := by
    cases place <;> exact hfit
  have hdrains' : place.drains { s with commit := s.commit.startFlush } := by
    cases place <;> exact hdrains
  unfold State.flushOwned
  dsimp only
  split
  next =>
    refine ⟨?_, hstarted.tasked.putFlush hfit' hdrains'
      (hflushes (.barrier c) rfl fun d outcome hbad => (by cases hbad))⟩
    cases place <;> exact hstarted.kept
  next =>
    refine hstarted.advance hfit' hdrains' (hflushes (.join c {}) rfl ?_)
    intro d outcome hjoin
    cases hjoin
    rfl

theorem draining (hf : s.flushAt place = some f) : place.drains s := by
  cases place with
  | close =>
    unfold Place.drains
    rw [flushAt_close.mp hf]
    rfl
  | _ => trivial

theorem Live.step (h : Live s) {q : Commit} (hkept : q.Kept) (hsame : Commit.Same s.commit q) :
    Live { s with commit := q } := ⟨hkept, h.tasked.step hsame⟩

theorem Live.barrierDone (h : Live s) {outcome : BarrierOutcome} {s' : State}
    (hstep : s.barrierDone place outcome = some s') : Live s' := by
  unfold State.barrierDone at hstep
  split at hstep
  next c hf =>
    cases hstep
    have hkept := h.kept
    obtain ⟨cohorts, tail, hshape⟩ := hkept.shape
    have hlogged : Live { s with commit := { s.commit with
        barriers := s.commit.barriers ++ [(c.boundary, outcome.receipt)] } } := by
      refine ⟨?_, h.tasked.same rfl (fun _ hc => hc) rfl fun _ hin => List.mem_append_left _ hin⟩
      refine { hkept with shape := ⟨cohorts, tail, hshape.congr rfl rfl rfl rfl rfl rfl⟩, receipts := ?_ }
      intro r hr b hb
      obtain ⟨hnone, hcut, hin⟩ := hkept.receipts r hr b hb
      exact ⟨hnone, hcut, List.mem_append_left _ hin⟩
    have hsame := @Commit.same_remember { s.commit with
      barriers := s.commit.barriers ++ [(c.boundary, outcome.receipt)] } outcome.failure
    have hremembered := hlogged.step (Commit.kept_remember hlogged.kept outcome.failure) hsame
    have hflush := hremembered.tasked.flush place _ hf
    refine hremembered.advance (hremembered.tasked.fit hf) (draining hf) ?_
    refine ⟨hflush.joining, hflush.flushing, hflush.active, ?_⟩
    intro d result hjoin b hb
    cases hjoin
    change _ ∈ (Commit.remember _ _).barriers
    rw [hsame.barriers, ← hb]
    exact List.mem_append_right _ (List.mem_singleton.mpr rfl)
  next => cases hstep

theorem Live.writtenDone (h : Live s) {failure : Option Fault} {s' : State}
    (hstep : s.writtenDone place failure = some s') : Live s' := by
  unfold State.writtenDone at hstep
  split at hstep
  next c outcome hf =>
    obtain ⟨id, _, rfl⟩ := Option.map_eq_some_iff.mp hstep
    have hjoined := h.step (Commit.kept_join h.kept id failure) (Commit.same_join id failure)
    exact hjoined.advance (hjoined.tasked.fit hf) (draining hf) (hjoined.tasked.flush place _ hf)
  next => cases hstep

/-! ## The drains -/

theorem drainAt_service {d : Drain} : s.drainAt .service = some d ↔ s.service = .drain d := by
  unfold State.drainAt
  cases s.service <;> simp

theorem drainAt_rotate {d : Drain} : s.drainAt .rotate = some d ↔ s.rotator = .drain d := by
  unfold State.drainAt
  cases s.rotator <;> simp

theorem drainAt_close {d : Drain} : s.drainAt .close = some d ↔ s.closer = .drain d := by
  unfold State.drainAt
  cases s.closer <;> simp

/-- A drain that does not wait any more may flush. -/
theorem Tasked.drain_fit (h : Tasked s) {who : Drainer} {d : Drain} (hd : s.drainAt who = some d)
    (hpast : d ≠ .settle) : Fit s who.place ∧ who.place.drains s ∧ s.joiner = none := by
  cases who with
  | service =>
    have hon : s.service ≠ .off := by
      rw [drainAt_service.mp hd]
      exact fun hbad => by cases hbad
    refine ⟨hon, trivial, ?_⟩
    cases hj : s.joiner with
    | none => rfl
    | some c =>
      have hdisabled := (h.joiner c hj).1.disabled
      rw [(h.service hon).1] at hdisabled
      cases hdisabled
  | rotate =>
    have hlate : s.rotator.early = false := by
      rw [drainAt_rotate.mp hd]
      cases d with
      | settle => exact absurd rfl hpast
      | _ => rfl
    exact ⟨hlate, trivial, (h.rotator_late hlate).1.joiner⟩
  | close =>
    have hlate : s.closer.waits = false ∧ s.closer.empties = false := by
      rw [drainAt_close.mp hd]
      exact ⟨rfl, rfl⟩
    exact ⟨hlate.1, hlate.2, (h.closer_late (Closer.late_of_drains hlate.1)).1.joiner⟩

/-- A drain goes on; a rotation waits until no task of a caller is left. -/
theorem Tasked.putDrain (h : Tasked s) {who : Drainer} {d d' : Drain} (hd : s.drainAt who = some d)
    (hd' : ∀ f, d' ≠ .flush f)
    (hquiet : d = .settle → d' ≠ .settle → who = .rotate → Quiet s) : Tasked (s.putDrain d' who) := by
  cases who with
  | service =>
    have hon : s.service ≠ .off := by
      rw [drainAt_service.mp hd]
      exact fun hbad => by cases hbad
    refine h.withService (.drain d') (fun _ => h.service hon)
      (fun c hbad => (by cases hbad)) ?_
    rintro f (hbad | hbad)
    · cases hbad
    · exact absurd (Service.drain.inj hbad) (hd' f)
  | rotate =>
    have hrotator := drainAt_rotate.mp hd
    have hsome : s.rotator ≠ .none := by
      rw [hrotator]
      exact fun hbad => by cases hbad
    refine h.withRotator (.drain d') (fun _ => h.rotator hsome) ?_ ?_ ?_
    · intro hlate
      by_cases hsettle : d = .settle
      · refine hquiet hsettle ?_ rfl
        rintro rfl
        cases hlate
      · refine (h.rotator_late ?_).1
        rw [hrotator]
        cases d with
        | settle => exact absurd rfl hsettle
        | _ => rfl
    · intro _
      by_contra hon
      have hwaits := (h.service hon).2.2
      rw [hrotator] at hwaits
      cases hwaits
    · intro f hbad
      exact absurd (Rotator.drain.inj hbad) (hd' f)
  | close =>
    have hcloser := drainAt_close.mp hd
    refine h.closes (by rw [hcloser]; rfl) (.drain d') (by rw [hcloser]; exact Iff.rfl) ?_
    intro f hbad
    exact absurd (Closer.drain.inj hbad) (hd' f)

/-- A rotation ends, and the service begins again unless the owner stops. -/
theorem Live.rotateEnds (h : Live s) (hlate : s.rotator.early = false) (restarts : Bool) :
    Live (s.rotateEnds restarts) := by
  obtain ⟨hquiet, hoff, _, hcloser⟩ := h.tasked.rotator_late hlate
  have hended : Live { s with commit := { s.commit with rotating := false }, rotator := .none } := by
    refine ⟨h.kept.congr rfl rfl rfl rfl rfl rfl rfl rfl rfl rfl, ?_⟩
    refine ⟨fun f hf => absurd hf (hquiet.worker f), ?_, ?_, fun hon => absurd hoff hon,
      h.tasked.selected, fun hbad => absurd rfl hbad, h.tasked.closing, h.tasked.submission, ?_,
      h.tasked.empties, h.tasked.closed, h.tasked.slots,
      h.tasked.paired, h.tasked.valid⟩
    · intro c hc
      exact absurd hquiet.joiner (by simp [show s.joiner = some c from hc])
    · intro hw
      exact absurd hquiet.waiter (by simp [show s.waiter = true from hw])
    · intro place f hf
      cases place with
      | rotate => cases hf
      | service => exact h.tasked.flush .service f hf
      | serviceDrain => exact h.tasked.flush .serviceDrain f hf
      | worker => exact h.tasked.flush .worker f hf
      | close => exact h.tasked.flush .close f hf
  unfold State.rotateEnds
  dsimp only
  split
  next hruns =>
    split
    next =>
      refine ⟨hended.kept, hended.tasked.withService .looping ?_
        (fun c hbad => (by cases hbad)) fun f hbad => (by rcases hbad with hbad | hbad <;> cases hbad)⟩
      intro _
      exact ⟨hruns.1, Closer.waits_of_early hcloser, rfl⟩
    next => exact hended.step (Commit.kept_coordinatorFails hended.kept _) (Commit.same_coordinatorFails _)
  next => exact hended

/-- The queue is empty: what a drain was for goes on. -/
theorem Live.drained (h : Live s) {who : Drainer} (hd : s.drainAt who = some .loop)
    (hnil : s.commit.queue = []) : Live (s.drained who) := by
  obtain ⟨hfit, hdrains, _⟩ := h.tasked.drain_fit hd (by decide)
  cases who with
  | service =>
    exact ⟨h.kept, h.tasked.withService .done (fun _ => h.tasked.service hfit)
      (fun c hbad => (by cases hbad)) fun f hbad => (by rcases hbad with hbad | hbad <;> cases hbad)⟩
  | rotate =>
    unfold State.drained
    dsimp only
    split
    next => exact h.rotateEnds hfit true
    next => exact ⟨h.kept, h.tasked.rotates hfit .writer fun f hbad => (by cases hbad)⟩
  | close =>
    have hsome : s.closer ≠ .none := by
      rw [drainAt_close.mp hd]
      exact fun hbad => by cases hbad
    exact ⟨h.kept, h.tasked.withCloser .observers (fun _ => h.tasked.closing hsome)
      (fun _ => h.tasked.closer_late (Closer.late_of_drains hfit)) (fun _ => h.tasked.closer_drains hfit)
      (fun _ => hnil) (fun _ => rfl) fun f hbad => (by cases hbad)⟩

/-- **A forced drain always captures while the queue is not empty.** -/
theorem Live.drainLoop (h : Live s) {who : Drainer} (hd : s.drainAt who = some .loop) :
    Live (s.drainLoop who) := by
  unfold State.drainLoop
  split
  next hnil => exact h.drained hd hnil
  next hne =>
    have hsome := Commit.forced_captures h.kept hne 0
    have hforced := h.step (Commit.kept_force h.kept) Commit.same_force
    have hkept := Commit.kept_capture hforced.kept hforced.tasked.short 0
    obtain ⟨hflags, hbarriers, hlength, hactive, hselects, _⟩ :=
      Commit.capture_frame s.commit.force 0
    have hcaptured : Live { s with commit := (s.commit.force.capture 0).2 } :=
      ⟨hkept, hforced.tasked.same hflags hactive hlength fun _ hin => hbarriers ▸ hin⟩
    split
    next commit heq =>
      rw [heq] at hsome
      cases hsome
    next c commit heq =>
      rw [heq] at hcaptured hselects
      obtain ⟨hfit, hdrains, hjoiner⟩ := hcaptured.tasked.drain_fit hd (by decide)
      exact hcaptured.flushOwned hfit hdrains hjoiner (hselects c rfl)

/-- Nobody waits or joins: no task of a caller runs. -/
theorem Tasked.quiet (h : Tasked s) (hwaiting : s.commit.waiting = false)
    (hjoining : s.commit.joining = false) : Quiet s := by
  refine ⟨?_, ?_, ?_⟩
  · intro f hf
    have hjoins := (h.flush .worker f (flushAt_worker.mpr hf)).joining
    rw [hjoining] at hjoins
    cases hjoins
  · cases hj : s.joiner with
    | none => rfl
    | some c =>
      have hjoins := (h.joiner c hj).2.2.1
      rw [hjoining] at hjoins
      cases hjoins
  · cases hw : s.waiter with
    | false => rfl
    | true =>
      have hwaits := (h.waiter hw).2
      rw [hwaiting] at hwaits
      cases hwaits

theorem Live.drains (h : Live s) {who : Drainer} {s' : State} (hstep : s.drains who = some s') :
    Live s' := by
  unfold State.drains at hstep
  split at hstep
  next hd =>
    obtain ⟨hclear, ⟨⟩⟩ := Option.ite_none_left_eq_some.mp hstep
    rw [not_or, not_or, Bool.not_eq_true, Bool.not_eq_true, Bool.not_eq_true] at hclear
    refine ⟨by cases who <;> exact h.kept, h.tasked.putDrain hd (fun f hbad => (by cases hbad)) ?_⟩
    intro _ _ _
    exact h.tasked.quiet hclear.2.1 hclear.2.2
  next hd =>
    split at hstep
    next => cases hstep
    next =>
      cases hstep
      have hnone : Live { s with worker := .none } :=
        ⟨h.kept, h.tasked.withWorker .none fun f hbad => (by cases hbad)⟩
      refine ⟨by cases who <;> exact h.kept, ?_⟩
      have hd' : State.drainAt { s with worker := .none } who = some .worker := by
        cases who <;> exact hd
      exact hnone.tasked.putDrain hd' (fun f hbad => (by cases hbad)) nofun
  next hd =>
    cases hstep
    exact h.drainLoop hd
  next => cases hstep

end Tasks

end KwaqueStorage.GroupCommit
