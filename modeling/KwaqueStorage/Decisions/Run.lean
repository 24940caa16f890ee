import KwaqueStorage.Decisions.Consistent

/-!
# The decision log over any run

An operation that goes on to publish carries a decision that agrees with everything that is held, and a
sequence no file has. Both stay so until it ends, as nothing else changes what is held. A record that may
be there and is not held has fenced the log.
-/

namespace KwaqueStorage.Decisions

open Lib
open Publication (Failure Outcome Fault Disposition pathError)
open KwaqueStorage.Control (RootReference CheckpointRoot)

/-- What an operation in flight rests on. -/
def Apt (issued : List (Ids.Kind × Nat)) (used : List Nat) (files : List File)
    (records : List DecisionRecord) : Operation → Prop
  | .adopting _ _ => True
  | .scanning r => answer r records = none ∧ r.action ≠ .sealAt
  | .allocating value => Joins records value
  | .encoding value sequence =>
    Joins records value ∧ (Ids.Kind.decision, sequence) ∈ issued ∧ sequence ∉ used
  | .publishing value pin =>
    Joins records value ∧ pin.sequence ∈ used ∧ ∀ f ∈ files, f.pin.sequence ≠ pin.sequence

/-- **What a log keeps.** -/
structure LogOk (issued : List (Ids.Kind × Nat)) (used : List Nat) (files : List File) (log : Log) :
    Prop where
  consistent : Consistent log.records
  durable : ∀ x ∈ log.records, ⟨x.pin, x.value, true⟩ ∈ files
  known : ∀ f ∈ files, f.pin.sequence ∈ log.published →
    ⟨f.pin, f.value⟩ ∈ log.records ∨ log.fenced = true
  apt : ∀ op, log.operation = some op → Apt issued used files log.records op

/-- **What a state keeps.** -/
structure Keeps (rootOf : RootReference → CheckpointRoot) (s : State) : Prop where
  sound : Ids.Sound rootOf s.ids
  issued : ∀ sequence ∈ s.used, (Ids.Kind.decision, sequence) ∈ s.ids.issued
  used : s.used.Nodup
  once : (s.files.map fun f => f.pin.sequence).Nodup
  files : ∀ f ∈ s.files, f.pin.sequence ∈ s.used
  log : ∀ log, s.log = some log → LogOk s.ids.issued s.used s.files log

section Steps

variable {rootOf : RootReference → CheckpointRoot} {s : State} {log : Log}

theorem LogOk.idle {issued : List (Ids.Kind × Nat)} {used : List Nat} {files : List File}
    (h : LogOk issued used files log) :
    LogOk issued used files { log with operation := none } :=
  ⟨h.consistent, h.durable, h.known, fun op hop => (by cases hop)⟩

theorem LogOk.awaits {issued : List (Ids.Kind × Nat)} {used : List Nat} {files : List File}
    (h : LogOk issued used files log)
    {op : Operation} (hop : Apt issued used files log.records op) :
    LogOk issued used files { log with operation := some op } := by
  refine ⟨h.consistent, h.durable, h.known, ?_⟩
  intro op' hop'
  cases hop'
  exact hop

/-- The log of the state has changed, and nothing else. -/
theorem Keeps.held (h : Keeps rootOf s) (hlog : LogOk s.ids.issued s.used s.files log) (replies : List Reply) :
    Keeps rootOf { s with log := some log, replies } := by
  refine { h with log := ?_ }
  intro log' hlog'
  cases hlog'
  exact hlog

theorem Keeps.reply (h : Keeps rootOf s) (hlog : LogOk s.ids.issued s.used s.files log) (result : Reply) :
    Keeps rootOf (s.reply log result) := h.held hlog.idle _

theorem Keeps.refused (h : Keeps rootOf s) (code : Errc) : Keeps rootOf (s.refused code) :=
  ⟨h.sound, h.issued, h.used, h.once, h.files, h.log⟩

theorem Keeps.awaiting (h : Keeps rootOf s) (hlog : LogOk s.ids.issued s.used s.files log) {op : Operation}
    (hop : Apt s.ids.issued s.used s.files log.records op) : Keeps rootOf (s.awaits log op) :=
  h.held (hlog.awaits hop) _

/-! ## The operations -/

theorem Keeps.adopt (h : Keeps rootOf s) (hlog : s.log = some log) (pin : Pin) (segment : Nat) :
    Keeps rootOf (s.adopt log pin segment) := by
  have hok := h.log log hlog
  unfold State.adopt
  split
  next =>
    split
    next => exact h.reply hok _
    next => exact h.reply hok _
  next =>
    split
    next => exact h.reply hok _
    next => exact h.awaiting hok trivial

/-- What is read back is held where it agrees with everything that is. -/
theorem Keeps.adopted (h : Keeps rootOf s) (hlog : s.log = some log) {pin : Pin} {segment : Nat}
    {value : Decision} (hload : s.load pin segment = some value) :
    Keeps rootOf (s.adopted log pin value) := by
  have hok := h.log log hlog
  obtain ⟨f, hfound, rfl⟩ := Option.map_eq_some_iff.mp hload
  have hin := List.mem_of_find?_eq_some hfound
  have hmatch := List.find?_some hfound
  rw [decide_eq_true_eq] at hmatch
  obtain ⟨hdurable, rfl, _⟩ := hmatch
  unfold State.adopted
  split
  next => exact h.reply hok _
  next hheld =>
    have hjoins := heldBy_joins hok.consistent (Bool.eq_false_of_not_eq_true hheld)
    refine h.held ⟨hok.consistent.add hjoins f.pin, ?_, ?_, fun op hop => (by cases hop)⟩ _
    · intro x hx
      rw [List.mem_append, List.mem_singleton] at hx
      rcases hx with hx | rfl
      · exact hok.durable x hx
      · have hsame : (⟨f.pin, f.value, true⟩ : File) = f := by
          rw [← hdurable]
        rw [hsame]
        exact hin
    · intro g hg hpublished
      rcases hok.known g hg hpublished with hheld | hfenced
      · exact .inl (List.mem_append_left _ hheld)
      · exact .inr hfenced

theorem Keeps.persist (h : Keeps rootOf s) (hlog : s.log = some log) {value : Decision}
    (hjoins : Joins log.records value) (reserved : Bool) : Keeps rootOf (s.persist log value reserved) := by
  have hok := h.log log hlog
  unfold State.persist
  split
  next => exact h.reply hok _
  next => exact h.awaiting hok hjoins

theorem Keeps.resolve (h : Keeps rootOf s) (hlog : s.log = some log) (r : CandidateResolution)
    (descriptor : Nat) : Keeps rootOf (s.resolve log r descriptor) := by
  have hok := h.log log hlog
  unfold State.resolve
  split
  next => exact h.reply hok _
  next hvalid =>
    split
    next => exact h.reply hok _
    next hnone => exact h.awaiting hok ⟨hnone, fun hbad => hvalid (.inl hbad)⟩

theorem Keeps.scanned (h : Keeps rootOf s) (hlog : s.log = some log) {r : CandidateResolution}
    (hop : log.operation = some (.scanning r)) (reserved : Bool) (found : Except Errc (Option (Nat × Nat))) :
    Keeps rootOf (s.scanned log r reserved found) := by
  have hok := h.log log hlog
  obtain ⟨hnone, hcandidate⟩ := hok.apt _ hop
  unfold State.scanned
  split
  next => exact h.reply hok _
  next => exact h.reply hok _
  next =>
    split
    next => exact h.reply hok _
    next => exact h.persist hlog (answer_none hnone hcandidate _) reserved

theorem Keeps.resolveSeal (h : Keeps rootOf s) (hlog : s.log = some log) (r : SealResolution)
    (proof : SealProof) (reserved : Bool) : Keeps rootOf (s.resolveSeal log r proof reserved) := by
  have hok := h.log log hlog
  unfold State.resolveSeal
  split
  next => exact h.reply hok _
  next =>
    split
    next => exact h.reply hok _
    next hnone => exact h.persist hlog (settled_none hnone _ _) reserved

/-- The file that a publication leaves has a sequence no other has. -/
theorem Keeps.leaves (h : Keeps rootOf s) {value : Decision} {pin : Pin}
    (hused : pin.sequence ∈ s.used) (hfree : ∀ f ∈ s.files, f.pin.sequence ≠ pin.sequence)
    (effect : Effect) :
    ((s.files ++ State.leaves value pin effect).map fun f => f.pin.sequence).Nodup
      ∧ ∀ f ∈ s.files ++ State.leaves value pin effect, f.pin.sequence ∈ s.used := by
  have hleft : ∀ f ∈ State.leaves value pin effect, f.pin = pin ∧ f.value = value := by
    intro f hf
    cases effect with
    | absent => cases hf
    | present =>
      obtain rfl := List.mem_singleton.mp hf
      exact ⟨rfl, rfl⟩
    | durable =>
      obtain rfl := List.mem_singleton.mp hf
      exact ⟨rfl, rfl⟩
  refine ⟨?_, ?_⟩
  · rw [List.map_append, List.nodup_append]
    refine ⟨h.once, ?_, ?_⟩
    · cases effect with
      | absent => exact List.nodup_nil
      | present => exact List.Pairwise.cons (fun _ hbad => (by cases hbad)) List.Pairwise.nil
      | durable => exact List.Pairwise.cons (fun _ hbad => (by cases hbad)) List.Pairwise.nil
    · intro a ha b hb
      obtain ⟨f, hf, rfl⟩ := List.mem_map.mp ha
      obtain ⟨g, hg, rfl⟩ := List.mem_map.mp hb
      rw [(hleft g hg).1]
      exact hfree f hf
  · intro f hf
    rcases List.mem_append.mp hf with hf | hf
    · exact h.files f hf
    · rw [(hleft f hf).1]
      exact hused

/-- **A publication ends**: what may be there and is not held fences the log. -/
theorem Keeps.published (h : Keeps rootOf s) (hlog : s.log = some log) {value : Decision} {pin : Pin}
    (hop : log.operation = some (.publishing value pin)) {threw : Bool} {outcome : Outcome}
    {effect : Effect} (htells : tells threw outcome effect = true) (closing : Option Fault) :
    Keeps rootOf ({ s with files := s.files ++ State.leaves value pin effect }.publishEnds log value pin
      threw outcome closing) := by
  have hok := h.log log hlog
  obtain ⟨hjoins, hused, hfree⟩ := hok.apt _ hop
  obtain ⟨honce, hfiles⟩ := @Keeps.leaves rootOf s h value pin hused hfree effect
  unfold State.publishEnds
  dsimp only
  generalize hfailed : (if threw = true then some Fault.thrown else outcome.failure).or closing = failed
  generalize hdisposed : (if threw = true then Disposition.untouched else outcome.disposition) = disposition
  split
  next hfails =>
    refine ⟨h.sound, h.issued, h.used, honce, hfiles, ?_⟩
    intro log' hlog'
    cases hlog'
    refine ⟨hok.consistent, fun x hx => List.mem_append_left _ (hok.durable x hx), ?_,
      fun op hop' => (by cases hop')⟩
    intro f hf hpublished
    rcases List.mem_append.mp hf with hold | hnew
    · rcases hok.known f hold hpublished with hheld | hfenced
      · exact .inl hheld
      · right
        dsimp only
        rw [hfenced, Bool.true_or, Bool.true_or]
    · right
      dsimp only
      cases threw with
      | true => rw [Bool.true_or, Bool.or_true]
      | false =>
        have hdisposition : disposition ≠ .untouched := by
          rintro rfl
          unfold tells at htells
          rw [show outcome.disposition = .untouched from hdisposed] at htells
          obtain rfl : effect = .absent := of_decide_eq_true htells
          cases hnew
        simp [hdisposition]
  next hdone =>
    rw [not_or, not_not] at hdone
    obtain rfl : effect = .durable := by
      cases threw with
      | true => cases hdisposed.trans hdone.2
      | false =>
        unfold tells at htells
        rw [show outcome.disposition = .durable from hdisposed.trans hdone.2] at htells
        exact of_decide_eq_true htells
    refine ⟨h.sound, h.issued, h.used, honce, hfiles, ?_⟩
    intro log' hlog'
    cases hlog'
    refine ⟨hok.consistent.add hjoins pin, ?_, ?_, fun op hop' => (by cases hop')⟩
    · intro x hx
      rcases List.mem_append.mp hx with hx | hx
      · exact List.mem_append_left _ (hok.durable x hx)
      · obtain rfl := List.mem_singleton.mp hx
        exact List.mem_append_right _ (List.mem_singleton.mpr rfl)
    · intro f hf hpublished
      rcases List.mem_append.mp hf with hf | hf
      · rcases hok.known f hf hpublished with hheld | hfenced
        · exact .inl (List.mem_append_left _ hheld)
        · exact .inr hfenced
      · obtain rfl := List.mem_singleton.mp hf
        exact .inl (List.mem_append_right _ (List.mem_singleton.mpr rfl))

/-! ## The allocator goes on, and stops -/

theorem Apt.issued {issued issued' : List (Ids.Kind × Nat)} {used : List Nat} {files : List File}
    {records : List DecisionRecord} {op : Operation} (h : Apt issued used files records op)
    (hmore : ∀ i ∈ issued, i ∈ issued') : Apt issued' used files records op := by
  cases op with
  | adopting pin segment => trivial
  | scanning r => exact h
  | allocating value => exact h
  | encoding value sequence => exact ⟨h.1, hmore _ h.2.1, h.2.2⟩
  | publishing value pin => exact h

/-- The ID of a decision that was just returned is the newest. -/
theorem newDecision_some {before after : Ids.State} {id : Nat} (h : newDecision before after = some id)
    (hissued : after.issued = before.issued ∨ ∃ kind i, after.issued = (kind, i) :: before.issued) :
    after.issued = (.decision, id) :: before.issued := by
  unfold newDecision at h
  split at h
  next => cases h
  next hlength =>
    rcases hissued with hsame | ⟨kind, i, hnew⟩
    · rw [hsame] at hlength
      exact absurd rfl hlength
    · rw [hnew] at h ⊢
      split at h
      next id' rest heq =>
        cases h
        rw [(List.cons.inj heq).1]
      next => cases h

theorem Keeps.ids (h : Keeps rootOf s) {event : Ids.Event} {ids : Ids.State}
    (hstep : s.ids.step rootOf event = some ids) :
    Keeps rootOf { s with
      ids
      log := s.log.map fun log =>
        match log.operation, newDecision s.ids ids with
        | some (.allocating value), some id => { log with operation := some (.encoding value id) }
        | _, _ => log } := by
  have hsound := h.sound.step hstep
  have hissued := Ids.step_issued hstep
  have hmore : ∀ i ∈ s.ids.issued, i ∈ ids.issued := by
    intro i hi
    rcases hissued with hsame | ⟨kind, id, hnew⟩
    · rw [hsame]
      exact hi
    · rw [hnew]
      exact List.mem_cons_of_mem _ hi
  refine ⟨hsound, fun sequence hin => hmore _ (h.issued sequence hin), h.used, h.once, h.files, ?_⟩
  intro log' hlog'
  obtain ⟨log, hlog, hnext⟩ := Option.map_eq_some_iff.mp hlog'
  have hok := h.log log hlog
  have hsame : LogOk ids.issued s.used s.files log :=
    ⟨hok.consistent, hok.durable, hok.known, fun op hop => (hok.apt op hop).issued hmore⟩
  split at hnext
  next value id hop hid =>
    obtain rfl := hnext
    have hnew := newDecision_some hid hissued
    have hjoins : Joins log.records value := hok.apt _ hop
    refine hsame.awaits ⟨hjoins, ?_, ?_⟩
    · rw [hnew]
      exact List.mem_cons_self
    · intro hbad
      exact absurd (hsound.newest hnew id (h.issued id hbad)) (Nat.lt_irrefl _)
  next =>
    obtain rfl := hnext
    exact hsame

/-- A stop finds of the files in doubt what it finds. -/
theorem Keeps.stop (h : Keeps rootOf s) {ids : Ids.State}
    (hstep : s.ids.step rootOf (.control .stop) = some ids) (cut : Effect) (found : Nat → Bool) :
    Keeps rootOf { s with
      ids
      log := none
      files := ((s.files ++ s.cutOff cut).filter fun f => f.durable || found f.pin.sequence).map fun f =>
        { f with durable := true } } := by
  have hmore : ∀ i ∈ s.ids.issued, i ∈ ids.issued := by
    intro i hi
    rcases Ids.step_issued hstep with hsame | ⟨kind, id, hnew⟩
    · rw [hsame]
      exact hi
    · rw [hnew]
      exact List.mem_cons_of_mem _ hi
  have hall : ((s.files ++ s.cutOff cut).map fun f => f.pin.sequence).Nodup
      ∧ ∀ f ∈ s.files ++ s.cutOff cut, f.pin.sequence ∈ s.used := by
    unfold State.cutOff
    split
    next value pin hop =>
      obtain ⟨log, hlog, hop⟩ := Option.bind_eq_some_iff.mp hop
      obtain ⟨_, hused, hfree⟩ := (h.log log hlog).apt _ hop
      exact h.leaves hused hfree cut
    next =>
      rw [List.append_nil]
      exact ⟨h.once, h.files⟩
  refine ⟨h.sound.step hstep, fun sequence hin => hmore _ (h.issued sequence hin), h.used, ?_, ?_,
    fun log hbad => (by cases hbad)⟩
  · dsimp only
    rw [List.map_map]
    exact hall.1.sublist (List.Sublist.map _ List.filter_sublist)
  · intro f hf
    obtain ⟨g, hg, rfl⟩ := List.mem_map.mp hf
    exact hall.2 g (List.mem_of_mem_filter hg)

/-- The record is given to a publisher, under a sequence that none was given before. -/
theorem Keeps.encoded (h : Keeps rootOf s) (hlog : s.log = some log) {value : Decision} {sequence : Nat}
    (hop : log.operation = some (.encoding value sequence)) (digest bytes : Nat) :
    Keeps rootOf ({ s with used := sequence :: s.used }.awaits
      { log with published := sequence :: log.published } (.publishing value ⟨sequence, digest, bytes⟩)) := by
  have hok := h.log log hlog
  obtain ⟨hjoins, hissued, hunused⟩ := hok.apt _ hop
  have hfree : ∀ f ∈ s.files, f.pin.sequence ≠ sequence := by
    rintro f hf rfl
    exact hunused (h.files f hf)
  refine ⟨h.sound, ?_, List.nodup_cons.mpr ⟨hunused, h.used⟩, h.once,
    fun f hf => List.mem_cons_of_mem _ (h.files f hf), ?_⟩
  · intro q hq
    rcases List.mem_cons.mp hq with rfl | hq
    · exact hissued
    · exact h.issued q hq
  · intro log' hlog'
    cases hlog'
    refine ⟨hok.consistent, hok.durable, ?_, ?_⟩
    · intro f hf hpublished
      rcases List.mem_cons.mp hpublished with hbad | hpublished
      · exact absurd hbad (hfree f hf)
      · exact hok.known f hf hpublished
    · intro op hop'
      cases hop'
      exact ⟨hjoins, List.mem_cons_self, hfree⟩

/-! ## Every run -/

theorem Keeps.entered (h : Keeps rootOf s) {polled : Option Errc} {f : Log → State}
    (hgoes : ∀ log, s.log = some log → Keeps rootOf (f log)) {s' : State}
    (hstep : (s.log.map fun log =>
      match State.refuses log polled with
      | some code => s.refused code
      | none => f log) = some s') : Keeps rootOf s' := by
  obtain ⟨log, hlog, hnext⟩ := Option.map_eq_some_iff.mp hstep
  split at hnext
  next code _ =>
    obtain rfl := hnext
    exact h.refused code
  next =>
    obtain rfl := hnext
    exact hgoes log hlog

theorem Keeps.step (h : Keeps rootOf s) {event : Event} {s' : State}
    (hstep : s.step rootOf event = some s') : Keeps rootOf s' := by
  cases event with
  | ids event =>
    simp only [State.step] at hstep
    split at hstep
    next => cases hstep
    next =>
      obtain ⟨ids, hids, rfl⟩ := Option.map_eq_some_iff.mp hstep
      exact h.ids hids
  | make limit =>
    have hfresh : Keeps rootOf { s with log := some { limit } } := by
      refine h.held ⟨?_, ?_, ?_, ?_⟩ _
      · exact fun x hx => (by cases hx)
      · exact fun x hx => (by cases hx)
      · exact fun f _ hbad => (by cases hbad)
      · exact fun op hop => (by cases hop)
    simp only [State.step] at hstep
    split at hstep
    next =>
      cases hstep
      exact hfresh
    next =>
      obtain ⟨_, ⟨⟩⟩ := Option.ite_none_right_eq_some.mp hstep
      exact hfresh
  | adopt pin segment polled => exact h.entered (fun log hlog => h.adopt hlog pin segment) hstep
  | loaded result =>
    obtain ⟨log, hlog, hstep⟩ := Option.bind_eq_some_iff.mp hstep
    obtain ⟨operation, hop, hstep⟩ := Option.bind_eq_some_iff.mp hstep
    split at hstep
    next =>
      cases hstep
      exact h.reply (h.log log hlog) _
    next pin segment _ =>
      obtain ⟨value, hload, rfl⟩ := Option.map_eq_some_iff.mp hstep
      exact h.adopted hlog hload
    next => cases hstep
  | resolve r descriptor polled => exact h.entered (fun log hlog => h.resolve hlog r descriptor) hstep
  | scanned found reserved =>
    obtain ⟨log, hlog, hstep⟩ := Option.bind_eq_some_iff.mp hstep
    obtain ⟨operation, hop, hstep⟩ := Option.bind_eq_some_iff.mp hstep
    split at hstep
    next r =>
      cases hstep
      exact h.scanned hlog hop reserved found
    next => cases hstep
  | resolveSeal r proof polled reserved =>
    exact h.entered (fun log hlog => h.resolveSeal hlog r proof reserved) hstep
  | allocateFails code =>
    obtain ⟨log, hlog, hstep⟩ := Option.bind_eq_some_iff.mp hstep
    obtain ⟨operation, hop, hstep⟩ := Option.bind_eq_some_iff.mp hstep
    split at hstep
    next =>
      cases hstep
      exact h.reply (h.log log hlog) _
    next => cases hstep
  | encoded result =>
    obtain ⟨log, hlog, hstep⟩ := Option.bind_eq_some_iff.mp hstep
    obtain ⟨operation, hop, hstep⟩ := Option.bind_eq_some_iff.mp hstep
    split at hstep
    next =>
      cases hstep
      exact h.reply (h.log log hlog) _
    next =>
      cases hstep
      exact h.encoded hlog hop _ _
    next => cases hstep
  | published threw outcome closing effect =>
    obtain ⟨log, hlog, hstep⟩ := Option.bind_eq_some_iff.mp hstep
    obtain ⟨operation, hop, hstep⟩ := Option.bind_eq_some_iff.mp hstep
    split at hstep
    next value pin =>
      obtain ⟨htells, ⟨⟩⟩ := Option.ite_none_right_eq_some.mp hstep
      exact h.published hlog hop htells closing
    next => cases hstep
  | close =>
    obtain ⟨log, hlog, rfl⟩ := Option.map_eq_some_iff.mp hstep
    have hok := h.log log hlog
    have hclosing : LogOk s.ids.issued s.used s.files { log with closing := true } :=
      ⟨hok.consistent, hok.durable, hok.known, hok.apt⟩
    split
    next => exact h
    next => exact h.held hclosing _
  | closed =>
    obtain ⟨log, hlog, hstep⟩ := Option.bind_eq_some_iff.mp hstep
    have hok := h.log log hlog
    have hclosed : LogOk s.ids.issued s.used s.files { log with closed := true } :=
      ⟨hok.consistent, hok.durable, hok.known, hok.apt⟩
    obtain ⟨_, ⟨⟩⟩ := Option.ite_none_right_eq_some.mp hstep
    exact h.held hclosed _
  | stop cut found =>
    obtain ⟨ids, hids, rfl⟩ := Option.map_eq_some_iff.mp hstep
    exact h.stop hids cut found

theorem reachable_keeps (h : (system rootOf).Reachable s) : Keeps rootOf s := by
  refine System.Run.invariant ?_ (fun _ _ _ _ hkeeps _ hstep => hkeeps.step hstep) h
  rintro s ⟨ids, hinit, rfl⟩
  exact ⟨Ids.reachable_sound (.init hinit), fun q hq => (by cases hq), List.Pairwise.nil, List.Pairwise.nil,
    fun f hf => (by cases hf), fun log hlog => (by cases hlog)⟩

/-- The call of an operation. -/
inductive Event.Calls : Event → Prop
  | adopt (pin : Pin) (segment : Nat) (polled : Option Errc) : Event.Calls (.adopt pin segment polled)
  | resolve (r : CandidateResolution) (descriptor : Nat) (polled : Option Errc) :
    Event.Calls (.resolve r descriptor polled)
  | resolveSeal (r : SealResolution) (proof : SealProof) (polled : Option Errc) (reserved : Bool) :
    Event.Calls (.resolveSeal r proof polled reserved)

theorem refuses_fenced (h : log.fenced = true) (polled : Option Errc) :
    State.refuses log polled = some .closed := by
  unfold State.refuses
  rw [if_pos (.inr (.inr h))]

/-- A log that takes a call runs no other. -/
theorem refuses_none {polled : Option Errc} (h : State.refuses log polled = none) : log.operation = none := by
  unfold State.refuses at h
  split at h
  next => cases h
  next =>
    split at h
    next => cases h
    next hidle =>
      rw [Bool.not_eq_true, Option.isSome_eq_false_iff, Option.isNone_iff_eq_none] at hidle
      exact hidle

/-- A call that is answered at once leaves everything but the answer as it was. -/
theorem reply_idle (hlog : s.log = some log) (hidle : log.operation = none) (result : Reply) :
    s.reply log result = { s with replies := result :: s.replies } := by
  have hsame : { log with operation := none } = log := by
    rw [← hidle]
  unfold State.reply
  rw [hsame, ← hlog]

/-- **The decision log over every run.** In every state of a log that calls, failures, exceptions,
    ambiguous publications, closes and restarts lead to:

* any two held decisions agree;
* a candidate's resolution that a held decision answers writes nothing, and the answer is right exactly
  where no decision of its PREPARE is shadowed by a seal;
* a seal's resolution that the held decisions settle writes nothing, and the answer is right;
* every held decision has its record durable, under a sequence that was given to a publisher once;
* a record of this log that may exist is held or has fenced the log, and a fenced log turns every
  operation away. -/
theorem decision_log (h : (system rootOf).Reachable s) (hlog : s.log = some log) :
    (∀ x ∈ log.records, ∀ y ∈ log.records, Agree x.value y.value)
    ∧ (∀ r polled outcome, State.refuses log polled = none → r.action ≠ .sealAt → r.ownerDecisionId ≠ 0 →
        answer r log.records = some outcome →
        s.step rootOf (.resolve r r.segment polled)
            = some { s with replies := .decided outcome :: s.replies }
          ∧ (Right log.records r outcome.status ↔ ¬ Shadowed log.records r))
    ∧ (∀ r proof polled reserved outcome, State.refuses log polled = none → r.ownerDecisionId ≠ 0 →
        r.segment = proof.segment → r.end_ = proof.end_ → settled log.records r = some outcome →
        s.step rootOf (.resolveSeal r proof polled reserved)
            = some { s with replies := .decided outcome :: s.replies }
          ∧ (outcome.status = .exists_ ↔ ∀ x ∈ log.records, r.Agrees x.value)
          ∧ (outcome.status = .conflict ↔ ¬ ∀ x ∈ log.records, r.Agrees x.value))
    ∧ ((∀ x ∈ log.records, ⟨x.pin, x.value, true⟩ ∈ s.files)
      ∧ (s.files.map fun f => f.pin.sequence).Nodup ∧ (∀ f ∈ s.files, f.pin.sequence ∈ s.used)
      ∧ s.used.Nodup)
    ∧ ((∀ f ∈ s.files, f.pin.sequence ∈ log.published →
        ⟨f.pin, f.value⟩ ∈ log.records ∨ log.fenced = true)
      ∧ (log.fenced = true → ∀ event : Event, event.Calls →
        s.step rootOf event = some (s.refused .closed))) := by
  have hkeeps := reachable_keeps h
  have hok := hkeeps.log log hlog
  refine ⟨hok.consistent, ?_, ?_, ⟨hok.durable, hkeeps.once, hkeeps.files, hkeeps.used⟩, hok.known, ?_⟩
  · intro r polled outcome hopen hcandidate howner hanswer
    refine ⟨?_, answer_right hok.consistent hanswer⟩
    have hvalid : ¬ (r.action = .sealAt ∨ r.ownerDecisionId = 0 ∨ r.segment ≠ r.segment) := by
      rintro (hbad | hbad | hbad)
      · exact hcandidate hbad
      · exact howner hbad
      · exact hbad rfl
    simp only [State.step, hlog, Option.map_some, hopen, State.resolve, if_neg hvalid, hanswer]
    rw [reply_idle hlog (refuses_none hopen), hlog]
  · intro r proof polled reserved outcome hopen howner hsegment hend hsettled
    refine ⟨?_, settled_right hok.consistent hsettled⟩
    have hvalid : ¬ (r.ownerDecisionId = 0 ∨ r.segment ≠ proof.segment ∨ r.end_ ≠ proof.end_) := by
      rintro (hbad | hbad | hbad)
      · exact howner hbad
      · exact hbad hsegment
      · exact hbad hend
    simp only [State.step, hlog, Option.map_some, hopen, State.resolveSeal, if_neg hvalid, hsettled]
    rw [reply_idle hlog (refuses_none hopen), hlog]
  · intro hfenced event hcalls
    cases hcalls with
    | adopt pin segment polled =>
      simp only [State.step, hlog, Option.map_some, refuses_fenced hfenced]
    | resolve r descriptor polled =>
      simp only [State.step, hlog, Option.map_some, refuses_fenced hfenced]
    | resolveSeal r proof polled reserved =>
      simp only [State.step, hlog, Option.map_some, refuses_fenced hfenced]

end Steps

/-! ## A seal that is adopted before a decision below it -/

def exampleCandidate : CandidateResolution := ⟨⟨1, 16384⟩, 7, 8192, .reconstruct, 901⟩

def exampleSeal : SealResolution := ⟨7, 12288, 902⟩

def exampleProof : SealProof := ⟨7, 12288, ⟨1, 20480⟩, 55⟩

def exampleBegin : State := { ids := Ids.exampleBegin }

def exampleDurable : Outcome := { disposition := .durable }

/-- The candidate's decision and the segment's seal are persisted, from one block of sequences. -/
def exampleDecides : List Event :=
  [.ids (.control (.open_ false false)), .ids (.make 4), .make 8,
      .resolve exampleCandidate 7 none, .scanned (.ok (some (8192, 44))) true]
    ++ (Ids.exampleRefill .decision exampleDurable false).map Event.ids
    ++ [.encoded (.ok (70, 512)), .published false exampleDurable none .durable,
      .resolveSeal exampleSeal exampleProof none true, .ids (.allocate .decision true (.ok ())),
      .encoded (.ok (71, 512)), .published false exampleDurable none .durable]

/-- After a restart the seal is adopted first, and the decision below it second. -/
def exampleAdopts : List Event :=
  [.stop .absent fun _ => false, .ids (.control (.open_ false false)), .ids (.make 4), .make 8,
    .adopt ⟨2, 71, 512⟩ 7 none, .loaded (.ok ()), .adopt ⟨1, 70, 512⟩ 7 none, .loaded (.ok ())]

def exampleState : State :=
  ((system Control.exampleRoots).exec exampleBegin (exampleDecides ++ exampleAdopts)).getD exampleBegin

theorem exampleState_reachable : (system Control.exampleRoots).Reachable exampleState := by
  have hstart : (system Control.exampleRoots).Reachable exampleBegin := .init ⟨_, ⟨_, ⟨_, rfl⟩, rfl⟩, rfl⟩
  have hexec : (system Control.exampleRoots).exec exampleBegin (exampleDecides ++ exampleAdopts)
      = some exampleState := rfl
  exact System.Run.of_exec hstart hexec

/-- The log of that state. -/
def exampleLog : Log where
  limit := 8
  records := [⟨⟨2, 71, 512⟩, ⟨⟨1, 20480⟩, 55, 7, 12288, .sealAt, 902⟩⟩,
    ⟨⟨1, 70, 512⟩, ⟨⟨1, 16384⟩, 44, 7, 8192, .reconstruct, 901⟩⟩]

theorem exampleState_log : exampleState.log = some exampleLog := by decide +kernel

/-- What is held agrees, in this order as well. -/
theorem example_log : (∀ x ∈ exampleLog.records, ∀ y ∈ exampleLog.records, Agree x.value y.value)
    ∧ exampleState.used = [2, 1] := by
  refine ⟨?_, by decide +kernel⟩
  exact (decision_log exampleState_reachable exampleState_log).1

/-- The same PREPARE, at another slot and by another decision of the owner. -/
def exampleOther : CandidateResolution := ⟨⟨1, 16384⟩, 7, 4096, .reconstruct, 903⟩

/-- **The seal answers for the decision behind it**: the resolution contradicts what is held for its
    PREPARE, and is not a conflict. -/
theorem example_shadowed : (system Control.exampleRoots).Reachable exampleState
    ∧ exampleState.log = some exampleLog
    ∧ ((exampleState.step Control.exampleRoots (.resolve exampleOther 7 none)).bind fun s => s.replies.head?)
      = some (.decided ⟨.resolved, ⟨⟨2, 71, 512⟩, ⟨⟨1, 20480⟩, 55, 7, 12288, .sealAt, 902⟩⟩⟩)
    ∧ ¬ ∀ x ∈ exampleLog.records, exampleOther.Agrees x.value := by
  refine ⟨exampleState_reachable, exampleState_log, by decide +kernel, ?_⟩
  intro hall
  have hheld := (hall ⟨⟨1, 70, 512⟩, ⟨⟨1, 16384⟩, 44, 7, 8192, .reconstruct, 901⟩⟩ (by decide)).prepare rfl
    (by decide) rfl
  cases hheld.1

end KwaqueStorage.Decisions
