import KwaqueStorage.Control.Run

/-!
# What becomes of a call

A caller of `update` hands over an edit and waits for the answer to its call. Between the two the control
does many things, and of each of them the caller has to know no more than `Moves` says: which calls are
in line with which edits, when an edit is run and on which record, and which records become durable.
-/

namespace KwaqueStorage.Control

open Publication

/-- The calls that have the turn or wait for it, with their updates. -/
def Owner.lined (o : Owner) : List (Nat × Update) :=
  (match o.turn with
    | .free => []
    | .granted call u => [(call, u)]
    | .running r => [(r.call, r.update)]) ++ o.queue

/-- The edit was run. -/
def Phase.edited : Phase → Bool
  | .validating => false
  | _ => true

/-- **What one event does to the calls**, where an owner is open before and after it. -/
structure Moves (s : State) (o : Owner) (event : Event) (s' : State) (o' : Owner) : Prop where
  calls : s.calls ≤ s'.calls
  lined : ∀ p ∈ o'.lined, p ∈ o.lined
    ∨ ∃ u reserved, event = .update u reserved ∧ p = (s.calls, u) ∧ s.calls < s'.calls
  edited : ∀ r', o'.turn = .running r' → r'.phase.edited = true →
    o'.current = o.current ∧ ∃ r, o.turn = .running r ∧ r.call = r'.call ∧ r.update = r'.update
      ∧ (r.phase.edited = true ∨ event = .validated (.ok ()))
  applied : (s'.applied = s.applied ∧ o'.current = o.current)
    ∨ ∃ r candidate noted, o.turn = .running r ∧ r.phase = .publishing candidate noted
      ∧ s'.applied = ⟨r.call, r.update, ⟨r.generation, candidate⟩⟩ :: s.applied
      ∧ o'.current = ⟨r.generation, candidate⟩

section Line

variable {o : Owner}

theorem lined_running {r : Running} (h : o.turn = .running r) :
    o.lined = (r.call, r.update) :: o.queue := by
  unfold Owner.lined
  rw [h]
  rfl

theorem lined_granted {call : Nat} {u : Update} (h : o.turn = .granted call u) :
    o.lined = (call, u) :: o.queue := by
  unfold Owner.lined
  rw [h]
  rfl

theorem mem_line {call : Nat} {u : Update} (h : (call, u) ∈ o.lined) : call ∈ o.line := by
  unfold Owner.lined at h
  unfold Owner.line
  rw [List.mem_append] at h ⊢
  rcases h with h | h
  · left
    cases hturn : o.turn with
    | free =>
      rw [hturn] at h
      cases h
    | granted call' u' =>
      rw [hturn, List.mem_singleton] at h
      rw [(Prod.mk.inj h).1]
      exact List.mem_cons_self
    | running r =>
      rw [hturn, List.mem_singleton] at h
      rw [(Prod.mk.inj h).1]
      exact List.mem_cons_self
  · exact .inr (List.mem_map_of_mem h)

theorem release_lined : o.release.lined = o.queue := by
  unfold Owner.release
  split
  next h => simp [Owner.lined, h]
  next call update rest h => simp [Owner.lined, h]

end Line

/-- The update that has the turn goes on with its own edit, or leaves the line. -/
structure Passes (o : Owner) (call : Nat) (u : Update) (ran : Prop) (o' : Owner) : Prop where
  current : o'.current = o.current
  lined : ∀ p ∈ o'.lined, p = (call, u) ∨ p ∈ o.queue
  running : ∀ r', o'.turn = .running r' → r'.call = call ∧ r'.update = u
    ∧ (r'.phase.edited = true → ran)

section Steps

variable {rootOf : RootReference → CheckpointRoot} {s : State} {o : Owner} {r : Running}

theorem passes_leave {call : Nat} {u : Update} {ran : Prop} (why : Fault) :
    Passes o call u ran (o.leave why).1 := by
  refine ⟨(@release_frame _).1, ?_, fun r' hr' => absurd hr' release_idle⟩
  intro p hp
  right
  unfold Owner.leave at hp
  rw [release_lined] at hp
  exact hp

theorem passes_goes {ran : Prop} {phase : Phase} (hran : phase.edited = true → ran) :
    Passes o r.call r.update ran (o.goes r phase).1 := by
  refine ⟨rfl, ?_, ?_⟩
  · intro p hp
    rw [Owner.goes, lined_running rfl, List.mem_cons] at hp
    exact hp
  · intro r' hr'
    obtain rfl := Turn.running.inj hr'
    exact ⟨rfl, rfl, hran⟩

theorem passes_begin {call : Nat} {u : Update} {ran : Prop} : Passes o call u ran (o.begin_ call u).1 := by
  unfold Owner.begin_
  split
  next => exact passes_leave _
  next =>
    have hgoes := @passes_goes o ⟨call, u, o.current.generation + 1, .validating⟩ ran .validating
    exact hgoes nofun

theorem passes_validated (result : Except Fault Unit) :
    Passes o r.call r.update (result = .ok ()) (o.validated r result).1 := by
  unfold Owner.validated
  split
  next => exact passes_leave _
  next =>
    split
    next => exact passes_leave _
    next =>
      split
      next => exact passes_leave _
      next => exact passes_goes fun _ => rfl

theorem passes_loadRoot (candidate : Fields) : Passes o r.call r.update True (o.loadRoot r candidate).1 := by
  unfold Owner.loadRoot
  split
  next => exact passes_goes fun _ => trivial
  next =>
    split
    next => exact passes_goes fun _ => trivial
    next => exact passes_goes fun _ => trivial

theorem passes_depended (candidate : Fields) (result : Except Fault Unit) :
    Passes o r.call r.update True (o.depended r candidate result).1 := by
  unfold Owner.depended
  split
  next => exact passes_leave _
  next =>
    unfold Owner.loadHead
    split
    next => exact passes_goes fun _ => trivial
    next => exact passes_loadRoot candidate

theorem passes_headLoaded (candidate : Fields) (result : Except Fault Unit) :
    Passes o r.call r.update True (o.headLoaded r candidate result).1 := by
  unfold Owner.headLoaded
  split
  next => exact passes_leave _
  next => exact passes_loadRoot candidate

theorem passes_rootLoaded (candidate : Fields) (result : Except Fault CheckpointRoot) :
    Passes o r.call r.update True (o.rootLoaded r candidate result).1 := by
  unfold Owner.rootLoaded
  split
  next => exact passes_leave _
  next =>
    split
    next => exact passes_leave _
    next => exact passes_goes fun _ => trivial

theorem passes_passed (next : Phase) (result : Except Fault Unit) :
    Passes o r.call r.update True (o.passed r next result).1 := by
  unfold Owner.passed
  split
  next => exact passes_leave _
  next => exact passes_goes fun _ => trivial

/-- The update in flight has passed one of its stages. -/
theorem Passes.moves {o' : Owner} {ran : Prop} {event : Event} {outcome : Option Outcome}
    (hturn : o.turn = .running r) (h : Passes o r.call r.update ran o')
    (hran : ran → r.phase.edited = true ∨ event = .validated (.ok ())) :
    Moves s o event (s.settle r.call (o', outcome)) o' := by
  refine ⟨le_refl _, ?_, ?_, .inl ⟨rfl, h.current⟩⟩
  · intro p hp
    left
    rw [lined_running hturn, List.mem_cons]
    exact h.lined p hp
  · intro r' hr' hedited
    obtain ⟨hcall, hupdate, hpast⟩ := h.running r' hr'
    exact ⟨h.current, r, hturn, hcall.symm, hupdate.symm, hran (hpast hedited)⟩

/-- Nothing of the calls has changed. -/
theorem Moves.idle {event : Event} {s' : State} {o' : Owner} (hcalls : s.calls ≤ s'.calls)
    (hturn : o'.turn = o.turn) (hqueue : o'.queue = o.queue) (hcurrent : o'.current = o.current)
    (happlied : s'.applied = s.applied) : Moves s o event s' o' := by
  refine ⟨hcalls, ?_, ?_, .inl ⟨happlied, hcurrent⟩⟩
  · intro p hp
    left
    unfold Owner.lined at hp ⊢
    rw [← hturn, ← hqueue]
    exact hp
  · intro r' hr' hedited
    rw [hturn] at hr'
    exact ⟨hcurrent, r', hr', rfl, rfl, .inl hedited⟩

theorem lined_queue {p : Nat × Update} (h : p ∈ o.queue) : p ∈ o.lined := by
  unfold Owner.lined
  exact List.mem_append_right _ h

theorem moves_update (u : Update) (reserved : Except Failure Unit) :
    ∃ o', (s.update o u reserved).owner = some o'
      ∧ Moves s o (.update u reserved) (s.update o u reserved) o' := by
  have hmore : s.calls ≤ s.calls + 1 := Nat.le_succ _
  unfold State.update
  dsimp only
  split
  next => exact ⟨o, rfl, .idle hmore rfl rfl rfl rfl⟩
  next =>
    split
    next => exact ⟨o, rfl, .idle hmore rfl rfl rfl rfl⟩
    next =>
      split
      next => exact ⟨o, rfl, .idle hmore rfl rfl rfl rfl⟩
      next =>
        split
        next =>
          have hpasses := @passes_begin o s.calls u False
          refine ⟨_, rfl, hmore, ?_, ?_, .inl ⟨rfl, hpasses.current⟩⟩
          · intro p hp
            rcases hpasses.lined p hp with rfl | hold
            · exact .inr ⟨u, _, rfl, rfl, Nat.lt_succ_self _⟩
            · exact .inl (lined_queue hold)
          · intro r' hr' hedited
            exact ((hpasses.running r' hr').2.2 hedited).elim
        next =>
          refine ⟨_, rfl, hmore, ?_, ?_, .inl ⟨rfl, rfl⟩⟩
          · intro p hp
            unfold Owner.lined at hp ⊢
            dsimp only at hp
            rw [← List.append_assoc, List.mem_append, List.mem_singleton] at hp
            rcases hp with hold | rfl
            · exact .inl hold
            · exact .inr ⟨u, _, rfl, rfl, Nat.lt_succ_self _⟩
          · intro r' hr' hedited
            exact ⟨rfl, r', hr', rfl, rfl, .inl hedited⟩

theorem update_calls (u : Update) (reserved : Except Failure Unit) :
    (s.update o u reserved).calls = s.calls + 1 := by
  unfold State.update
  dsimp only
  split
  next => rfl
  next =>
    split
    next => rfl
    next =>
      split
      next => rfl
      next =>
        split
        next => rfl
        next => rfl

theorem moves_resume {call : Nat} {u : Update} (hturn : o.turn = .granted call u) :
    ∃ o', (s.resume o call u).owner = some o' ∧ Moves s o .resume (s.resume o call u) o' := by
  unfold State.resume
  dsimp only
  split
  next =>
    refine ⟨_, rfl, le_refl _, ?_, fun r' hr' => absurd hr' release_idle, .inl ⟨rfl, (@release_frame _).1⟩⟩
    intro p hp
    rw [release_lined] at hp
    exact .inl (lined_queue hp)
  next =>
    have hpasses := @passes_begin { o with waiting := o.waiting - 1 } call u False
    refine ⟨_, rfl, le_refl _, ?_, ?_, .inl ⟨rfl, hpasses.current⟩⟩
    · intro p hp
      rcases hpasses.lined p hp with rfl | hold
      · rw [lined_granted hturn]
        exact .inl List.mem_cons_self
      · exact .inl (lined_queue hold)
    · intro r' hr' hedited
      exact ((hpasses.running r' hr').2.2 hedited).elim

theorem moves_published (hturn : o.turn = .running r) {candidate : Fields} {noted : Option Cursor}
    (hat : r.phase = .publishing candidate noted) (outcome : Outcome) (publisherFenced : Bool)
    {event : Event} :
    ∃ o', (s.published o r candidate noted outcome publisherFenced).owner = some o'
      ∧ Moves s o event (s.published o r candidate noted outcome publisherFenced) o' := by
  refine ⟨_, rfl, le_refl _, ?_, fun r' hr' => absurd hr' release_idle, ?_⟩
  · intro p hp
    unfold Owner.published at hp
    rw [release_lined] at hp
    exact .inl (lined_queue hp)
  · have hcurrent : (o.published r candidate noted outcome publisherFenced).current
        = if outcome.disposition = .durable then ⟨r.generation, candidate⟩ else o.current :=
      (@release_frame _).1
    rw [hcurrent]
    unfold State.published
    dsimp only
    split
    next => exact .inr ⟨r, candidate, noted, hturn, hat, rfl, rfl⟩
    next => exact .inl ⟨rfl, rfl⟩

/-- A step of the update in flight. -/
theorem moves_advance (hturn : o.turn = .running r) {event : Event} {s' : State}
    (hstep : s.advance rootOf o r event = some s') : ∃ o', s'.owner = some o' ∧ Moves s o event s' o' := by
  have hpast : ∀ {phase : Phase} {o' : Owner} {outcome : Option Outcome}, r.phase = phase →
      phase.edited = true → Passes o r.call r.update True o' →
      ∃ o'', (s.settle r.call (o', outcome)).owner = some o''
        ∧ Moves s o event (s.settle r.call (o', outcome)) o'' := by
    intro phase o' outcome hat hedited hpasses
    refine ⟨o', rfl, hpasses.moves hturn fun _ => .inl ?_⟩
    rw [hat]
    exact hedited
  unfold State.advance at hstep
  split at hstep
  next result =>
    split at hstep
    next =>
      cases hstep
      refine ⟨_, rfl, (passes_validated result).moves hturn ?_⟩
      rintro rfl
      exact .inr rfl
    next => cases hstep
  next result =>
    split at hstep
    next candidate hat =>
      cases hstep
      exact hpast hat rfl (passes_depended candidate result)
    next => cases hstep
  next result =>
    split at hstep
    next candidate hat =>
      cases hstep
      exact hpast hat rfl (passes_headLoaded candidate result)
    next => cases hstep
  next result =>
    split at hstep
    next candidate reference hat =>
      cases hstep
      exact hpast hat rfl (passes_rootLoaded candidate _)
    next => cases hstep
  next result =>
    split at hstep
    next candidate noted hat =>
      cases hstep
      exact hpast hat rfl (passes_passed _ result)
    next => cases hstep
  next result =>
    split at hstep
    next candidate noted hat =>
      cases hstep
      exact hpast hat rfl (passes_passed _ result)
    next => cases hstep
  next outcome fenced =>
    split at hstep
    next candidate noted hat =>
      cases hstep
      exact moves_published hturn hat outcome fenced
    next => cases hstep
  next =>
    split at hstep
    next candidate noted hat =>
      cases hstep
      exact hpast hat rfl (passes_leave _)
    next => cases hstep
  next => cases hstep

/-- **What any event does to the calls**: the process stops, or the calls move. -/
theorem step_moves (howner : s.owner = some o) {event : Event} {s' : State}
    (hstep : s.step rootOf event = some s') :
    (event = .stop ∧ s'.owner = none ∧ s'.applied = s.applied ∧ s'.first = s.first)
      ∨ ∃ o', s'.owner = some o' ∧ Moves s o event s' o' := by
  cases stepped_of_step howner hstep with
  | stop => exact .inl ⟨rfl, rfl, rfl, rfl⟩
  | update u reserved => exact .inr (moves_update u reserved)
  | marked walWriterActive closing closed => exact .inr ⟨_, rfl, .idle (le_refl _) rfl rfl rfl rfl⟩
  | resume hturn => exact .inr (moves_resume hturn)
  | advance hturn hadvance => exact .inr (moves_advance hturn hadvance)

end Steps

end KwaqueStorage.Control
