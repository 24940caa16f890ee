import KwaqueStorage.Spares.Owner

/-!
# A spare is never durable under two names

As long as nothing fails between a rename and the sync of the directory it left, at most one file is
moving at any time, and none between two turns: so a crash leaves each file one name, but for the one
that is moving, if the file system has made its new name durable before any sync did. A failure in
between is forgotten: the next sync of the spare directory makes a name durable there that the
directory it left still has.
-/

namespace KwaqueStorage.Spares

open Lib Extent

variable {δ ℓ ν φ α β : Type} [DecidableEq δ] [DecidableEq ℓ]

/-- Nothing is moving. -/
structure Still (w : World δ ℓ φ) : Prop where
  moved : w.moved = []
  apart : w.dirs.Apart

/-- One file is. -/
structure OnTheWay (file : φ) (left at_ : δ) (w : World δ ℓ φ) : Prop where
  moved : w.moved = [(file, left, at_)]
  moving : w.dirs.Moving file left at_

/-- **What a crash may find.** -/
def Safe (w : World δ ℓ φ) : Prop := Still w ∨ ∃ file left at_, OnTheWay file left at_ w

/-- A program that leaves nothing moving. -/
def Calm (φ : Type) (p : Turn δ ℓ α) : Prop :=
  Prog.Triple (@World.fineStep δ ℓ φ _ _) Still p (fun _ => Still) Safe

section Steps

variable {w w' : World δ ℓ φ} {e : Command δ ℓ} {r : Answer e}

theorem fineStep_cases (h : w.fineStep e r = some w') :
    w.step e r = some w' ∧ World.unmade e r = true
      ∧ (w.moved ≠ [] → World.failed e r = false) := by
  unfold World.fineStep at h
  split at h
  next hfine =>
    unfold World.fine at hfine
    rw [Bool.and_eq_true, Bool.or_eq_true] at hfine
    refine ⟨h, hfine.1, ?_⟩
    intro hmoved
    rcases hfine.2 with hempty | hfailed
    · exact absurd (List.isEmpty_iff.mp hempty) hmoved
    · simpa using hfailed
  next => cases h

/-- A command that is no rename moves nothing. -/
theorem Still.step (hstill : Still w) (hother : e.isRename = false)
    (h : w.step e r = some w') : Still w' := by
  cases e with
  | rename from_ to_ => cases hother
  | removeFile at_ =>
    replace h : w.removed at_ r = some w' := h
    unfold World.removed at h
    split at h
    next =>
      obtain ⟨_, ⟨⟩⟩ := Option.ite_none_right_eq_some.mp h
      exact ⟨hstill.moved, hstill.apart.remove⟩
    next =>
      obtain ⟨_, ⟨⟩⟩ := Option.ite_none_left_eq_some.mp h
      exact hstill
  | syncDirectory directory =>
    cases h
    cases r with
    | error why => exact hstill
    | ok u =>
      refine ⟨?_, hstill.apart.sync⟩
      simp only [World.synced, hstill.moved, List.filter_nil]
  | stat _ =>
    cases h
    exact hstill
  | inspect _ =>
    cases h
    exact hstill
  | openDirectory _ =>
    cases h
    exact hstill
  | next _ =>
    cases h
    exact hstill
  | closeDirectory _ =>
    cases h
    exact hstill
  | createDirectories _ =>
    cases h
    exact hstill
  | checkpoint =>
    cases h
    exact hstill

/-- **A rename** that was made has one file moving, unless it stays in its directory. -/
theorem Still.rename (hstill : Still w) {from_ to_ : δ × ℓ} {change : Change}
    (h : w.fineStep (.rename from_ to_) change = some w') :
    (change.result.isOk = false ∧ Still w')
      ∨ (change.result.isOk = true ∧ (Still w' ∨ ∃ file, OnTheWay file from_.1 to_.1 w')) := by
  obtain ⟨hstep, hunmade, _⟩ := fineStep_cases h
  replace hstep : w.renamed from_ to_ change = some w' := hstep
  replace hunmade : (change.result.isOk || !change.made) = true := hunmade
  unfold World.renamed at hstep
  cases hok : change.result.isOk with
  | false =>
    rw [hok, Bool.false_or, Bool.not_eq_true'] at hunmade
    rw [hunmade, hok] at hstep
    simp only [Bool.false_eq_true, if_false, Option.some.injEq] at hstep
    subst hstep
    exact .inl ⟨rfl, hstill⟩
  | true =>
    refine .inr ⟨rfl, ?_⟩
    split at hstep
    next =>
      split at hstep
      next file hfrom hto =>
        cases hstep
        by_cases hsame : from_.1 = to_.1
        · refine .inl ⟨?_, hstill.apart.move_within hsame hfrom⟩
          simp only [if_pos hsame, hstill.moved]
        · refine .inr ⟨file, ?_, hstill.apart.move_out hsame hfrom⟩
          simp only [if_neg hsame, hstill.moved]
      next => cases hstep
    next => cases hstep

/-- While a file is moving, the sync of the directory it left does not fail. -/
theorem OnTheWay.step {file : φ} {left at_ : δ} (hmoving : OnTheWay file left at_ w)
    (h : w.fineStep e r = some w') : World.failed e r = false ∧ w.step e r = some w' := by
  obtain ⟨hstep, _, hfailed⟩ := fineStep_cases h
  refine ⟨hfailed ?_, hstep⟩
  rw [hmoving.moved]
  exact List.cons_ne_nil _ _

end Steps

/-! ## Programs -/

section Programs

theorem calm_done (a : α) : Calm φ (.done a : Turn δ ℓ α) :=
  Prog.Triple.done fun _ hstill => ⟨hstill, .inl hstill⟩

/-- A command that is no rename. -/
theorem calm_call {e : Command δ ℓ} (hother : e.isRename = false) :
    Calm φ (.call e .done : Turn δ ℓ (Answer e)) := by
  refine Prog.Triple.call (fun _ hstill => .inl hstill) fun r => ?_
  refine (calm_done r).weaken ?_ (fun _ _ h => h) fun _ h => h
  rintro w' ⟨w, hstill, hstep⟩
  exact hstill.step hother (fineStep_cases hstep).1

theorem calm_bind {p : Turn δ ℓ α} {f : α → Turn δ ℓ β} (hp : Calm φ p)
    (hf : ∀ a, Calm φ (f a)) : Calm φ (p.bind f) :=
  Prog.Triple.bind hp hf

theorem calm_sync (directory : δ) :
    Calm φ (Pool.sync directory : Turn δ ℓ (Except Fault Unit)) := by
  refine calm_bind (calm_call rfl) fun inspected => ?_
  cases inspected with
  | error why => exact calm_done _
  | ok _ =>
    refine calm_bind (calm_call rfl) fun opened => ?_
    cases opened with
    | error why => exact calm_done _
    | ok _ =>
      refine calm_bind (calm_call rfl) fun synced => ?_
      exact calm_bind (calm_call rfl) fun closed => calm_done _

/-- **The sync of the directory a file left**: the file has arrived, whatever the sync returns. -/
theorem sync_arrives {file : φ} {left at_ : δ} :
    Prog.Triple World.fineStep (OnTheWay file left at_)
      (Pool.sync left : Turn δ ℓ (Except Fault Unit)) (fun _ => Still) Safe := by
  have hsafe : ∀ w : World δ ℓ φ, OnTheWay file left at_ w → Safe w :=
    fun _ hmoving => .inr ⟨file, left, at_, hmoving⟩
  refine Prog.Triple.call hsafe fun inspected => ?_
  cases inspected with
  | error why =>
    rintro w' ⟨w, hmoving, hstep⟩
    cases (hmoving.step hstep).1
  | ok _ =>
    refine Prog.Triple.call ?_ fun opened => ?_
    · rintro w' ⟨w, hmoving, hstep⟩
      obtain rfl := Option.some.inj (hmoving.step hstep).2
      exact hsafe w hmoving
    cases opened with
    | error why =>
      rintro w'' ⟨w', ⟨w, hmoving, hstep⟩, hstep'⟩
      obtain rfl := Option.some.inj (hmoving.step hstep).2
      cases (hmoving.step hstep').1
    | ok _ =>
      refine Prog.Triple.call ?_ fun synced => ?_
      · rintro w'' ⟨w', ⟨w, hmoving, hstep⟩, hstep'⟩
        obtain rfl := Option.some.inj (hmoving.step hstep).2
        obtain rfl := Option.some.inj (hmoving.step hstep').2
        exact hsafe w hmoving
      have hrest : Calm φ ((Files.closeDirectory left).bind
          fun closed => .done (Pool.settled synced closed) : Turn δ ℓ (Except Fault Unit)) :=
        calm_bind (calm_call rfl) fun closed => calm_done _
      refine hrest.weaken ?_ (fun _ _ h => h) fun _ h => h
      rintro w₃ ⟨w₂, ⟨w', ⟨w, hmoving, hstep⟩, hstep'⟩, hstep''⟩
      obtain rfl := Option.some.inj (hmoving.step hstep).2
      obtain rfl := Option.some.inj (hmoving.step hstep').2
      obtain ⟨hfine, hstep''⟩ := hmoving.step hstep''
      cases hstep''
      cases synced with
      | error why => cases hfine
      | ok _ =>
        refine ⟨?_, hmoving.moving.sync⟩
        simp [World.synced, hmoving.moved]

/-- **A rename and what follows it**: whatever is done where it failed, and after it was made the
    sync of the directory the file left. -/
theorem calm_rename {from_ to_ : δ × ℓ} {next : Change → Turn δ ℓ α}
    (hfailed : ∀ change : Change, change.result.isOk = false → Calm φ (next change))
    (hmade : ∀ change : Change, change.result.isOk = true →
      ∃ after, next change = (Pool.sync from_.1).bind after ∧ ∀ result, Calm φ (after result)) :
    Calm φ ((Files.rename from_ to_).bind next) := by
  refine Prog.Triple.call (fun _ hstill => .inl hstill) fun change => ?_
  change Prog.Triple _ _ (next change) _ _
  cases hok : change.result.isOk with
  | false =>
    refine (hfailed change hok).weaken ?_ (fun _ _ h => h) fun _ h => h
    rintro w' ⟨w, hstill, hstep⟩
    rcases hstill.rename hstep with ⟨_, hstill'⟩ | ⟨hbad, _⟩
    · exact hstill'
    · rw [hok] at hbad
      cases hbad
  | true =>
    obtain ⟨after, hnext, hafter⟩ := hmade change hok
    rw [hnext]
    rintro w' ⟨w, hstill, hstep⟩
    rcases hstill.rename hstep with ⟨hbad, _⟩ | ⟨_, hstill' | ⟨file, hmoving⟩⟩
    · rw [hok] at hbad
      cases hbad
    · exact calm_bind (calm_sync from_.1) hafter w' hstill'
    · exact Prog.Triple.bind sync_arrives hafter w' hmoving

variable {s : Pool δ ℓ ν}

theorem calm_makeDirectory (home : δ × ℓ) : Calm φ (Pool.makeDirectory home) := by
  refine calm_bind (calm_call rfl) fun status => ?_
  cases status with
  | error why =>
    simp only
    split
    next =>
      refine calm_bind (calm_call rfl) fun polled => ?_
      cases polled with
      | error why => exact calm_done _
      | ok _ => exact calm_call rfl
    next => exact calm_done _
  | ok status => exact calm_done _

theorem calm_ensure (home : δ × ℓ) : Calm φ (Pool.ensureLocalDirectory home) := by
  refine calm_bind (calm_call rfl) fun inspected => ?_
  cases inspected with
  | error why => exact calm_done _
  | ok _ =>
    refine calm_bind (calm_call rfl) fun opened => ?_
    cases opened with
    | error why => exact calm_done _
    | ok _ =>
      have hmade : Calm φ (Pool.syncMade home) := by
        refine calm_bind (calm_makeDirectory home) fun there => ?_
        cases there with
        | error why => exact calm_done _
        | ok _ => exact calm_call rfl
      refine calm_bind hmade fun synced => ?_
      refine calm_bind (calm_call rfl) fun closed => ?_
      cases synced with
      | error why => exact calm_done _
      | ok _ => exact calm_done _

theorem calm_prepare : Calm φ (Pool.prepare s) := by
  unfold Pool.prepare
  split
  next => exact calm_done _
  next =>
    split
    next => exact calm_done _
    next =>
      refine calm_bind (calm_ensure s.home) fun made => ?_
      cases made with
      | error why => exact calm_done _
      | ok _ => exact calm_done _

theorem calm_bring {from_ to_ : δ × ℓ} {name : ν} {bytes : Nat} :
    Calm φ (Pool.bring s from_ to_ name bytes) := by
  refine @calm_rename δ ℓ φ _ _ _ from_ to_ _ ?_ ?_
  · intro change hfailed
    cases hresult : change.result with
    | error why =>
      simp only
      split
      next => exact calm_done _
      next => exact calm_done _
    | ok _ =>
      rw [hresult] at hfailed
      cases hfailed
  · intro change hmade
    cases hresult : change.result with
    | error why =>
      rw [hresult] at hmade
      cases hmade
    | ok _ =>
      refine ⟨_, rfl, fun synced => ?_⟩
      cases synced with
      | error why => exact calm_done _
      | ok _ => exact calm_done _

theorem calm_moveIn (s : Pool δ ℓ ν) (from_ : δ × ℓ) (name : ν) (within : Option Nat) :
    Calm φ (s.moveIn from_ name within) := by
  unfold Pool.moveIn
  split
  next => exact calm_done _
  next =>
    refine calm_bind (calm_call rfl) fun status => ?_
    cases status with
    | error why =>
      simp only
      split
      next => exact calm_done _
      next => exact calm_done _
    | ok status =>
      simp only
      split
      next => exact calm_done _
      next =>
        split
        next => exact calm_done _
        next =>
          refine calm_bind calm_prepare fun made => ?_
          obtain ⟨made, s'⟩ := made
          cases made with
          | error why => exact calm_done _
          | ok _ =>
            simp only
            split
            next => exact calm_done _
            next => exact calm_bring

theorem calm_settle (s : Pool δ ℓ ν) : Calm φ s.settle := by
  unfold Pool.settle
  split
  next => exact calm_done _
  next =>
    split
    next => exact calm_done _
    next directory _ =>
      refine calm_bind (calm_sync directory) fun synced => ?_
      cases synced with
      | error why => exact calm_done _
      | ok _ => exact calm_done _

omit [DecidableEq δ] [DecidableEq ℓ] in
/-- A spare's path lies in the spare directory. -/
theorem path_directory {name : ν} {at_ : δ × ℓ} (h : s.path name = .ok at_) :
    s.directory = .ok at_.1 := by
  unfold Pool.path at h
  cases hd : s.directory with
  | error why =>
    rw [hd] at h
    cases h
  | ok directory =>
    rw [hd] at h
    cases hl : s.leaf name with
    | error why =>
      rw [hl] at h
      cases h
    | ok leaf =>
      rw [hl] at h
      cases h
      rfl

theorem calm_takeFrom (to_ : δ × ℓ) (entries : List (ν × Nat)) :
    ∀ s : Pool δ ℓ ν, Calm φ (Pool.takeFrom to_ s entries) := by
  induction entries with
  | nil =>
    intro s
    exact calm_done _
  | cons taken rest ih =>
    intro s
    unfold Pool.takeFrom
    simp only
    split
    next => exact calm_done _
    next from_ hfrom =>
      have hdirectory := path_directory hfrom
      refine @calm_rename δ ℓ φ _ _ _ from_ to_ _ ?_ ?_
      · intro change hfailed
        cases hresult : change.result with
        | error why =>
          simp only
          split
          next => exact ih _
          next => exact calm_done _
        | ok _ =>
          rw [hresult] at hfailed
          cases hfailed
      · intro change hmade
        cases hresult : change.result with
        | error why =>
          rw [hresult] at hmade
          cases hmade
        | ok _ =>
          simp only [hdirectory]
          refine ⟨_, rfl, fun synced => ?_⟩
          cases synced with
          | error why => exact calm_done _
          | ok _ => exact calm_done _

theorem calm_trimFrom (keep : Nat) (entries : List (ν × Nat)) :
    ∀ s : Pool δ ℓ ν, Calm φ (Pool.trimFrom keep s entries) := by
  induction entries with
  | nil =>
    intro s
    exact calm_done _
  | cons taken rest ih =>
    intro s
    unfold Pool.trimFrom
    split
    next => exact calm_done _
    next =>
      refine calm_bind (calm_call rfl) fun ready => ?_
      cases ready with
      | error why => exact calm_done _
      | ok _ =>
        simp only
        split
        next => exact calm_done _
        next at_ _ =>
          refine calm_bind (calm_call rfl) fun gone => ?_
          split
          next =>
            split
            next => exact ih _
            next => exact calm_done _
          next => exact ih _

theorem calm_adoptPage (fits : Nat → Bool) (directory : δ) (entries : List (ℓ × FileKind)) :
    ∀ (s : Pool δ ℓ ν) (found : Pool.Found),
      Calm φ (Pool.adoptPage fits directory s found entries) := by
  induction entries with
  | nil =>
    intro s found
    exact calm_done _
  | cons entry rest ih =>
    intro s found
    unfold Pool.adoptPage
    split
    next => exact ih _ _
    next =>
      split
      next => exact ih _ _
      next =>
        refine calm_bind (calm_call rfl) fun status => ?_
        cases status with
        | error why =>
          simp only
          split
          next => exact ih _ _
          next => exact calm_done _
        | ok status =>
          simp only
          split
          next => exact ih _ _
          next =>
            refine calm_bind (calm_call rfl) fun gone => ?_
            split
            next =>
              split
              next => exact ih _ _
              next => exact calm_done _
            next => exact ih _ _

theorem calm_adoptPages (fits : Nat → Bool) (directory : δ) (fuel : Nat) :
    ∀ (s : Pool δ ℓ ν) (found : Pool.Found),
      Calm φ (Pool.adoptPages fits directory fuel s found) := by
  induction fuel with
  | zero =>
    intro s found
    exact calm_done _
  | succ fuel ih =>
    intro s found
    unfold Pool.adoptPages
    refine calm_bind (calm_call rfl) fun ready => ?_
    cases ready with
    | error why => exact calm_done _
    | ok _ =>
      refine calm_bind (calm_call rfl) fun page => ?_
      cases page with
      | error why => exact calm_done _
      | ok page =>
        refine calm_bind (calm_adoptPage fits directory page.entries s found) fun adopted => ?_
        obtain ⟨result, found, s⟩ := adopted
        cases result with
        | error why => exact calm_done _
        | ok _ =>
          simp only
          split
          next => exact calm_done _
          next => exact ih _ _

theorem calm_adopt (s : Pool δ ℓ ν) (fits : Nat → Bool) (fuel : Nat) : Calm φ (s.adopt fits fuel) := by
  unfold Pool.adopt
  split
  next => exact calm_done _
  next directory _ =>
    refine calm_bind (calm_call rfl) fun inspected => ?_
    cases inspected with
    | error why => exact calm_done _
    | ok _ =>
      refine calm_bind (calm_call rfl) fun opened => ?_
      cases opened with
      | error why =>
        simp only
        split
        next => exact calm_done _
        next => exact calm_done _
      | ok _ =>
        refine calm_bind (calm_adoptPages fits directory fuel s {}) fun adopted => ?_
        obtain ⟨listed, found, s⟩ := adopted
        refine calm_bind (calm_call rfl) fun closed => ?_
        split
        next => exact calm_done _
        next => exact calm_done _

/-- **Every turn leaves nothing moving.** -/
theorem calm_turn (s : Pool δ ℓ ν) (call : Call δ ℓ ν) : Calm φ (turn s call) := by
  cases call with
  | moveIn from_ name within => exact calm_bind (calm_moveIn s from_ name within) fun _ => calm_done _
  | settle => exact calm_bind (calm_settle s) fun _ => calm_done _
  | take to_ => exact calm_bind (calm_takeFrom to_ s.entries s) fun _ => calm_done _
  | trim keep => exact calm_bind (calm_trimFrom keep s.entries s) fun _ => calm_done _
  | adopt fits fuel => exact calm_bind (calm_adopt s fits fuel) fun _ => calm_done _
  | syncElsewhere directory => exact calm_bind (calm_sync directory) fun _ => calm_done _

end Programs

/-! ## Any sequence of turns -/

/-- A world that a crash may find in a run of turns with the steps of `step`. -/
def Found (ν : Type) (step : World δ ℓ φ → (e : Command δ ℓ) → Answer e → Option (World δ ℓ φ))
    (w : World δ ℓ φ) : Prop :=
  Prog.Visits step (@turn δ ℓ ν) Begins (fun _ _ _ => True) w

/-- **A spare is never durable under two names**, in any run in which a rename that fails moves nothing
    and nothing fails between a rename and the sync of the directory the file left: a crash leaves
    each file one name at most, but for a file that was renamed and whose directory is not yet synced,
    and that one too if its new name is not durable ahead of the sync. -/
theorem spares_run {w : World δ ℓ φ} (h : Found ν World.fineStep w) :
    (w.moved = [] → ∀ after, w.dirs.Crash after → Directories.Once after)
      ∧ ∀ move ∈ w.moved, w.moved = [move]
        ∧ ∀ after, w.dirs.Crash after → (∀ l, after move.2.2 l ≠ some move.1) →
          Directories.Once after := by
  have hsafe : Safe w := by
    have hbegins : ∀ (s : Pool δ ℓ ν) (w : World δ ℓ φ), Begins s w → Still w := by
      rintro s w ⟨_, _, hmoved, hapart⟩
      exact ⟨hmoved, hapart⟩
    refine Prog.Visits.invariant hbegins ?_ h
    intro s call
    exact (calm_turn s call).weaken (fun _ h => h.1) (fun _ _ h => h) fun _ h => h
  rcases hsafe with hstill | ⟨file, left, at_, hmoving⟩
  · refine ⟨fun _ after hcrash => hstill.apart.once hcrash, ?_⟩
    intro move hmove
    rw [hstill.moved] at hmove
    cases hmove
  · refine ⟨?_, ?_⟩
    · intro hnone
      rw [hmoving.moved] at hnone
      cases hnone
    · intro move hmove
      rw [hmoving.moved, List.mem_singleton] at hmove
      subst hmove
      exact ⟨hmoving.moved, fun after hcrash hnew => hmoving.moving.once hcrash hnew⟩

/-! ## A sync that fails in between -/

/-- The spares of directory 0, with names as they come. -/
def examplePool : Pool (Fin 2) (Fin 2) (Fin 2) where
  directory := .ok 0
  leaf := .ok
  parse := some
  home := (1, 0)
  bound := 8
  bound_le := by decide
  ready := true

/-- Two WAL files in directory 1, and no spare. -/
def exampleNames (d l : Fin 2) : Option (Fin 2) := if d = 1 then some l else none

def exampleWorld : World (Fin 2) (Fin 2) (Fin 2) where
  dirs := ⟨exampleNames, fun d => [exampleNames d]⟩

/-- A file system that does what it is told, but for what `fails` says. -/
def exampleAnswers (fails : Nat → Bool) (n : Nat) : (e : Command (Fin 2) (Fin 2)) → Answer e
  | .stat _ => .ok ⟨.regular, 4096⟩
  | .next _ => .ok ⟨[], true⟩
  | .rename _ _ => ⟨true, .ok ()⟩
  | .removeFile _ => ⟨true, .ok ()⟩
  | .inspect _ => if fails n then .error (.errc .ioFailure) else .ok ()
  | .openDirectory _ => .ok ()
  | .syncDirectory _ => .ok ()
  | .closeDirectory _ => .ok ()
  | .createDirectories _ => .ok ()
  | .checkpoint => .ok ()

theorem exampleWorld_begins : Begins examplePool exampleWorld := by
  have hnamed : ∀ {d : Fin 2} {names}, names ∈ exampleWorld.dirs.since d → ∀ {l file},
      names l = some file → d = 1 ∧ l = file := by
    intro d names hnames l file hl
    obtain rfl := List.mem_singleton.mp hnames
    unfold exampleNames at hl
    split at hl
    next hd => exact ⟨hd, Option.some.inj hl⟩
    next => cases hl
  refine ⟨rfl, rfl, rfl, ⟨fun d => List.mem_singleton.mpr rfl, ?_⟩, ?_⟩
  · intro d names hnames file l l' hl hl'
    exact (hnamed hnames hl).2.trans (hnamed hnames hl').2.symm
  · rintro file d d' ⟨names, hnames, l, hl⟩ ⟨names', hnames', l', hl'⟩
    exact (hnamed hnames hl).1.trans (hnamed hnames' hl').1.symm

/-- One WAL file is moved in and the next, the sync of the directory it left fails, and the turn
    ends with its sync of the spare directory, as a reclaim of WAL files does it. -/
def failedTurn : List (Call (Fin 2) (Fin 2) (Fin 2) × (Nat → (e : Command (Fin 2) (Fin 2)) → Answer e)) :=
  [(.moveIn (1, 0) 0 none, exampleAnswers fun _ => false),
    (.moveIn (1, 1) 1 none, exampleAnswers fun _ => true),
    (.settle, exampleAnswers fun _ => false)]

/-- What calls leave of the two files. -/
def exampleAfter (step : World (Fin 2) (Fin 2) (Fin 2) → (e : Command (Fin 2) (Fin 2)) → Answer e →
      Option (World (Fin 2) (Fin 2) (Fin 2)))
    (calls : List (Call (Fin 2) (Fin 2) (Fin 2)
      × (Nat → (e : Command (Fin 2) (Fin 2)) → Answer e))) : World (Fin 2) (Fin 2) (Fin 2) :=
  ((Prog.playAll step turn calls examplePool exampleWorld).map Prod.snd).getD exampleWorld

theorem exampleAfter_found {step : World (Fin 2) (Fin 2) (Fin 2) → (e : Command (Fin 2) (Fin 2)) →
      Answer e → Option (World (Fin 2) (Fin 2) (Fin 2))}
    {calls : List (Call (Fin 2) (Fin 2) (Fin 2)
      × (Nat → (e : Command (Fin 2) (Fin 2)) → Answer e))}
    (h : (Prog.playAll step turn calls examplePool exampleWorld).isSome = true) :
    Found (Fin 2) step (exampleAfter step calls) := by
  obtain ⟨⟨s, w⟩, hplay⟩ := Option.isSome_iff_exists.mp h
  have hafter : exampleAfter step calls = w := by
    unfold exampleAfter
    rw [hplay]
    rfl
  rw [hafter]
  refine ⟨s, w, .settle, ?_, trivial, .here⟩
  exact Prog.Reaches.of_playAll (fun _ _ _ => trivial) (.init exampleWorld_begins) hplay

/-- The WAL's directory as it was after the first move, and the spare directory as it is. -/
def failedCrash (d l : Fin 2) : Option (Fin 2) :=
  if d = 1 then (if l = 1 then some 1 else none)
  else (exampleAfter World.step failedTurn).dirs.now d l

/-- **A move whose sync failed is made durable by the next sync of the spare directory**, and the file
    has two names after a crash. -/
theorem failed_move_twice :
    Found (Fin 2) World.step (exampleAfter World.step failedTurn)
      ∧ (exampleAfter World.step failedTurn).dirs.Crash failedCrash
      ∧ failedCrash 0 1 = some 1 ∧ failedCrash 1 1 = some 1 := by
  refine ⟨exampleAfter_found (by decide +kernel), ?_, by decide +kernel, by decide +kernel⟩
  unfold Directories.Crash
  decide +kernel

/-- The same moves, with no failure. -/
def fineTurn : List (Call (Fin 2) (Fin 2) (Fin 2)
    × (Nat → (e : Command (Fin 2) (Fin 2)) → Answer e)) :=
  [(.moveIn (1, 0) 0 none, exampleAnswers fun _ => false),
    (.moveIn (1, 1) 1 none, exampleAnswers fun _ => false),
    (.settle, exampleAnswers fun _ => false)]

theorem fine_moves_once : (exampleAfter World.fineStep fineTurn).moved = []
    ∧ (exampleAfter World.fineStep fineTurn).dirs.now 0 1 = some 1
    ∧ ∀ after, (exampleAfter World.fineStep fineTurn).dirs.Crash after →
      Directories.Once after := by
  have hmoved : (exampleAfter World.fineStep fineTurn).moved = [] := by decide +kernel
  refine ⟨hmoved, by decide +kernel, ?_⟩
  have hfound : Found (Fin 2) World.fineStep (exampleAfter World.fineStep fineTurn) :=
    exampleAfter_found (by decide +kernel)
  exact (spares_run hfound).1 hmoved

end KwaqueStorage.Spares
