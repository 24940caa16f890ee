import KwaqueStorage.Publication.Publisher

/-!
# What an outcome says is so

The body of a publication passes through phases, each of which says exactly what the directory and the
log are against the world the publication began in. Wherever it breaks, what its flags say is true of
that world (`Broken`), and the cleanup keeps that.
-/

namespace KwaqueStorage.Publication

open Lib
open Function (update update_idem update_of_ne update_self)

/-- The directory is in one of the states a crash may find, and the next file is not in any. -/
structure World.Sound (w : World) : Prop where
  now : w.dir.now () ∈ w.dir.since ()
  fresh : ∀ names ∈ w.dir.since (), ∀ leaf file, names leaf = some file → file < w.next
  created : ∀ file ∈ w.created, file < w.next

/-- No file this publisher made can be found as a temporary, now or after a crash. -/
def World.Clean (w : World) : Prop :=
  ∀ names ∈ w.dir.since (), ∀ leaf, leaf ≠ .target → ∀ file ∈ w.created, names leaf ≠ some file

/-- The target's name refers to what it did, now and after any crash. -/
structure Unmoved (w₀ w : World) : Prop where
  now : w.names .target = w₀.names .target
  since : ∀ names ∈ w.dir.since (), ∃ old ∈ w₀.dir.since (), names .target = old .target

/-- Wherever a crash falls, the target's name refers to what it did, or to a payload that was flushed
    whole and whose dependency was granted. -/
def Whole (w₀ : World) (request : Request) (w : World) : Prop :=
  ∀ names ∈ w.dir.since (), (∃ old ∈ w₀.dir.since (), names .target = old .target)
    ∨ ∃ file, names .target = some file ∧ w₀.log ++ [.flushed file request.size, .granted] <+: w.log

/-- **What the flags say where a publication broke off.** -/
structure Broken (p : Publisher) (w₀ : World) (request : Request) (s : Publishing) (w : World) :
    Prop where
  failed : s.output.failure.isSome = true
  current : s.current = p.current
  undurable : s.output.disposition ≠ .durable
  unmoved : s.output.disposition = .untouched → Unmoved w₀ w
  started : s.started = s.output.temporaryMayExist
  idle : s.started = false → w.created = w₀.created ∧ w.Clean
  owned : s.ownedTemp = true → s.renameAttempted = false →
    s.started = true ∧ ∃ leaf, s.output.temporary = some leaf ∧ leaf ≠ .target
  sound : w.Sound
  whole : Whole w₀ request w

/-- Nothing has been made yet. -/
structure Early (p : Publisher) (w₀ : World) (s : Publishing) (w : World) : Prop where
  world : w = w₀
  started : s.started = false
  exists_ : s.output.temporaryMayExist = false
  closed : s.temporary = false
  owned : s.ownedTemp = false
  attempted : s.renameAttempted = false
  untouched : s.output.disposition = .untouched
  unfailed : s.output.failure = none
  current : s.current = p.current

/-- The directory with the temporary in it. -/
def withTemporary (w₀ : World) (leaf : Leaf) : Directories Unit Leaf Nat :=
  w₀.dir.put () (update (w₀.dir.now ()) leaf (some w₀.next))

/-- The world with a temporary, and nothing else that is new in the directory. -/
structure Opened (w₀ : World) (leaf : Leaf) (w : World) : Prop where
  temporary : leaf ≠ .target
  dir : w.dir = withTemporary w₀ leaf
  next : w.next = w₀.next + 1
  created : w.created = w₀.next :: w₀.created

/-- A temporary of its own is open, or was; what was done since is in the log. -/
structure Holding (p : Publisher) (w₀ : World) (leaf : Leaf) (extra : List Event) (s : Publishing)
    (w : World) : Prop where
  opened : Opened w₀ leaf w
  handle : w.handle = some w₀.next
  log : w.log = w₀.log ++ extra
  started : s.started = true
  exists_ : s.output.temporaryMayExist = true
  untouched : s.output.disposition = .untouched
  unfailed : s.output.failure = none
  current : s.current = p.current
  leaf : s.output.temporary = some leaf

section Worlds

variable {p : Publisher} {w₀ w w' : World} {request : Request} {s : Publishing} {leaf : Leaf}
  {extra : List Event}

theorem Unmoved.refl (w : World) : Unmoved w w := ⟨rfl, fun names h => ⟨names, h, rfl⟩⟩

theorem Unmoved.whole (h : Unmoved w₀ w) : Whole w₀ request w := fun names hnames => .inl (h.since names hnames)

/-- A temporary's name is no part of the target's. -/
theorem mem_withTemporary {names : Leaf → Option Nat} :
    names ∈ (withTemporary w₀ leaf).since () ↔
      names = update (w₀.dir.now ()) leaf (some w₀.next) ∨ names ∈ w₀.dir.since () := by
  simp [withTemporary, Directories.put]

theorem now_withTemporary :
    (withTemporary w₀ leaf).now () = update (w₀.dir.now ()) leaf (some w₀.next) := by
  simp [withTemporary, Directories.put]

theorem Opened.unmoved (h : Opened w₀ leaf w) (hsound : w₀.Sound) : Unmoved w₀ w := by
  refine ⟨?_, ?_⟩
  · unfold World.names
    rw [h.dir, now_withTemporary, update_of_ne h.temporary.symm]
  · intro names hnames
    rw [h.dir, mem_withTemporary] at hnames
    rcases hnames with rfl | hnames
    · exact ⟨_, hsound.now, update_of_ne h.temporary.symm _ _⟩
    · exact ⟨names, hnames, rfl⟩

theorem Opened.sound (h : Opened w₀ leaf w) (hsound : w₀.Sound) : w.Sound := by
  refine ⟨?_, ?_, ?_⟩
  · rw [h.dir, now_withTemporary]
    exact mem_withTemporary.mpr (.inl rfl)
  · intro names hnames other file hfile
    rw [h.dir, mem_withTemporary] at hnames
    rw [h.next]
    have hold : ∀ names ∈ w₀.dir.since (), names other = some file → file < w₀.next + 1 :=
      fun names hnames hfile => (hsound.fresh names hnames other file hfile).trans (Nat.lt_succ_self _)
    rcases hnames with rfl | hnames
    · by_cases heq : other = leaf
      · rw [heq, update_self] at hfile
        cases hfile
        exact Nat.lt_succ_self _
      · rw [update_of_ne heq] at hfile
        exact hold _ hsound.now hfile
    · exact hold names hnames hfile
  · intro file hfile
    rw [h.created, List.mem_cons] at hfile
    rw [h.next]
    rcases hfile with rfl | hfile
    · exact Nat.lt_succ_self _
    · exact (hsound.created file hfile).trans (Nat.lt_succ_self _)

theorem Early.whole (h : Early p w₀ s w) : Whole w₀ request w := by
  rw [h.world]
  exact (Unmoved.refl w₀).whole

theorem Early.broken (h : Early p w₀ s w) (hsound : w₀.Sound) (hclean : w₀.Clean) (why : Fault) :
    Broken p w₀ request (s.observe why) w := by
  obtain ⟨rfl, hstarted, hexists, _, howned, hattempted, huntouched, hunfailed, hcurrent⟩ := h
  refine ⟨?_, hcurrent, ?_, fun _ => Unmoved.refl w, ?_, fun _ => ⟨rfl, hclean⟩, ?_, hsound,
    (Unmoved.refl w).whole⟩
  · simp [Publishing.observe, hunfailed]
  · simp [Publishing.observe, huntouched]
  · simp [Publishing.observe, hstarted, hexists]
  · intro hbad
    simp [Publishing.observe, howned] at hbad

theorem Holding.broken (h : Holding p w₀ leaf extra s w) (hsound : w₀.Sound) (why : Fault) :
    Broken p w₀ request (s.observe why) w := by
  have hunmoved := h.opened.unmoved hsound
  refine ⟨?_, h.current, ?_, fun _ => hunmoved, ?_, ?_, ?_, h.opened.sound hsound, hunmoved.whole⟩
  · simp [Publishing.observe, h.unfailed]
  · simp [Publishing.observe, h.untouched]
  · simp [Publishing.observe, h.started, h.exists_]
  · intro hbad
    simp [Publishing.observe, h.started] at hbad
  · intro _ _
    exact ⟨h.started, leaf, h.leaf, h.opened.temporary⟩

end Worlds

/-! ## Stages -/

/-- A stage that goes on as `on` says or breaks as `off` says. -/
def Goes (pre : World → Prop) (q : Steps (Publishing × Bool)) (on off : Publishing → World → Prop)
    (crash : World → Prop) : Prop :=
  Prog.Triple World.step pre q (fun out w => if out.2 then on out.1 w else off out.1 w) crash

section Stages

variable {pre crash : World → Prop} {on mid off : Publishing → World → Prop} {s : Publishing}

theorem goes_andThen {first : Steps (Publishing × Bool)}
    {next : Publishing → Steps (Publishing × Bool)} (hfirst : Goes pre first mid off crash)
    (hnext : ∀ s, Goes (mid s) (next s) on off crash) (hoff : ∀ s w, off s w → crash w) :
    Goes pre (Publisher.andThen first next) on off crash := by
  refine Prog.Triple.bind hfirst fun out => ?_
  obtain ⟨s, goesOn⟩ := out
  cases goesOn with
  | true => exact hnext s
  | false => exact Prog.Triple.done fun w h => ⟨h, hoff s w h⟩

theorem goes_done (hon : ∀ w, pre w → on s w) (hcrash : ∀ w, pre w → crash w) :
    Goes pre (.done (s, true)) on off crash :=
  Prog.Triple.done fun w h => ⟨hon w h, hcrash w h⟩

/-- What is awaited and checked: a command, with what its success and its failure do. -/
theorem goes_check {q : Steps (Except Fault Unit)} {post : Except Fault Unit → World → Prop}
    (hq : Prog.Triple World.step pre q post crash) (hon : ∀ w, post (.ok ()) w → on s w ∧ crash w)
    (hoff : ∀ why w, post (.error why) w → off (s.observe why) w ∧ crash w) :
    Goes pre (Publisher.check q s) on off crash := by
  refine Prog.Triple.bind hq fun result => ?_
  cases result with
  | error why => exact Prog.Triple.done fun w h => hoff why w h
  | ok u => exact Prog.Triple.done fun w h => hon w h

/-- A command that leaves the world as it is. -/
theorem idle_call {e : Command} (hidle : ∀ w r, World.step w e r = some w)
    (hcrash : ∀ w, pre w → crash w) :
    Prog.Triple World.step pre (Publisher.awaits e) (fun _ => pre) crash := by
  refine Prog.Triple.call hcrash fun r => Prog.Triple.done ?_
  rintro w' ⟨w, hw, hstep⟩
  rw [hidle w r] at hstep
  obtain rfl := Option.some.inj hstep
  exact ⟨hw, hcrash w hw⟩

end Stages

section Body

variable {p : Publisher} {w₀ : World} {request : Request} {s : Publishing} {leaf : Leaf}
  {extra : List Event} (hsound : w₀.Sound) (hclean : w₀.Clean)

include hsound hclean in
/-- What is checked while nothing has been made. -/
theorem early_check {q : Steps (Except Fault Unit)} {off : Publishing → World → Prop}
    (hq : Prog.Triple World.step (Early p w₀ s) q (fun _ => Early p w₀ s) (Whole w₀ request))
    (hoff : ∀ why w, s.temporary = false → Broken p w₀ request (s.observe why) w → off (s.observe why) w) :
    Goes (Early p w₀ s) (Publisher.check q s) (Early p w₀) off (Whole w₀ request) := by
  refine goes_check hq ?_ ?_
  · exact fun w h => ⟨h, h.whole⟩
  · intro why w h
    have hbroken : Broken p w₀ request (s.observe why) w := h.broken hsound hclean why
    exact ⟨hoff why w h.closed hbroken, hbroken.whole⟩

/-- A command that changes nothing, while nothing has been made. -/
theorem early_idle {e : Command} (hidle : ∀ w r, World.step w e r = some w) :
    Prog.Triple World.step (Early p w₀ s) (Publisher.awaits e) (fun _ => Early p w₀ s)
      (Whole w₀ request) :=
  idle_call hidle fun _ h => h.whole

include hsound hclean in
theorem goes_openParent :
    Goes (Early p w₀ s) (Publisher.openParent p s) (Early p w₀) (Broken p w₀ request)
      (Whole w₀ request) := by
  have hoff : ∀ s w, Broken p w₀ request s w → Whole w₀ request w := fun _ _ h => h.whole
  have hcheck : ∀ (s : Publishing) {q : Steps (Except Fault Unit)},
      Prog.Triple World.step (Early p w₀ s) q (fun _ => Early p w₀ s) (Whole w₀ request) →
      Goes (Early p w₀ s) (Publisher.check q s) (Early p w₀) (Broken p w₀ request) (Whole w₀ request) :=
    fun s _ hq => early_check hsound hclean hq fun _ _ _ h => h
  unfold Publisher.openParent
  refine goes_andThen (hcheck s (early_idle fun _ _ => rfl)) (fun s => ?_) hoff
  refine goes_andThen (hcheck s (early_idle fun _ _ => rfl)) (fun s => ?_) hoff
  refine @goes_andThen _ _ _ (Early p w₀) _ _ _ ?_ (fun s => ?_) hoff
  · split
    next => exact goes_done (fun _ h => h) fun _ h => h.whole
    next =>
      refine Prog.Triple.bind (hcheck s (early_idle fun _ _ => rfl)) fun out => ?_
      obtain ⟨s, opened⟩ := out
      cases opened with
      | true =>
        exact goes_done (fun w h => { h with }) fun _ h => h.whole
      | false => exact Prog.Triple.done fun w h => ⟨{ h with }, hoff s w h⟩
  · exact goes_done (fun w h => { h with }) fun _ h => h.whole

variable {w : World}

/-- A failed open of which it is not known that it made nothing. -/
theorem started_broken (hearly : Early p w₀ s w₀) (hunmoved : Unmoved w₀ w) (hsound : w.Sound) (why : Fault) :
    Broken p w₀ request ((Publisher.start s leaf).observe why) w := by
  refine ⟨?_, hearly.current, ?_, fun _ => hunmoved, rfl, ?_, ?_, hsound, hunmoved.whole⟩
  · simp [Publisher.start, Publishing.observe, hearly.unfailed]
  · simp [Publisher.start, Publishing.observe, hearly.untouched]
  · exact nofun
  · intro hbad
    simp [Publisher.start, Publishing.observe, hearly.owned] at hbad

/-- What the attempts at a temporary come to. -/
def Attempted (p : Publisher) (w₀ : World) (request : Request) (s : Publishing) (w : World) : Prop :=
  (s.temporary = true ∧ ∃ leaf, Holding p w₀ leaf [] s w)
    ∨ (s.temporary = false ∧ (Early p w₀ s w ∨ Broken p w₀ request s w))

include hsound hclean in
/-- **One attempt**: the temporary is open, or the attempts are over, or nothing was made and the next
    one begins as this did. -/
theorem attempt_cases (hearly : Early p w₀ s w₀) {generation attempt : Nat} {change : Change}
    (hstep : World.step w₀ (.openTemporary (.temporary generation attempt)) change = some w) :
    match Publisher.opened (Publisher.start s (.temporary generation attempt)) change.result with
    | some s' => Attempted p w₀ request s' w
    | none => Early p w₀ (Publisher.unstart (Publisher.start s (.temporary generation attempt))) w := by
  replace hstep : w₀.openedTemporary (.temporary generation attempt) change = some w := hstep
  unfold World.openedTemporary at hstep
  have hclosed : ∀ why : Fault, ((Publisher.start s (.temporary generation attempt)).observe
      why).temporary = false := fun _ => hearly.closed
  split at hstep
  next hmade =>
    split at hstep
    next => cases hstep
    next hfree =>
      have hw := Option.some.inj hstep
      have hopened : Opened w₀ (.temporary generation attempt) w := by
        rw [← hw]
        exact ⟨by simp, rfl, rfl, rfl⟩
      cases hresult : change.result with
      | ok u =>
        simp only [Publisher.opened]
        refine .inl ⟨rfl, _, hopened, ?_, ?_, rfl, rfl, hearly.untouched,
          hearly.unfailed, hearly.current, rfl⟩
        · rw [← hw, hresult]
          rfl
        · rw [← hw, List.append_nil]
      | error fault =>
        have hsafe : ∀ why, Broken p w₀ request
            ((Publisher.start s (.temporary generation attempt)).observe why) w :=
          started_broken hearly (hopened.unmoved hsound) (hopened.sound hsound)
        cases fault with
        | thrown => exact .inr ⟨hclosed _, .inr (hsafe _)⟩
        | error why =>
          rw [hresult] at hfree
          simp only [World.unopened, Bool.or_eq_true, decide_eq_true_eq, not_or] at hfree
          simp only [Publisher.opened, if_neg hfree.1.2, if_neg hfree.1.1]
          exact .inr ⟨hclosed _, .inr (hsafe _)⟩
  next =>
    obtain ⟨hnot, ⟨⟩⟩ := Option.ite_none_left_eq_some.mp hstep
    cases hresult : change.result with
    | ok u =>
      rw [hresult] at hnot
      exact absurd rfl hnot
    | error fault =>
      have hsafe : ∀ why, Broken p w₀ request
          ((Publisher.start s (.temporary generation attempt)).observe why) w₀ :=
        started_broken hearly (Unmoved.refl w₀) hsound
      have hidle : Early p w₀
          (Publisher.unstart (Publisher.start s (.temporary generation attempt))) w₀ :=
        { hearly with world := rfl, started := rfl, exists_ := rfl }
      cases fault with
      | thrown => exact .inr ⟨hclosed _, .inr (hsafe _)⟩
      | error why =>
        simp only [Publisher.opened]
        by_cases hexists : why.code = .alreadyExists
        · rw [if_pos hexists]
          exact hidle
        · rw [if_neg hexists]
          by_cases hunsent : why.notDispatched = true
          · rw [if_pos hunsent]
            exact .inr ⟨hearly.closed, .inr (hidle.broken hsound hclean _)⟩
          · rw [if_neg hunsent]
            exact .inr ⟨hclosed _, .inr (hsafe _)⟩

include hsound hclean in
theorem goes_admitAttempt :
    Goes (Early p w₀ s) (Publisher.admitAttempt s) (fun s' w => Early p w₀ s' w)
      (fun s' w => s'.temporary = false ∧ Broken p w₀ request s' w) (Whole w₀ request) := by
  have hoff : ∀ (s : Publishing) w, s.temporary = false ∧ Broken p w₀ request s w →
      Whole w₀ request w := fun _ _ h => h.2.whole
  -- a check of an attempt leaves the handle closed
  have hcheck : ∀ (s : Publishing) {q : Steps (Except Fault Unit)},
      Prog.Triple World.step (Early p w₀ s) q (fun _ => Early p w₀ s) (Whole w₀ request) →
      Goes (Early p w₀ s) (Publisher.check q s) (Early p w₀)
        (fun s' w => s'.temporary = false ∧ Broken p w₀ request s' w) (Whole w₀ request) :=
    fun s _ hq => early_check hsound hclean hq fun _ _ hclosed h => ⟨hclosed, h⟩
  unfold Publisher.admitAttempt
  refine goes_andThen (hcheck s (early_idle fun _ _ => rfl)) (fun s => ?_) hoff
  refine goes_andThen (hcheck s (early_idle fun _ _ => rfl)) (fun s => ?_) hoff
  split
  next hstarted =>
    intro w h
    rw [h.started] at hstarted
    cases hstarted
  next => exact hcheck s (early_idle fun _ _ => rfl)

include hsound hclean in
/-- **The attempts**, by induction on how many are left. -/
theorem attempts_end (generation left : Nat) : ∀ (attempt : Nat) (s : Publishing),
    Prog.Triple World.step (Early p w₀ s) (Publisher.attempts generation left attempt s)
      (Attempted p w₀ request) (Whole w₀ request) := by
  have hattempted : ∀ s w, Attempted p w₀ request s w → Whole w₀ request w := by
    rintro s w (⟨_, leaf, h⟩ | ⟨_, h | h⟩)
    · exact (h.opened.unmoved hsound).whole
    · exact h.whole
    · exact h.whole
  induction left with
  | zero =>
    intro attempt s
    exact Prog.Triple.done fun w h => ⟨.inr ⟨h.closed, .inl h⟩, h.whole⟩
  | succ left ih =>
    intro attempt s
    unfold Publisher.attempts
    refine Prog.Triple.bind (goes_admitAttempt hsound hclean) fun out => ?_
    obtain ⟨s, admitted⟩ := out
    cases admitted with
    | false => exact Prog.Triple.done fun w h => ⟨.inr ⟨h.1, .inr h.2⟩, h.2.whole⟩
    | true =>
      refine Prog.Triple.call (fun _ h => h.whole) fun change => ?_
      -- what the attempt came to decides where it goes on
      have hcases : ∀ w', (∃ w, Early p w₀ s w
          ∧ World.step w (.openTemporary (.temporary generation attempt)) change = some w') →
          match Publisher.opened (Publisher.start s (.temporary generation attempt))
            (Change.result change) with
          | some s' => Attempted p w₀ request s' w'
          | none => Early p w₀
              (Publisher.unstart (Publisher.start s (.temporary generation attempt))) w' := by
        rintro w' ⟨w, hearly, hstep⟩
        obtain rfl := hearly.world
        exact attempt_cases hsound hclean hearly hstep
      change Prog.Triple _ _ (match Publisher.opened
        (Publisher.start s (.temporary generation attempt)) (Change.result change) with
        | some s => .done s
        | none => Publisher.attempts generation left (attempt + 1)
            (Publisher.unstart (Publisher.start s (.temporary generation attempt)))) _ _
      cases hopened : Publisher.opened (Publisher.start s (.temporary generation attempt))
          (Change.result change) with
      | some s' =>
        simp only [hopened] at hcases
        exact Prog.Triple.done fun w h => ⟨hcases w h, hattempted s' w (hcases w h)⟩
      | none =>
        simp only [hopened] at hcases
        exact (ih _ _).weaken hcases (fun _ _ h => h) fun _ h => h

include hsound hclean in
theorem goes_openTemporary :
    Goes (Early p w₀ s) (Publisher.openTemporary request s)
      (fun s w => ∃ leaf, Holding p w₀ leaf [] s w) (Broken p w₀ request) (Whole w₀ request) := by
  refine Prog.Triple.bind (attempts_end hsound hclean request.generation 64 0 s) fun s => ?_
  have hheld : ∀ {w leaf}, Holding p w₀ leaf [] s w → Whole w₀ request w :=
    fun h => (h.opened.unmoved hsound).whole
  split
  next htemporary =>
    refine Prog.Triple.done ?_
    rintro w (⟨_, leaf, h⟩ | ⟨hclosed, _⟩)
    · exact ⟨⟨leaf, h⟩, hheld h⟩
    · rw [htemporary] at hclosed
      cases hclosed
  next htemporary =>
    split
    next hfailed =>
      refine Prog.Triple.done ?_
      rintro w (⟨hopen, _⟩ | ⟨_, h | h⟩)
      · exact absurd hopen htemporary
      · rw [h.unfailed] at hfailed
        cases hfailed
      · exact ⟨h, h.whole⟩
    next hunfailed =>
      refine Prog.Triple.done ?_
      rintro w (⟨hopen, _⟩ | ⟨_, h | h⟩)
      · exact absurd hopen htemporary
      · have hbroken : Broken p w₀ request (s.observe (pathError .resourceExhausted)) w :=
          h.broken hsound hclean _
        exact ⟨hbroken, hbroken.whole⟩
      · exact absurd h.failed hunfailed

/-- What may hold of the file while its temporary is held. -/
def Held (p : Publisher) (w₀ : World) (extra : List Event) (file : World → Prop) (s : Publishing)
    (w : World) : Prop :=
  (∃ leaf, Holding p w₀ leaf extra s w) ∧ file w

variable {file : World → Prop}

include hsound in
theorem Held.whole (h : Held p w₀ extra file s w) : Whole w₀ request w := by
  obtain ⟨⟨leaf, h⟩, _⟩ := h
  exact (h.opened.unmoved hsound).whole

include hsound in
theorem Held.broken (h : Held p w₀ extra file s w) (why : Fault) :
    Broken p w₀ request (s.observe why) w := by
  obtain ⟨⟨leaf, h⟩, _⟩ := h
  exact h.broken hsound why

include hsound in
/-- What is checked while the temporary is held, of a command that changes nothing. -/
theorem held_check {q : Steps (Except Fault Unit)}
    (hq : Prog.Triple World.step (Held p w₀ extra file s) q (fun _ => Held p w₀ extra file s)
      (Whole w₀ request)) :
    Goes (Held p w₀ extra file s) (Publisher.check q s) (Held p w₀ extra file)
      (Broken p w₀ request) (Whole w₀ request) := by
  refine goes_check hq ?_ ?_
  · exact fun w h => ⟨h, h.whole hsound⟩
  · exact fun why w h => ⟨h.broken hsound why, (h.broken hsound why).whole⟩

include hsound in
/-- What is checked of a command whose success is remembered. -/
theorem held_goes {q : Steps (Except Fault Unit)} {extra' : List Event} {file' : World → Prop}
    (hq : Prog.Triple World.step (Held p w₀ extra file s) q (fun result w => match result with
      | .ok _ => Held p w₀ extra' file' s w
      | .error _ => Held p w₀ extra file s w) (Whole w₀ request)) :
    Goes (Held p w₀ extra file s) (Publisher.check q s) (Held p w₀ extra' file')
      (Broken p w₀ request) (Whole w₀ request) := by
  refine goes_check hq ?_ ?_
  · exact fun w h => ⟨h, Held.whole hsound h⟩
  · exact fun why w h => ⟨Held.broken hsound h why, Held.whole hsound h⟩

include hsound in
theorem held_idle {e : Command} (hidle : ∀ w r, World.step w e r = some w) :
    Prog.Triple World.step (Held p w₀ extra file s) (Publisher.awaits e)
      (fun _ => Held p w₀ extra file s) (Whole w₀ request) :=
  idle_call hidle fun _ h => h.whole hsound

include hsound in
theorem goes_prepareWrites :
    Goes (Held p w₀ extra file s) (Publisher.prepareWrites p s) (Held p w₀ extra file)
      (Broken p w₀ request) (Whole w₀ request) := by
  have hoff : ∀ s w, Broken p w₀ request s w → Whole w₀ request w := fun _ _ h => h.whole
  have hlimits : Goes (Held p w₀ extra file s) (if p.prepared then
      Publisher.andThen (Publisher.check (Publisher.awaits .limitWrites) s) fun s =>
        Publisher.check (Publisher.awaits .limitConcurrency) s
      else .done (s, true)) (Held p w₀ extra file) (Broken p w₀ request) (Whole w₀ request) := by
    split
    next =>
      refine goes_andThen (held_check hsound (held_idle hsound fun _ _ => rfl)) (fun s => ?_) hoff
      exact held_check hsound (held_idle hsound fun _ _ => rfl)
    next => exact goes_done (fun _ h => h) fun _ h => h.whole hsound
  unfold Publisher.prepareWrites
  refine goes_andThen hlimits (fun s => ?_) hoff
  refine goes_andThen (held_check hsound (held_idle hsound fun _ _ => rfl)) (fun s => ?_) hoff
  exact held_check hsound (held_idle hsound fun _ _ => rfl)

/-- What the file holds is not part of it. -/
theorem Holding.same {w w' : World} (h : Holding p w₀ leaf extra s w) (hdir : w'.dir = w.dir)
    (hnext : w'.next = w.next) (hcreated : w'.created = w.created)
    (hhandle : w'.handle = some w₀.next) (hlog : w'.log = w.log) : Holding p w₀ leaf extra s w' :=
  { h with
    opened := ⟨h.opened.temporary, hdir.trans h.opened.dir, hnext.trans h.opened.next, hcreated.trans h.opened.created⟩,
    handle := hhandle, log := hlog.trans h.log }

/-- A stage that is reached changes nothing else. -/
theorem Holding.reach (h : Holding p w₀ leaf extra s w) (stage : Stage) :
    Holding p w₀ leaf extra (s.reach stage) w := { h with }

/-- The file holds the payload. -/
def Payload (w₀ : World) (request : Request) (w : World) : Prop := w.bytes w₀.next = request.size

include hsound in
/-- **The payload is written whole**, or the publication breaks off. -/
theorem goes_writePayload :
    Goes (Held p w₀ [] (fun _ => True) s) (Publisher.writePayload request s)
      (Held p w₀ [] (Payload w₀ request)) (Broken p w₀ request) (Whole w₀ request) := by
  have hbreaks : ∀ {s why w}, Held p w₀ [] (fun _ => True) s w →
      Broken p w₀ request (s.observe why) w ∧ Whole w₀ request w :=
    fun h => ⟨h.broken hsound _, h.whole hsound⟩
  have hreached : ∀ {s w leaf}, Holding p w₀ leaf [] s w → Payload w₀ request w →
      Held p w₀ [] (Payload w₀ request) (s.reach .written) w ∧ Whole w₀ request w := by
    intro s w leaf h hpayload
    exact ⟨⟨⟨leaf, h.reach .written⟩, hpayload⟩, (h.opened.unmoved hsound).whole⟩
  unfold Publisher.writePayload
  split
  next =>
    refine Prog.Triple.call (fun _ h => h.whole hsound) fun wrote => ?_
    change Wrote at wrote
    -- what the file holds is what the write says
    have hwrote : ∀ w', (∃ w, Held p w₀ [] (fun _ => True) s w ∧ World.step w .write wrote = some w') →
        (∃ leaf, Holding p w₀ leaf [] s w')
          ∧ ∀ count, wrote.result = .ok count → w'.bytes w₀.next = count := by
      rintro w' ⟨w, ⟨⟨leaf, h⟩, _⟩, hstep⟩
      replace hstep : w.wrote wrote = some w' := hstep
      unfold World.wrote at hstep
      rw [h.handle] at hstep
      simp only at hstep
      split at hstep
      next count hcount =>
        obtain ⟨hsame, ⟨⟩⟩ := Option.ite_none_right_eq_some.mp hstep
        refine ⟨⟨leaf, h.same rfl rfl rfl rfl rfl⟩, ?_⟩
        intro count' hcount'
        rw [hcount] at hcount'
        cases hcount'
        simp only [update_self]
        exact hsame.symm
      next why hwhy =>
        cases hstep
        refine ⟨⟨leaf, h.same rfl rfl rfl rfl rfl⟩, ?_⟩
        intro count hcount
        rw [hwhy] at hcount
        cases hcount
    obtain ⟨held, result⟩ := wrote
    cases result with
    | error why =>
      refine Prog.Triple.done fun w' h => ?_
      obtain ⟨⟨leaf, hheld⟩, _⟩ := hwrote w' h
      exact hbreaks ⟨⟨leaf, hheld⟩, trivial⟩
    | ok count =>
      change Prog.Triple _ _ (if count ≠ request.size then
          .done (s.observe (pathError .ioFailure), false)
        else .done (s.reach .written, true)) _ _
      split
      next =>
        refine Prog.Triple.done fun w' h => ?_
        obtain ⟨⟨leaf, hheld⟩, _⟩ := hwrote w' h
        exact hbreaks ⟨⟨leaf, hheld⟩, trivial⟩
      next hwhole =>
        refine Prog.Triple.done fun w' h => ?_
        obtain ⟨⟨leaf, hheld⟩, hbytes⟩ := hwrote w' h
        exact hreached hheld ((hbytes count rfl).trans (not_not.mp hwhole))
  next =>
    refine Prog.Triple.call (fun _ h => h.whole hsound) fun wrote => ?_
    change Wrote at wrote
    have hwrote : ∀ w', (∃ w, Held p w₀ [] (fun _ => True) s w ∧ World.step w .stream wrote = some w') →
        Held p w₀ [] (fun _ => True) s w' := by
      rintro w' ⟨w, ⟨⟨leaf, h⟩, _⟩, hstep⟩
      replace hstep : w.streamed wrote = some w' := hstep
      unfold World.streamed at hstep
      rw [h.handle] at hstep
      cases hstep
      exact ⟨⟨leaf, h.same rfl rfl rfl rfl rfl⟩, trivial⟩
    obtain ⟨held, result⟩ := wrote
    cases result with
    | error why => exact Prog.Triple.done fun w' h => hbreaks (hwrote w' h)
    | ok count =>
      refine Prog.Triple.call (fun w' h => (hwrote w' h).whole hsound) fun actual => ?_
      change Except Fault Nat at actual
      cases actual with
      | error why =>
        refine Prog.Triple.done ?_
        rintro w'' ⟨w', h, hstep⟩
        cases hstep
        exact hbreaks (hwrote _ h)
      | ok actual =>
        have hsize : ∀ w'', (∃ w', (∃ w, Held p w₀ [] (fun _ => True) s w
            ∧ World.step w .stream ⟨held, .ok count⟩ = some w') ∧ World.step w' .size (.ok actual) = some w'') →
            (∃ leaf, Holding p w₀ leaf [] s w'') ∧ w''.bytes w₀.next = actual := by
          rintro w'' ⟨w', h, hstep⟩
          obtain ⟨⟨leaf, hheld⟩, _⟩ := hwrote w' h
          replace hstep : w'.sized (.ok actual) = some w'' := hstep
          simp only [World.sized, hheld.handle, Option.map_some] at hstep
          obtain ⟨hactual, ⟨⟩⟩ := Option.ite_none_right_eq_some.mp hstep
          exact ⟨⟨leaf, hheld⟩, Option.some.inj hactual⟩
        change Prog.Triple _ _ (if actual ≠ request.size then
            .done (s.observe (pathError .ioFailure), false)
          else .done (s.reach .written, true)) _ _
        split
        next =>
          refine Prog.Triple.done fun w'' h => ?_
          obtain ⟨⟨leaf, hheld⟩, _⟩ := hsize w'' h
          exact hbreaks ⟨⟨leaf, hheld⟩, trivial⟩
        next hwhole =>
          refine Prog.Triple.done fun w'' h => ?_
          obtain ⟨⟨leaf, hheld⟩, hbytes⟩ := hsize w'' h
          exact hreached hheld (hbytes.trans (not_not.mp hwhole))

/-- What is in the log once the payload is flushed, and once the dependency is granted. -/
def flushedLog (w₀ : World) (request : Request) : List Event := [.flushed w₀.next request.size]

def grantedLog (w₀ : World) (request : Request) : List Event :=
  [.flushed w₀.next request.size, .granted]

include hsound in
theorem goes_flush :
    Goes (Held p w₀ [] (Payload w₀ request) s)
      (Publisher.check (Publisher.awaits .flush) s)
      (Held p w₀ (flushedLog w₀ request) fun _ => True) (Broken p w₀ request) (Whole w₀ request) := by
  refine held_goes hsound (Prog.Triple.call (fun _ h => h.whole hsound) fun result => Prog.Triple.done ?_)
  change Except Fault Unit at result
  rintro w' ⟨w, ⟨⟨leaf, h⟩, hpayload⟩, hstep⟩
  cases result with
  | error why =>
    cases hstep
    exact ⟨⟨⟨leaf, h⟩, hpayload⟩, (h.opened.unmoved hsound).whole⟩
  | ok u =>
    replace hstep : w.flushed (.ok u) = some w' := hstep
    simp only [World.flushed, h.handle, Option.map_some] at hstep
    cases hstep
    have hheld : Holding p w₀ leaf (flushedLog w₀ request) s { w with
        handle := some w₀.next, log := w.log ++ [.flushed w₀.next (w.bytes w₀.next)] } := by
      refine { h with opened := { h.opened with }, handle := rfl, log := ?_ }
      rw [hpayload, h.log, List.append_nil]
      rfl
    exact ⟨⟨⟨leaf, hheld⟩, trivial⟩, (hheld.opened.unmoved hsound).whole⟩

include hsound in
theorem goes_closeTemporary :
    Goes (Held p w₀ extra file s) (Publisher.closeTemporary (s.reach .fileSynced))
      (Held p w₀ extra file) (Broken p w₀ request) (Whole w₀ request) := by
  refine Prog.Triple.bind (held_idle hsound fun _ _ => rfl) fun result => ?_
  change Except Fault Unit at result
  -- neither the handle nor the stage is part of what is held
  have hbreaks : ∀ {w why}, Held p w₀ extra file s w →
      Broken p w₀ request ((s.reach .fileSynced).observe why) w
        ∧ Broken p w₀ request ({ s.reach .fileSynced with temporary := false }.observe why) w := by
    rintro w why ⟨⟨leaf, h⟩, _⟩
    have hreached := h.reach .fileSynced
    have hclosed : Holding p w₀ leaf extra { s.reach .fileSynced with temporary := false } w := { h with }
    exact ⟨hreached.broken hsound why, hclosed.broken hsound why⟩
  cases result with
  | error why =>
    cases why with
    | thrown => exact Prog.Triple.done fun w h => ⟨(hbreaks h).1, h.whole hsound⟩
    | error why => exact Prog.Triple.done fun w h => ⟨(hbreaks h).2, h.whole hsound⟩
  | ok u =>
    refine Prog.Triple.done fun w h => ⟨?_, h.whole hsound⟩
    obtain ⟨⟨leaf, h⟩, hfile⟩ := h
    exact ⟨⟨leaf, { h with }⟩, hfile⟩

include hsound in
theorem goes_ready :
    Goes (Held p w₀ (flushedLog w₀ request) (fun _ => True) s)
      (Publisher.check (Publisher.awaits .ready) s)
      (Held p w₀ (grantedLog w₀ request) fun _ => True) (Broken p w₀ request) (Whole w₀ request) := by
  refine held_goes hsound (Prog.Triple.call (fun _ h => h.whole hsound) fun result => Prog.Triple.done ?_)
  change Except Fault Unit at result
  rintro w' ⟨w, ⟨⟨leaf, h⟩, _⟩, hstep⟩
  cases hstep
  cases result with
  | error why => exact ⟨⟨⟨leaf, h⟩, trivial⟩, (h.opened.unmoved hsound).whole⟩
  | ok u =>
    have hheld : Holding p w₀ leaf (grantedLog w₀ request) s (w.granted (.ok u)) := by
      refine { h with opened := { h.opened with }, log := ?_ }
      simp [World.granted, h.log, flushedLog, grantedLog]
    exact ⟨⟨⟨leaf, hheld⟩, trivial⟩, (hheld.opened.unmoved hsound).whole⟩

/-- The names of the directory once the temporary has the target's. -/
def newNames (w₀ : World) (leaf : Leaf) : Leaf → Option Nat :=
  update (update (w₀.dir.now ()) leaf none) .target (some w₀.next)

/-- The target has its new file, and the directory is not yet synced. -/
structure Renamed (w₀ : World) (request : Request) (w : World) : Prop where
  leaf : ∃ leaf, leaf ≠ .target ∧ w.dir.now () = newNames w₀ leaf
    ∧ ∀ names, names ∈ w.dir.since () ↔ names = newNames w₀ leaf
      ∨ names ∈ (withTemporary w₀ leaf).since ()
  next : w.next = w₀.next + 1
  created : w.created = w₀.next :: w₀.created
  log : w.log = w₀.log ++ grantedLog w₀ request ++ [.renamed w₀.next]

theorem newNames_target : newNames w₀ leaf .target = some w₀.next := update_self ..

/-- The other names are those there were, less the temporary's. -/
theorem newNames_other {other : Leaf} (hother : other ≠ .target) {number : Nat}
    (h : newNames w₀ leaf other = some number) : w₀.dir.now () other = some number := by
  unfold newNames at h
  rw [update_of_ne hother] at h
  by_cases heq : other = leaf
  · rw [heq, update_self] at h
    cases h
  · rwa [update_of_ne heq] at h

include hsound in
theorem newNames_fresh {other : Leaf} {number : Nat} (h : newNames w₀ leaf other = some number) :
    number < w₀.next + 1 := by
  by_cases hother : other = .target
  · rw [hother, newNames_target] at h
    cases h
    exact Nat.lt_succ_self _
  · exact (hsound.fresh _ hsound.now _ _ (newNames_other hother h)).trans (Nat.lt_succ_self _)

include hsound in
theorem Renamed.sound (h : Renamed w₀ request w) : w.Sound := by
  obtain ⟨leaf, hleaf, hnow, hsince⟩ := h.leaf
  have hopened : Opened w₀ leaf { w with dir := withTemporary w₀ leaf } :=
    ⟨hleaf, rfl, h.next, h.created⟩
  have htemporary := hopened.sound hsound
  refine ⟨?_, ?_, htemporary.created⟩
  · rw [hnow]
    exact (hsince _).mpr (.inl rfl)
  · intro names hnames other number hnumber
    rcases (hsince names).mp hnames with rfl | hnames
    · rw [h.next]
      exact newNames_fresh hsound hnumber
    · exact htemporary.fresh names hnames other number hnumber

include hsound in
theorem Renamed.whole (h : Renamed w₀ request w) : Whole w₀ request w := by
  obtain ⟨leaf, hleaf, _, hsince⟩ := h.leaf
  have hopened : Opened w₀ leaf { w with dir := withTemporary w₀ leaf } :=
    ⟨hleaf, rfl, h.next, h.created⟩
  intro names hnames
  rcases (hsince names).mp hnames with rfl | hnames
  · refine .inr ⟨w₀.next, newNames_target, ?_⟩
    rw [h.log]
    exact List.prefix_append _ _
  · exact .inl ((hopened.unmoved hsound).since names hnames)

/-- The rename has been tried, and is not known to have failed. -/
structure Trying (p : Publisher) (s : Publishing) : Prop where
  started : s.started = true
  exists_ : s.output.temporaryMayExist = true
  attempted : s.renameAttempted = true
  uncertain : s.output.disposition = .uncertain
  unfailed : s.output.failure = none
  current : s.current = p.current

/-- What breaks off after the rename was tried. -/
theorem Trying.broken (h : Trying p s) (hsound : w.Sound) (hwhole : Whole w₀ request w) (why : Fault)
    : Broken p w₀ request (s.observe why) w := by
  refine ⟨?_, h.current, ?_, ?_, ?_, ?_, ?_, hsound, hwhole⟩
  · simp [Publishing.observe, h.unfailed]
  · simp [Publishing.observe, h.uncertain]
  · intro hbad
    simp [Publishing.observe, h.uncertain] at hbad
  · simp [Publishing.observe, h.started, h.exists_]
  · intro hbad
    simp [Publishing.observe, h.started] at hbad
  · intro _ hbad
    simp [Publishing.observe, h.attempted] at hbad

/-- **The rename**, with what it says if it fails. -/
theorem rename_cases {w w' : World} (h : Holding p w₀ leaf (grantedLog w₀ request) s w)
    {change : Change} (hstep : World.step w (.rename leaf p.policy) change = some w') :
    (change.result.isOk = true ∧ Renamed w₀ request w')
      ∨ (change.result.isOk = false ∧ (w' = w
        ∨ (World.unrenamed p.policy change.result = false ∧ Renamed w₀ request w'))) := by
  replace hstep : w.renamed leaf p.policy change = some w' := hstep
  unfold World.renamed at hstep
  split at hstep
  next hmade =>
    split at hstep
    next => cases hstep
    next number hnumber =>
      split at hstep
      next => cases hstep
      next hpossible =>
        have hw := Option.some.inj hstep
        have hfile : number = w₀.next := by
          unfold World.names at hnumber
          rw [h.opened.dir, now_withTemporary, update_self] at hnumber
          exact (Option.some.inj hnumber).symm
        have hrenamed : Renamed w₀ request w' := by
          have hdir : w'.dir = (withTemporary w₀ leaf).put () (newNames w₀ leaf) := by
            rw [← hw, hfile, h.opened.dir]
            simp only [Directories.move, if_true, now_withTemporary, newNames,
              update_idem]
          refine ⟨⟨leaf, h.opened.temporary, ?_, ?_⟩, ?_, ?_, ?_⟩
          · rw [hdir]
            simp [Directories.put]
          · intro names
            rw [hdir]
            simp [Directories.put]
          · rw [← hw]
            exact h.opened.next
          · rw [← hw]
            exact h.opened.created
          · rw [← hw, hfile, h.log]
        rw [not_or, Bool.not_eq_true] at hpossible
        cases hok : change.result.isOk with
        | true => exact .inl ⟨rfl, hrenamed⟩
        | false => exact .inr ⟨rfl, .inr ⟨hpossible.1, hrenamed⟩⟩
  next =>
    obtain ⟨hfailed, ⟨⟩⟩ := Option.ite_none_left_eq_some.mp hstep
    exact .inr ⟨by simpa using hfailed, .inl rfl⟩

include hsound in
theorem goes_rename :
    Goes (Held p w₀ (grantedLog w₀ request) (fun _ => True) s)
      (Publisher.rename p (s.output.temporary.getD .target) s)
      (fun s w => Trying p s ∧ Renamed w₀ request w) (Broken p w₀ request) (Whole w₀ request) := by
  refine Prog.Triple.call (fun _ h => h.whole hsound) fun change => ?_
  change Change at change
  have htries : ∀ {w leaf}, Holding p w₀ leaf (grantedLog w₀ request) s w → Trying p { s with
      renameAttempted := true, output := { s.output with disposition := .uncertain } } :=
    fun h => ⟨h.started, h.exists_, rfl, rfl, h.unfailed, h.current⟩
  obtain ⟨made, result⟩ := change
  cases result with
  | ok u =>
    change Prog.Triple _ _ (.done (Publishing.reach { s with
      renameAttempted := true, output := { s.output with disposition := .uncertain } } .renamed, true)) _ _
    refine Prog.Triple.done ?_
    rintro w' ⟨w, ⟨⟨leaf, h⟩, _⟩, hstep⟩
    rw [h.leaf, Option.getD_some] at hstep
    rcases rename_cases h hstep with ⟨_, hrenamed⟩ | ⟨hbad, _⟩
    · have htrying := htries h
      exact ⟨⟨{ htrying with }, hrenamed⟩, hrenamed.whole hsound⟩
    · cases hbad
  | error why =>
    change Prog.Triple _ _ (.done (Publishing.observe (if Publisher.undone p.policy why then
        { s with
          renameAttempted := true
          output := { s.output with disposition := .untouched } }
      else { s with
        renameAttempted := true, output := { s.output with disposition := .uncertain } }) why, false)) _ _
    refine Prog.Triple.done ?_
    rintro w' ⟨w, ⟨⟨leaf, h⟩, _⟩, hstep⟩
    rw [h.leaf, Option.getD_some] at hstep
    have hunmoved := h.opened.unmoved hsound
    rcases rename_cases h hstep with ⟨hbad, _⟩ | ⟨_, hsame | ⟨hmay, hrenamed⟩⟩
    · cases hbad
    · subst hsame
      split
      next =>
        -- the rename says that it was not made, and it was not
        refine ⟨⟨?_, h.current, ?_, fun _ => hunmoved, ?_, ?_, ?_, h.opened.sound hsound,
          hunmoved.whole⟩, hunmoved.whole⟩
        · simp [Publishing.observe, h.unfailed]
        · simp [Publishing.observe]
        · simp [Publishing.observe, h.started, h.exists_]
        · intro hbad
          simp [Publishing.observe, h.started] at hbad
        · intro _ hbad
          simp [Publishing.observe] at hbad
      next => exact ⟨(htries h).broken (h.opened.sound hsound) hunmoved.whole why, hunmoved.whole⟩
    · have hundone : Publisher.undone p.policy why = false := hmay
      split
      next hbad =>
        rw [hundone] at hbad
        cases hbad
      next =>
        exact ⟨(htries h).broken (hrenamed.sound hsound) (hrenamed.whole hsound) why,
          hrenamed.whole hsound⟩

/-- **Durable**: what was flushed whole and granted has the target's name, whatever crashes. -/
structure Durable (p : Publisher) (w₀ : World) (request : Request) (s : Publishing) (w : World) :
    Prop where
  disposition : s.output.disposition = .durable
  attempted : s.renameAttempted = true
  started : s.started = true
  current : s.current = some request.generation
  log : w.log = w₀.log ++ [.flushed w₀.next request.size, .granted, .renamed w₀.next, .synced]
  names : ∀ names ∈ w.dir.since (), names .target = some w₀.next
  clean : w.Clean
  sound : w.Sound
  whole : Whole w₀ request w

include hsound hclean in
theorem goes_syncParent :
    Goes (fun w => Trying p s ∧ Renamed w₀ request w) (Publisher.syncParent request s)
      (Durable p w₀ request) (Broken p w₀ request) (Whole w₀ request) := by
  have hwhole : ∀ w, Trying p s ∧ Renamed w₀ request w → Whole w₀ request w :=
    fun w h => h.2.whole hsound
  -- the directory is as the rename left it, and in no other state
  have hsynced : ∀ w, Renamed w₀ request w → ∃ leaf, (w.synced (.ok ())).dir.now () = newNames w₀ leaf
      ∧ ∀ names ∈ (w.synced (.ok ())).dir.since (), names = newNames w₀ leaf := by
    intro w h
    obtain ⟨leaf, _, hnow, _⟩ := h.leaf
    refine ⟨leaf, hnow, ?_⟩
    intro names hnames
    simp only [World.synced, Directories.sync, update_self, List.mem_singleton] at hnames
    rw [hnames, hnow]
  have hdurable : ∀ w, Renamed w₀ request w → (w.synced (.ok ())).Clean ∧ (w.synced (.ok ())).Sound
      ∧ Whole w₀ request (w.synced (.ok ())) := by
    intro w h
    obtain ⟨leaf, hnow, hsince⟩ := hsynced w h
    refine ⟨?_, ⟨?_, ?_, ?_⟩, ?_⟩
    · intro names hnames other hother number hnumber hnamed
      rw [hsince names hnames] at hnamed
      have hold := newNames_other hother hnamed
      rcases List.mem_cons.mp (h.created ▸ hnumber) with rfl | hcreated
      · exact lt_irrefl _ (hsound.fresh _ hsound.now _ _ hold)
      · exact hclean _ hsound.now other hother number hcreated hold
    · simp [World.synced, Directories.sync]
    · intro names hnames other number hnumber
      rw [hsince names hnames] at hnumber
      rw [show (w.synced (.ok ())).next = w₀.next + 1 from h.next]
      exact newNames_fresh hsound hnumber
    · exact (h.sound hsound).created
    · intro names hnames
      refine .inr ⟨w₀.next, ?_, ?_⟩
      · rw [hsince names hnames, newNames_target]
      · rw [show (w.synced (.ok ())).log = w.log ++ [.synced] from rfl, h.log, List.append_assoc]
        exact List.prefix_append _ _
  have hsync : Prog.Triple World.step (fun w => Trying p s ∧ Renamed w₀ request w)
      (Publisher.awaits .syncParent) (fun (result : Except Fault Unit) w => Trying p s
        ∧ match result with
          | .ok _ => ∃ w₁, Renamed w₀ request w₁ ∧ w = w₁.synced (.ok ())
          | .error _ => Renamed w₀ request w) (Whole w₀ request) := by
    refine Prog.Triple.call hwhole fun result => Prog.Triple.done ?_
    change Except Fault Unit at result
    rintro w' ⟨w, ⟨htrying, hrenamed⟩, hstep⟩
    cases hstep
    cases result with
    | error why => exact ⟨⟨htrying, hrenamed⟩, hrenamed.whole hsound⟩
    | ok u => exact ⟨⟨htrying, w, hrenamed, rfl⟩, (hdurable w hrenamed).2.2⟩
  have hchecked : Goes (fun w => Trying p s ∧ Renamed w₀ request w)
      (Publisher.check (Publisher.awaits .syncParent) s)
      (fun s' w => s' = s ∧ Trying p s ∧ ∃ w₁, Renamed w₀ request w₁ ∧ w = w₁.synced (.ok ()))
      (Broken p w₀ request) (Whole w₀ request) := by
    refine goes_check hsync ?_ ?_
    · rintro w ⟨htrying, w₁, hrenamed, rfl⟩
      exact ⟨⟨rfl, htrying, w₁, hrenamed, rfl⟩, (hdurable w₁ hrenamed).2.2⟩
    · rintro why w ⟨htrying, hrenamed⟩
      exact ⟨htrying.broken (hrenamed.sound hsound) (hrenamed.whole hsound) why,
        hrenamed.whole hsound⟩
  refine goes_andThen hchecked (fun s' => ?_) fun _ _ h => h.whole
  refine Prog.Triple.done ?_
  rintro w ⟨rfl, htrying, w₁, hrenamed, rfl⟩
  obtain ⟨hclean', hsound', hwhole'⟩ := hdurable w₁ hrenamed
  obtain ⟨leaf, _, hsince⟩ := hsynced w₁ hrenamed
  refine ⟨⟨rfl, htrying.attempted, htrying.started, rfl, ?_, ?_, hclean', hsound', hwhole'⟩,
    hwhole'⟩
  · simp [World.synced, hrenamed.log, grantedLog]
  · intro names hnames
    rw [hsince names hnames, newNames_target]

include hsound hclean in
/-- **The body**: durable, or broken off as its flags say. -/
theorem goes_body :
    Goes (fun w => w = w₀) (Publisher.body p request) (Durable p w₀ request) (Broken p w₀ request)
      (Whole w₀ request) := by
  have hoff : ∀ s w, Broken p w₀ request s w → Whole w₀ request w := fun _ _ h => h.whole
  have hearly : ∀ w, w = w₀ → Early p w₀ { current := p.current } w :=
    fun w h => ⟨h, rfl, rfl, rfl, rfl, rfl, rfl, rfl, rfl⟩
  have hopen : Goes (Early p w₀ { current := p.current })
      (Publisher.openParent p { current := p.current }) (Early p w₀) (Broken p w₀ request)
      (Whole w₀ request) := goes_openParent hsound hclean
  unfold Publisher.body
  refine goes_andThen (hopen.weaken hearly (fun _ _ h => h) fun _ h => h) (fun s => ?_) hoff
  refine goes_andThen (goes_openTemporary hsound hclean) (fun s => ?_) hoff
  have hheld : ∀ w, (∃ leaf, Holding p w₀ leaf [] s w) → Held p w₀ [] (fun _ => True) s w :=
    fun _ h => ⟨h, trivial⟩
  refine goes_andThen ((goes_prepareWrites hsound).weaken hheld (fun _ _ h => h) fun _ h => h)
    (fun s => ?_) hoff
  refine goes_andThen (goes_writePayload hsound) (fun s => ?_) hoff
  refine goes_andThen (goes_flush hsound) (fun s => ?_) hoff
  refine goes_andThen (goes_closeTemporary hsound) (fun s => ?_) hoff
  refine goes_andThen (goes_ready hsound) (fun s => ?_) hoff
  refine goes_andThen (goes_rename hsound) (fun s => ?_) hoff
  exact goes_syncParent hsound hclean

end Body

end KwaqueStorage.Publication
