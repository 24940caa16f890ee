import KwaqueStorage.Publication.Truth

/-!
# Outcomes, one publication after another

The cleanup of a publication keeps what its body came to, so an outcome is true of the world it leaves
behind. Over a publisher's whole life this makes three things hold: no crash finds anything at the
target's name but what was there or a payload that was whole; a publisher that may have left a
temporary takes no further request; and what becomes durable is ever later.
-/

namespace KwaqueStorage.Publication

open Lib

/-! ## The way out -/

section Cleanup

variable {p : Publisher} {w₀ w w' : World} {request : Request} {s : Publishing} {leaf : Leaf}

/-- A temporary's name goes, and the target's stays. -/
theorem removed_cases {change : Change}
    (hstep : World.step w (.removeFile leaf) change = some w') :
    w' = w ∨ w' = { w with dir := w.dir.remove ((), leaf) } := by
  replace hstep : w.removed leaf change = some w' := hstep
  unfold World.removed at hstep
  split at hstep
  next =>
    split at hstep
    next => exact .inr (Option.some.inj hstep).symm
    next => cases hstep
  next =>
    split at hstep
    next => cases hstep
    next => exact .inl (Option.some.inj hstep).symm

theorem mem_remove {names : Leaf → Option Nat} :
    names ∈ (w.dir.remove ((), leaf)).since () ↔
      names = Function.update (w.dir.now ()) leaf none ∨ names ∈ w.dir.since () := by
  simp [Directories.remove, Directories.put]

/-- Every state the removal adds is a state there was, but for the name that goes. -/
theorem remove_names (hsound : w.Sound) {names : Leaf → Option Nat}
    (hnames : names ∈ (w.dir.remove ((), leaf)).since ()) :
    ∃ old ∈ w.dir.since (), (∀ other, other ≠ leaf → names other = old other)
      ∧ ∀ other file, names other = some file → old other = some file := by
  rcases mem_remove.mp hnames with rfl | hnames
  · refine ⟨_, hsound.now, fun other hother => Function.update_of_ne hother _ _, ?_⟩
    intro other file hfile
    by_cases heq : other = leaf
    · rw [heq, Function.update_self] at hfile
      cases hfile
    · rwa [Function.update_of_ne heq] at hfile
  · exact ⟨names, hnames, fun _ _ => rfl, fun _ _ h => h⟩

theorem World.Sound.remove (h : w.Sound) :
    World.Sound { w with dir := w.dir.remove ((), leaf) } := by
  refine ⟨?_, ?_, h.created⟩
  · simp [Directories.remove, Directories.put]
  · intro names hnames other file hfile
    obtain ⟨old, hold, _, hback⟩ := remove_names h hnames
    exact h.fresh old hold other file (hback other file hfile)

theorem Unmoved.remove (h : Unmoved w₀ w) (hsound : w.Sound) (hleaf : leaf ≠ .target) :
    Unmoved w₀ { w with dir := w.dir.remove ((), leaf) } := by
  refine ⟨?_, ?_⟩
  · rw [← h.now]
    simp [World.names, Directories.remove, Directories.put, hleaf.symm]
  · intro names hnames
    obtain ⟨old, hold, hsame, _⟩ := remove_names hsound hnames
    rw [hsame .target hleaf.symm]
    exact h.since old hold

theorem Whole.remove (h : Whole w₀ request w) (hsound : w.Sound) (hleaf : leaf ≠ .target) :
    Whole w₀ request { w with dir := w.dir.remove ((), leaf) } := by
  intro names hnames
  obtain ⟨old, hold, hsame, _⟩ := remove_names hsound hnames
  rw [hsame .target hleaf.symm]
  exact h old hold

theorem Broken.observe (h : Broken p w₀ request s w) (why : Fault) :
    Broken p w₀ request (s.observe why) w := by
  refine { h with failed := ?_ }
  obtain ⟨first, hfirst⟩ := Option.isSome_iff_exists.mp h.failed
  simp [Publishing.observe, hfirst]

theorem Durable.observe (h : Durable p w₀ request s w) (why : Fault) :
    Durable p w₀ request (s.observe why) w :=
  ⟨h.disposition, h.attempted, h.started, h.current, h.log, h.names, h.clean, h.sound,
    h.whole⟩

theorem Broken.remove (h : Broken p w₀ request s w) (howned : s.ownedTemp = true)
    (hattempted : s.renameAttempted = false) (hleaf : s.output.temporary = some leaf) :
    Broken p w₀ request s { w with dir := w.dir.remove ((), leaf) } := by
  obtain ⟨hstarted, other, hother, htemporary⟩ := h.owned howned hattempted
  obtain rfl : leaf = other := Option.some.inj (hleaf.symm.trans hother)
  refine ⟨h.failed, h.current, h.undurable, fun hkept => (h.unmoved hkept).remove h.sound htemporary,
    h.started, ?_, h.owned, h.sound.remove, h.whole.remove h.sound htemporary⟩
  intro hbad
  rw [hstarted] at hbad
  cases hbad

section Keeps

variable {crash : World → Prop} {K : Publishing → World → Prop}
  (hobserve : ∀ {s w} why, K s w → K (s.observe why) w) (hcrash : ∀ {s w}, K s w → crash w)

include hobserve in
theorem observeResult_keeps {result : Except Fault Unit} (h : K s w) :
    K (s.observeResult result) w := by
  cases result with
  | error why => exact hobserve why h
  | ok u => exact h

include hobserve hcrash in
/-- A handle that is closed on the way out may only add a failure. -/
theorem keeps_close {e : Command} (hidle : ∀ w r, World.step w e r = some w)
    {next : Answer e → Publishing} (hnext : ∀ r, next r = s ∨ ∃ why, next r = s.observe why) :
    Prog.Triple World.step (K s) (.call e fun r => .done (next r)) K crash := by
  refine Prog.Triple.call (fun _ h => hcrash h) fun r => Prog.Triple.done ?_
  rintro w' ⟨w, hw, hstep⟩
  rw [hidle w r] at hstep
  cases hstep
  refine ⟨?_, hcrash hw⟩
  rcases hnext r with heq | ⟨why, heq⟩
  · rw [heq]
    exact hw
  · rw [heq]
    exact hobserve why hw

theorem observeResult_cases (s : Publishing) (result : Except Fault Unit) :
    s.observeResult result = s ∨ ∃ why, s.observeResult result = s.observe why := by
  cases result with
  | error why => exact .inr ⟨why, rfl⟩
  | ok u => exact .inl rfl

include hobserve hcrash in
theorem keeps_closeHandle :
    Prog.Triple World.step (K s) (Publisher.closeHandle s) K crash := by
  unfold Publisher.closeHandle
  split
  next =>
    exact keeps_close (K := K) (e := .closeTemporary) hobserve hcrash (fun _ _ => rfl)
      (observeResult_cases s)
  next => exact Prog.Triple.done fun w h => ⟨h, hcrash h⟩

include hobserve hcrash in
theorem keeps_closeParent :
    Prog.Triple World.step (K s) (Publisher.closeParent s) K crash := by
  unfold Publisher.closeParent
  split
  next =>
    exact keeps_close (K := K) (e := .closeParent) hobserve hcrash (fun _ _ => rfl)
      (observeResult_cases s)
  next => exact Prog.Triple.done fun w h => ⟨h, hcrash h⟩

include hobserve hcrash in
/-- **The cleanup** keeps what holds, if the removal does. -/
theorem keeps_cleanup
    (hremove : ∀ s, Prog.Triple World.step (K s) (Publisher.removeTemporary s) K crash) :
    Prog.Triple World.step (K s) (Publisher.cleanup s) K crash := by
  refine Prog.Triple.bind (keeps_closeHandle hobserve hcrash) fun s => ?_
  refine Prog.Triple.bind (hremove s) fun s => ?_
  exact keeps_closeParent hobserve hcrash

end Keeps

theorem broken_cleanup :
    Prog.Triple World.step (Broken p w₀ request s) (Publisher.cleanup s) (Broken p w₀ request)
      (Whole w₀ request) := by
  refine keeps_cleanup (fun why h => h.observe why) (fun h => h.whole) fun s => ?_
  unfold Publisher.removeTemporary
  split
  next howned =>
    refine Prog.Triple.call (fun _ h => h.whole) fun change => Prog.Triple.done ?_
    change Change at change
    rintro w' ⟨w, h, hstep⟩
    have hattempted : s.renameAttempted = false := by simpa using howned.2
    obtain ⟨_, leaf, hleaf, _⟩ := h.owned howned.1 hattempted
    rw [hleaf, Option.getD_some] at hstep
    have hkept : Broken p w₀ request s w' := by
      rcases removed_cases hstep with rfl | rfl
      · exact h
      · exact h.remove howned.1 hattempted hleaf
    exact ⟨observeResult_keeps (fun why h => h.observe why) hkept, hkept.whole⟩
  next => exact Prog.Triple.done fun w h => ⟨h, h.whole⟩

theorem durable_cleanup :
    Prog.Triple World.step (Durable p w₀ request s) (Publisher.cleanup s) (Durable p w₀ request)
      (Whole w₀ request) := by
  refine keeps_cleanup (fun why h => h.observe why) (fun h => h.whole) fun s => ?_
  unfold Publisher.removeTemporary
  split
  next howned =>
    -- a durable publication tried its rename
    refine Prog.Triple.call (fun _ h => h.whole) fun change => Prog.Triple.done ?_
    rintro w' ⟨w, h, _⟩
    exact absurd h.attempted howned.2
  next => exact Prog.Triple.done fun w h => ⟨h, h.whole⟩

end Cleanup

/-! ## One publication -/

/-- The payload was written whole and flushed, the dependency granted, the rename made and its directory
    synced, in that order, and every crash from here on finds the new file at the target's name. -/
structure Recorded (w₀ : World) (request : Request) (w : World) : Prop where
  log : w.log = w₀.log ++ [.flushed w₀.next request.size, .granted, .renamed w₀.next, .synced]
  names : ∀ names ∈ w.dir.since (), names .target = some w₀.next

/-- None of the files that are new since `w₀` can be found as a temporary, now or after a crash. -/
def NoneLeft (w₀ w : World) : Prop :=
  ∀ names ∈ w.dir.since (), ∀ leaf, leaf ≠ .target → ∀ file ∈ w.created, file ∉ w₀.created →
    names leaf ≠ some file

/-- **What an outcome tells of the world it leaves.** -/
structure Tells (p : Publisher) (w₀ : World) (request : Request) (out : Outcome) (p' : Publisher)
    (w : World) : Prop where
  untouched : out.disposition = .untouched → Unmoved w₀ w
  durable : out.disposition = .durable → Recorded w₀ request w
  /-- A temporary of this publication, and of any before it unless the publisher was fenced. -/
  gone : out.temporaryMayExist = false → NoneLeft w₀ w ∧ (p.fenced = false → w.Clean)
  fences : out.failure.isSome = true → out.temporaryMayExist = true ∨ w.created ≠ w₀.created →
    p'.fenced = true
  /-- A durable publication is later than the one that was current, and is current itself. -/
  later : out.disposition = .durable → p'.current = some request.generation
    ∧ ∀ current, p.current = some current → current < request.generation
  same : out.disposition ≠ .durable → p'.current = p.current

/-- What a publisher and its world keep. -/
structure Kept (p : Publisher) (w : World) : Prop where
  sound : w.Sound
  clean : p.fenced = false → w.Clean

section One

variable {p p' : Publisher} {w₀ w : World} {request : Request} {out : Outcome}

theorem Unmoved.tells_reject (why : Failure) (h : Kept p w₀) :
    Tells p w₀ request (p.reject why).1 (p.reject why).2 w₀ := by
  refine ⟨fun _ => Unmoved.refl w₀, ?_, ?_, ?_, ?_, fun _ => rfl⟩
  · exact nofun
  · intro _
    exact ⟨fun _ _ _ _ _ hin hout => absurd hin hout, h.clean⟩
  · rintro _ (hbad | hbad)
    · cases hbad
    · exact absurd rfl hbad
  · exact nofun

/-- A request that passes the entrance, as `validate_request` checks it. -/
theorem validateRequest_ok (h : p.validateRequest request = .ok ()) :
    p.fenced = false ∧ ∀ current, p.current = some current → current < request.generation := by
  unfold Publisher.validateRequest at h
  split at h
  next => cases h
  next hopen =>
    split at h
    next => cases h
    next =>
      split at h
      next => cases h
      next =>
        split at h
        next => cases h
        next hvalid =>
          refine ⟨by simpa using fun hfenced => hopen (.inr (.inr hfenced)), ?_⟩
          intro current hcurrent
          by_contra hearlier
          refine hvalid (.inr (.inr (.inl ?_)))
          rw [hcurrent, Option.any_some, decide_eq_true_eq]
          exact Nat.le_of_not_lt hearlier

/-- What `publish_owned` leaves of the publisher. -/
def settled (p : Publisher) (s : Publishing) : Publisher :=
  { p with current := s.current, fenced := p.fenced || (s.started && s.output.failure.isSome) }

theorem Broken.tells {s : Publishing} (h : Broken p w₀ request s w) :
    Tells p w₀ request s.output (settled p s) w ∧ Kept (settled p s) w := by
  have hclean : s.output.temporaryMayExist = false → w.created = w₀.created ∧ w.Clean :=
    fun hgone => h.idle (h.started.trans hgone)
  refine ⟨⟨h.unmoved, fun hbad => absurd hbad h.undurable, ?_, ?_, fun hbad => absurd hbad h.undurable,
    fun _ => h.current⟩, h.sound, ?_⟩
  · intro hgone
    obtain ⟨_, hclean⟩ := hclean hgone
    exact ⟨fun names hnames leaf hleaf file hfile _ => hclean names hnames leaf hleaf file hfile,
      fun _ => hclean⟩
  · intro _ hmade
    have hstarted : s.started = true := by
      rcases hmade with hmay | hcreated
      · rw [h.started, hmay]
      · by_contra hbad
        exact hcreated (h.idle (Bool.eq_false_of_not_eq_true hbad)).1
    simp [settled, hstarted, h.failed]
  · intro hopen
    simp only [settled, h.failed, Bool.and_true, Bool.or_eq_false_iff] at hopen
    exact (h.idle hopen.2).2

theorem Durable.tells {s : Publishing} (h : Durable p w₀ request s w)
    (hlater : ∀ current, p.current = some current → current < request.generation) :
    Tells p w₀ request s.output (settled p s) w ∧ Kept (settled p s) w := by
  refine ⟨⟨?_, fun _ => ⟨h.log, h.names⟩, ?_, ?_, fun _ => ⟨h.current, hlater⟩,
    fun hbad => absurd h.disposition hbad⟩, h.sound, fun _ => h.clean⟩
  · intro hbad
    rw [h.disposition] at hbad
    cases hbad
  · intro _
    exact ⟨fun names hnames leaf hleaf file hfile _ => h.clean names hnames leaf hleaf file hfile,
      fun _ => h.clean⟩
  · intro hfailed _
    simp [settled, h.started, hfailed]

theorem tells_publishOwned (hkept : Kept p w₀) (hopen : p.fenced = false)
    (hlater : ∀ current, p.current = some current → current < request.generation) :
    Prog.Triple World.step (fun w => w = w₀) (p.publishOwned request)
      (fun out w => Tells p w₀ request out.1 out.2 w ∧ Kept out.2 w) (Whole w₀ request) := by
  refine Prog.Triple.bind (goes_body hkept.sound (hkept.clean hopen)) fun out => ?_
  obtain ⟨s, goesOn⟩ := out
  cases goesOn with
  | true =>
    refine Prog.Triple.bind durable_cleanup fun s => Prog.Triple.done fun w h => ?_
    exact ⟨h.tells hlater, h.whole⟩
  | false =>
    refine Prog.Triple.bind broken_cleanup fun s => Prog.Triple.done fun w h => ?_
    exact ⟨h.tells, h.whole⟩

/-- **One publication**, whatever its operations answer and wherever it crashes. -/
theorem tells_publish (hkept : Kept p w₀) :
    Prog.Triple World.step (fun w => w = w₀) (p.publish request)
      (fun out w => Tells p w₀ request out.1 out.2 w ∧ Kept out.2 w) (Whole w₀ request) := by
  have hreject : ∀ why, Prog.Triple World.step (fun w => w = w₀) (.done (p.reject why))
      (fun out w => Tells p w₀ request out.1 out.2 w ∧ Kept out.2 w) (Whole w₀ request) := by
    intro why
    refine Prog.Triple.done ?_
    rintro w rfl
    exact ⟨⟨Unmoved.tells_reject why hkept, hkept⟩, (Unmoved.refl w).whole⟩
  unfold Publisher.publish
  split
  next why _ => exact hreject why
  next hvalid =>
    obtain ⟨hopen, hlater⟩ := validateRequest_ok hvalid
    split
    next => exact hreject _
    next =>
      have hwhole : ∀ w, w = w₀ → Whole w₀ request w := by
        rintro w rfl
        exact (Unmoved.refl w).whole
      refine Prog.Triple.bind (idle_call (fun _ _ => rfl) hwhole) fun result => ?_
      change Except Fault Unit at result
      cases result with
      | error fault =>
        cases fault with
        | error why => exact hreject why
        | thrown => exact hreject _
      | ok u => exact tells_publishOwned hkept hopen hlater

/-- A fenced publisher takes no request. -/
theorem publish_fenced (h : p.fenced = true) :
    p.publish request = .done (p.reject { code := .closed }) := by
  have hclosed : p.validateRequest request = .error { code := .closed } := by
    unfold Publisher.validateRequest
    rw [if_pos (.inr (.inr h))]
  unfold Publisher.publish
  rw [hclosed]
  rfl

end One

/-! ## A publisher's life -/

/-- A publisher that has made nothing, with any directory. -/
structure Fresh (o : Owner) (w : World) : Prop where
  sound : w.Sound
  unmade : w.created = []
  unfenced : o.publisher.fenced = false
  none : o.durables = []

/-- The states a publisher reaches, whatever is called and whatever the files answer. -/
abbrev Lives (init : Owner → World → Prop) : Owner → World → Prop :=
  Prog.Reaches World.step perform init fun _ _ _ => True

/-- The generations it made durable are each later than the one before, and none is later than the one
    that is current. -/
structure Ordered (o : Owner) : Prop where
  sorted : o.durables.Pairwise (· < ·)
  current : ∀ generation ∈ o.durables, ∃ current, o.publisher.current = some current
    ∧ generation ≤ current

section Life

variable {o o' : Owner} {w w' : World}

theorem Ordered.publish (h : Ordered o) {request : Request} {out : Outcome} {p' : Publisher}
    (htells : Tells o.publisher w request out p' w') :
    Ordered { publisher := p', durables := if out.disposition = .durable
      then o.durables ++ [request.generation] else o.durables } := by
  split
  next hdurable =>
    obtain ⟨hcurrent, hlater⟩ := htells.later hdurable
    have hbefore : ∀ generation ∈ o.durables, generation < request.generation := by
      intro generation hin
      obtain ⟨current, hat, hle⟩ := h.current generation hin
      exact lt_of_le_of_lt hle (hlater current hat)
    refine ⟨?_, ?_⟩
    · refine List.pairwise_append.mpr ⟨h.sorted, List.pairwise_singleton _ _, ?_⟩
      intro generation hin last hlast
      rw [List.mem_singleton.mp hlast]
      exact hbefore generation hin
    · intro generation hin
      refine ⟨_, hcurrent, ?_⟩
      rcases List.mem_append.mp hin with hin | hin
      · exact (hbefore generation hin).le
      · exact (List.mem_singleton.mp hin).le
  next hnot =>
    refine ⟨h.sorted, ?_⟩
    intro generation hin
    rw [htells.same hnot]
    exact h.current generation hin

/-- **A call** keeps what the publisher and the world keep. -/
theorem kept_perform (call : Call) :
    Prog.Triple World.step (fun w => (Kept o.publisher w ∧ Ordered o) ∧ True) (perform o call)
      (fun o w => Kept o.publisher w ∧ Ordered o) (fun _ => True) := by
  cases call with
  | publish request =>
    intro w₀ h
    have htells : Prog.Triple World.step (fun w => w = w₀) (perform o (.publish request))
        (fun o w => Kept o.publisher w ∧ Ordered o) (fun _ => True) := by
      refine Prog.Triple.bind ((tells_publish h.1.1).weaken (fun _ h => h) (fun _ _ h => h)
        fun _ _ => trivial) fun out => Prog.Triple.done fun w hout => ?_
      exact ⟨⟨hout.2, h.1.2.publish hout.1⟩, trivial⟩
    exact htells w₀ rfl
  | occupy occupied =>
    refine Prog.Triple.done fun w h => ⟨⟨⟨h.1.1.sound, h.1.1.clean⟩, h.1.2.sorted, h.1.2.current⟩, trivial⟩
  | close =>
    refine Prog.Triple.done fun w h => ⟨⟨⟨h.1.1.sound, h.1.1.clean⟩, h.1.2.sorted, h.1.2.current⟩, trivial⟩

theorem lives_kept (h : Lives Fresh o w) : Kept o.publisher w ∧ Ordered o := by
  refine Prog.Reaches.invariant ?_ (fun o call => kept_perform call) h
  intro o w hfresh
  refine ⟨⟨hfresh.sound, ?_⟩, ?_, ?_⟩
  · intro _ names _ leaf _ file hfile
    rw [hfresh.unmade] at hfile
    cases hfile
  · rw [hfresh.none]
    exact List.Pairwise.nil
  · intro generation hin
    rw [hfresh.none] at hin
    cases hin

/-- **A fenced publisher stays fenced**, and touches nothing any more. -/
theorem fenced_perform (call : Call) :
    Prog.Triple World.step (fun v => (o.publisher.fenced = true ∧ v = w) ∧ True) (perform o call)
      (fun o v => o.publisher.fenced = true ∧ v = w) (fun _ => True) := by
  cases call with
  | publish request =>
    intro v h
    have hdone : perform o (.publish request) = .done
        { publisher := o.publisher, durables := o.durables } := by
      simp only [perform, publish_fenced h.1.1]
      rfl
    rw [hdone]
    exact Prog.Triple.done (fun v h => ⟨h, trivial⟩) v h.1
  | occupy occupied => exact Prog.Triple.done fun v h => ⟨h.1, trivial⟩
  | close => exact Prog.Triple.done fun v h => ⟨h.1, trivial⟩

theorem lives_fenced (hfenced : o.publisher.fenced = true)
    (h : Lives (fun o₁ w₁ => o₁ = o ∧ w₁ = w) o' w') : o'.publisher.fenced = true ∧ w' = w := by
  have hinit : ∀ o₁ w₁, o₁ = o ∧ w₁ = w → o₁.publisher.fenced = true ∧ w₁ = w := by
    rintro o₁ w₁ ⟨rfl, rfl⟩
    exact ⟨hfenced, rfl⟩
  exact Prog.Reaches.invariant hinit (fun o call => fenced_perform call) h

/-- **Outcomes are true.** In every state a publisher reaches, whatever was called and however the
    operations went:

* a publication ends only with an outcome that is true of the world it leaves (`Tells`);
* wherever it crashes, the target's name refers to what it did, or to a payload that was flushed whole
  and whose dependency was granted;
* once fenced, the publisher turns every further request away and touches nothing more;
* the generations it made durable strictly increase. -/
theorem publications_true (h : Lives Fresh o w) :
    (∀ request out p' w', Prog.Ends World.step (o.publisher.publish request) w (out, p') w' →
        Tells o.publisher w request out p' w')
      ∧ (∀ request w', Prog.Passes World.step (o.publisher.publish request) w w' →
        Whole w request w')
      ∧ (o.publisher.fenced = true → ∀ o' w', Lives (fun o₁ w₁ => o₁ = o ∧ w₁ = w) o' w' → w' = w
        ∧ ∀ request, o'.publisher.publish request = .done (o'.publisher.reject { code := .closed }))
      ∧ o.durables.Pairwise (· < ·) := by
  obtain ⟨hkept, hordered⟩ := lives_kept h
  refine ⟨?_, ?_, ?_, hordered.sorted⟩
  · intro request out p' w' hends
    exact ((tells_publish hkept w rfl).2 _ w' hends).1
  · intro request w' hpasses
    exact (tells_publish hkept w rfl).1 w' hpasses
  · intro hfenced o' w' hlater
    obtain ⟨hfenced', hsame⟩ := lives_fenced hfenced hlater
    exact ⟨hsame, fun request => publish_fenced hfenced'⟩

end Life

/-! ## Two that are durable, and one that breaks off -/

/-- A publisher over a target of generation 1. -/
def exampleOwner : Owner where
  publisher := { owner := 0, policy := .replace, current := some 1 }

def exampleNames (leaf : Leaf) : Option Nat := if leaf = .target then some 0 else none

def exampleWorld : World where
  dir := ⟨fun _ => exampleNames, fun _ => [exampleNames]⟩
  next := 1

theorem exampleWorld_fresh : Fresh exampleOwner exampleWorld := by
  refine ⟨⟨List.mem_singleton.mpr rfl, ?_, ?_⟩, rfl, rfl, rfl⟩
  · intro names hnames leaf file hfile
    obtain rfl := List.mem_singleton.mp hnames
    unfold exampleNames at hfile
    obtain ⟨_, ⟨⟩⟩ := Option.ite_none_right_eq_some.mp hfile
    exact Nat.zero_lt_one
  · intro file hfile
    cases hfile

/-- Operations that succeed on a payload of eight bytes, but for a flush that throws. -/
def exampleAnswers (throws : Bool) (_ : Nat) : (e : Command) → Answer e
  | .openTemporary _ => ⟨true, .ok ()⟩
  | .rename _ _ => ⟨true, .ok ()⟩
  | .removeFile _ => ⟨true, .ok ()⟩
  | .write => ⟨8, .ok 8⟩
  | .stream => ⟨8, .ok 8⟩
  | .size => .ok 8
  | .flush => if throws then .error .thrown else .ok ()
  | .reserve | .inspectParent | .inspectTarget | .openParent | .admitWork | .poll | .pollAdmission
  | .limitWrites | .limitConcurrency | .chargeWrites | .reserveBarrier | .closeTemporary | .ready
  | .syncParent | .closeParent => .ok ()

def exampleRequest (generation current : Nat) : Request :=
  { owner := 0, generation, expectedCurrent := some current, writer := .buffer, size := 8 }

/-- Generations 2 and 5 become durable, and 7 throws at its flush. -/
def exampleLife : List (Call × (Nat → (e : Command) → Answer e)) :=
  [(.publish (exampleRequest 2 1), exampleAnswers false),
    (.publish (exampleRequest 5 2), exampleAnswers false),
    (.publish (exampleRequest 7 5), exampleAnswers true)]

def exampleAfter : Owner × World :=
  (Prog.playAll World.step perform exampleLife exampleOwner exampleWorld).getD
    (exampleOwner, exampleWorld)

theorem exampleAfter_lives : Lives Fresh exampleAfter.1 exampleAfter.2 := by
  have hplays : (Prog.playAll World.step perform exampleLife exampleOwner exampleWorld).isSome = true := by
    decide +kernel
  obtain ⟨after, hplay⟩ := Option.isSome_iff_exists.mp hplays
  have hafter : exampleAfter = after := by
    unfold exampleAfter
    rw [hplay]
    rfl
  rw [hafter]
  exact Prog.Reaches.of_playAll (fun _ _ _ => trivial) (.init exampleWorld_fresh) hplay

/-- The file of generation 5 keeps its name, and generation 8 is turned away. -/
theorem example_life_true : exampleAfter.1.durables = [2, 5]
    ∧ exampleAfter.2.names .target = some 2
    ∧ exampleAfter.1.durables.Pairwise (· < ·)
    ∧ exampleAfter.1.publisher.publish (exampleRequest 8 5)
      = .done (exampleAfter.1.publisher.reject { code := .closed }) := by
  have hfenced : exampleAfter.1.publisher.fenced = true := by decide +kernel
  obtain ⟨_, _, hcloses, hsorted⟩ := publications_true exampleAfter_lives
  have hlater := hcloses hfenced exampleAfter.1 exampleAfter.2 (.init ⟨rfl, rfl⟩)
  exact ⟨by decide +kernel, by decide +kernel, hsorted, hlater.2 _⟩

end KwaqueStorage.Publication
