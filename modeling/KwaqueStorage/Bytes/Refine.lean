import KwaqueStorage.Bytes.World

/-!
# Buffers refine byte strings

Every operation does to the byte strings of a program what the same operation does to flat ones, and nothing
if it is refused. The invariant that carries this is about who may write where: every window that a builder or
a buffer presents is **frozen**, that is apart from the slack of every builder, and no two builders have slack
in one block. So a frozen window never changes, whatever is done with the builders and buffers afterwards;
this holds of what was shared once even when nobody presents it any more.
-/

namespace KwaqueStorage.Bytes

open Lib
open Function (update update_apply update_eq_self update_of_ne update_self)

namespace World

/-- A window that no builder will ever write to. -/
structure Frozen (w : World) (window : Window) : Prop where
  valid : w.memory.Valid window
  apart : ∀ slot, (w.builders slot).Apart window

/-- What a cursor has exported and has left, while it is bound to the presentation of a buffer. -/
structure Tracks (w : World) (cursor : ScatterCursor) (taken : List UInt8) : Prop where
  free : cursor.owner = none → cursor = {} ∧ taken = []
  bound : ∀ slot, cursor.owner = some slot → cursor.generation ≤ (w.buffers slot).generation
    ∧ cursor.generation ≠ maxGeneration
    ∧ (cursor.generation = (w.buffers slot).generation → cursor.Placed (w.buffers slot)
      ∧ taken ++ cursor.left w.memory (w.buffers slot) = (w.buffers slot).content w.memory)

/-- What is true of the builders and buffers of a program between two operations. -/
structure Sound (w : World) : Prop where
  builders : ∀ slot, (w.builders slot).Sound w.memory
  buffers : ∀ slot, (w.buffers slot).Lies w.memory
  built : ∀ slot, ∀ fragment ∈ (w.builders slot).presented, w.Frozen fragment.storage
  published : ∀ slot, ∀ fragment ∈ (w.buffers slot).fragments, w.Frozen fragment.storage
  distinct : ∀ slot other, slot ≠ other → ∀ block start start',
    (w.builders slot).slack = some (block, start) → (w.builders other).slack ≠ some (block, start')

/-- A world stands for flat byte strings. -/
structure Stands (w : World) (f : Flat) : Prop where
  builders : ∀ slot, (w.builders slot).content w.memory = f.builders slot
  buffers : ∀ slot, (w.buffers slot).content w.memory = f.buffers slot
  cursors : ∀ slot, w.Tracks (w.cursors slot) (f.taken slot)

/-- One world after another: frozen windows stay so and show the same. -/
def Freezes (w next : World) : Prop :=
  ∀ window, w.Frozen window → next.Frozen window ∧ next.memory.read window = w.memory.read window

variable {w : World} {f : Flat}

theorem Freezes.refl : w.Freezes w := fun _ h => ⟨h, rfl⟩

theorem Frozen.part {part whole : Window} (h : w.Frozen whole) (hpart : part.Part whole) : w.Frozen part where
  valid := hpart.valid h.valid
  apart slot := hpart.apart (h.apart slot)

/-- Slack lies in a block that was allocated. -/
theorem slack_lt {memory : Memory} {b : Builder} (h : b.Shaped memory) {block start : Nat}
    (hslack : b.slack = some (block, start)) : block < memory.length := by
  rcases b.fragments_cases with hnil | ⟨front, tail, hconcat⟩
  · rw [Builder.slack_nil hnil] at hslack
    cases hslack
  · rw [Builder.slack_concat hconcat] at hslack
    obtain ⟨_, ⟨⟩⟩ := Option.ite_none_right_eq_some.mp hslack
    exact (h.windows tail (hconcat ▸ List.mem_concat_self)).1.block

/-- A buffer that only frozen windows are presented in shows the same in the next world. -/
theorem Freezes.content {next : World} (h : w.Freezes next) {fragments : List (Fragment Window)}
    (hfrozen : ∀ fragment ∈ fragments, w.Frozen fragment.storage) :
    contents next.memory.read fragments = contents w.memory.read fragments :=
  List.map_congr_left fun fragment hmem => (h fragment.storage (hfrozen fragment hmem)).2

theorem Tracks.of_freezes {next : World} (hsound : w.Sound) (h : w.Freezes next)
    (hbuffers : next.buffers = w.buffers) {cursor : ScatterCursor} {taken : List UInt8}
    (htracks : w.Tracks cursor taken) : next.Tracks cursor taken where
  free := htracks.free
  bound slot howner := by
    obtain ⟨hle, hlt, hplaced⟩ := htracks.bound slot howner
    rw [hbuffers]
    refine ⟨hle, hlt, fun hcurrent => ?_⟩
    obtain ⟨hplace, htaken⟩ := hplaced hcurrent
    refine ⟨hplace, ?_⟩
    unfold ScatterCursor.left Buffer.content at htaken ⊢
    rw [h.content fun fragment hmem => hsound.published slot fragment (List.mem_of_mem_drop hmem),
      h.content (hsound.published slot)]
    exact htaken

/-! ## Steps of a builder -/

variable {bytes : List UInt8}

/-- **A builder that extends another** in its slot: the world stays sound, frozen windows stay as they are, and
    no other byte string changes. -/
theorem Sound.extend (h : w.Sound) {slot : Nat} {later : Memory} {b : Builder}
    {donated : List (Fragment Window)} (hb : b.Sound later)
    (hextends : (w.builders slot).Extends w.memory later b donated bytes)
    (hdonated : ∀ fragment ∈ donated, w.Frozen fragment.storage) :
    let next := { w with memory := later, builders := update w.builders slot b }
    next.Sound ∧ w.Freezes next ∧ ∀ other, (next.builders other).content later
      = if other = slot then (w.builders slot).content w.memory ++ bytes
        else (w.builders other).content w.memory := by
  intro next
  have hhere : next.builders slot = b := update_self ..
  have hother : ∀ {other : Nat}, other ≠ slot → next.builders other = w.builders other :=
    fun hne => update_of_ne hne ..
  have hfreezes : w.Freezes next := by
    intro window hfrozen
    refine ⟨⟨hfrozen.valid.keeps hextends.keeps, fun other => ?_⟩,
      hextends.frame window hfrozen.valid (hfrozen.apart slot)⟩
    by_cases hsame : other = slot
    · subst hsame
      rw [hhere]
      exact hextends.apart hfrozen.valid (hfrozen.apart other)
    · rw [hother hsame]
      exact hfrozen.apart other
  refine ⟨⟨fun other => ?_, fun other => ?_, fun other fragment hmem => ?_, ?_, ?_⟩, hfreezes, fun other => ?_⟩
  · by_cases hsame : other = slot
    · rw [hsame, hhere]
      exact hb
    · rw [hother hsame]
      exact (h.builders other).keeps hextends.keeps
  · exact ⟨(h.buffers other).sound, fun fragment hmem =>
      ((h.buffers other).windows fragment hmem).keeps hextends.keeps⟩
  · by_cases hsame : other = slot
    · -- what the builder presents now: what it did, what it was given, or what nobody else can write to
      subst hsame
      rw [hhere] at hmem
      rcases hextends.origin fragment hmem with hold | hgiven | ⟨start, hslack⟩ | hfresh
      · exact (hfreezes _ (h.built other fragment hold)).1
      · exact (hfreezes _ (hdonated fragment hgiven)).1
      · refine ⟨(hb.presented_windows fragment hmem).1, fun third => ?_⟩
        by_cases hthird : third = other
        · rw [hthird, hhere]
          exact hb.own fragment hmem
        · rw [hother hthird]
          intro block start' hslack' hblock
          subst hblock
          exact absurd hslack (h.distinct third other hthird _ _ _ hslack')
      · refine ⟨(hb.presented_windows fragment hmem).1, fun third => ?_⟩
        by_cases hthird : third = other
        · rw [hthird, hhere]
          exact hb.own fragment hmem
        · rw [hother hthird]
          intro block start' hslack' hblock
          have hlt := slack_lt (h.builders third).toShaped hslack'
          omega
    · rw [hother hsame] at hmem
      exact (hfreezes _ (h.built other fragment hmem)).1
  · exact fun other fragment hmem => (hfreezes _ (h.published other fragment hmem)).1
  · intro first second hne block start start' hfirst hsecond
    by_cases hone : first = slot
    · subst hone
      rw [hhere] at hfirst
      rw [hother hne.symm] at hsecond
      rcases hextends.slack block start hfirst with ⟨from_, hfrom, _⟩ | hfresh
      · exact h.distinct first second hne _ _ _ hfrom hsecond
      · have hlt := slack_lt (h.builders second).toShaped hsecond
        omega
    · rw [hother hone] at hfirst
      by_cases htwo : second = slot
      · subst htwo
        rw [hhere] at hsecond
        rcases hextends.slack block start' hsecond with ⟨from_, hfrom, _⟩ | hfresh
        · exact h.distinct first second hne _ _ _ hfirst hfrom
        · have hlt := slack_lt (h.builders first).toShaped hfirst
          omega
      · rw [hother htwo] at hsecond
        exact h.distinct first second hne _ _ _ hfirst hsecond
  · by_cases hsame : other = slot
    · subst hsame
      rw [if_pos rfl, hhere]
      exact hextends.content
    · rw [if_neg hsame, hother hsame]
      exact congrArg List.flatten (hfreezes.content (h.built other))

/-- The same with what the byte strings become. -/
theorem Sound.extended (h : w.Sound) (hstands : w.Stands f) {slot : Nat} {later : Memory} {b : Builder}
    {donated : List (Fragment Window)} (hb : b.Sound later)
    (hextends : (w.builders slot).Extends w.memory later b donated bytes)
    (hdonated : ∀ fragment ∈ donated, w.Frozen fragment.storage) :
    let next := { w with memory := later, builders := update w.builders slot b }
    next.Sound ∧ w.Freezes next ∧ next.Stands (f.add slot bytes) := by
  intro next
  obtain ⟨hsound, hfreezes, hcontent⟩ := h.extend hb hextends hdonated
  refine ⟨hsound, hfreezes, fun other => ?_, fun other => ?_, fun other => ?_⟩
  · rw [Flat.add_builders, ← hstands.builders, ← hstands.builders]
    exact hcontent other
  · exact (congrArg List.flatten (hfreezes.content (h.published other))).trans (hstands.buffers other)
  · exact (hstands.cursors other).of_freezes h hfreezes rfl

/-- A builder in a slot that presents nothing and has no slack: a new one, or one that is closed. -/
theorem Sound.reset (h : w.Sound) (hstands : w.Stands f) {slot : Nat} {b : Builder} (hb : b.Sound w.memory)
    (hblank : b.fragments = []) :
    let next := { w with builders := update w.builders slot b }
    next.Sound ∧ w.Freezes next
      ∧ next.Stands { f with builders := update f.builders slot [] } := by
  intro next
  have hhere : next.builders slot = b := update_self ..
  have hother : ∀ {other : Nat}, other ≠ slot → next.builders other = w.builders other :=
    fun hne => update_of_ne hne ..
  have hslack : b.slack = none := Builder.slack_nil hblank
  have hfreezes : w.Freezes next := by
    intro window hfrozen
    refine ⟨⟨hfrozen.valid, fun other => ?_⟩, rfl⟩
    by_cases hsame : other = slot
    · rw [hsame, hhere]
      exact Builder.apart_of_none hslack
    · rw [hother hsame]
      exact hfrozen.apart other
  refine ⟨⟨fun other => ?_, h.buffers, fun other fragment hmem => ?_, ?_, ?_⟩, hfreezes, fun other => ?_,
    hstands.buffers, fun other => (hstands.cursors other).of_freezes h hfreezes rfl⟩
  · by_cases hsame : other = slot
    · rw [hsame, hhere]
      exact hb
    · rw [hother hsame]
      exact h.builders other
  · by_cases hsame : other = slot
    · rw [hsame, hhere, Builder.presented_nil hblank] at hmem
      cases hmem
    · rw [hother hsame] at hmem
      exact (hfreezes _ (h.built other fragment hmem)).1
  · exact fun other fragment hmem => (hfreezes _ (h.published other fragment hmem)).1
  · intro first second hne block start start' hfirst hsecond
    by_cases hone : first = slot
    · rw [hone, hhere, hslack] at hfirst
      cases hfirst
    · by_cases htwo : second = slot
      · rw [htwo, hhere, hslack] at hsecond
        cases hsecond
      · rw [hother hone] at hfirst
        rw [hother htwo] at hsecond
        exact h.distinct first second hne _ _ _ hfirst hsecond
  · change _ = update f.builders slot [] other
    rw [update_apply]
    by_cases hsame : other = slot
    · rw [if_pos hsame, hsame, hhere]
      unfold Builder.content
      rw [Builder.presented_nil hblank]
      rfl
    · rw [if_neg hsame, hother hsame]
      exact hstands.builders other

/-! ## Steps of a buffer -/

/-- A presentation that was replaced is of another generation than any cursor is bound to. -/
theorem Tracks.stale {cursor : ScatterCursor} {taken : List UInt8} {slot : Nat}
    (h : w.Tracks cursor taken) (howner : cursor.owner = some slot) :
    cursor.generation ≤ (w.buffers slot).invalidate.generation
      ∧ cursor.generation ≠ (w.buffers slot).invalidate.generation := by
  obtain ⟨hle, hlt, _⟩ := h.bound slot howner
  change cursor.generation ≤ (if (w.buffers slot).generation ≠ maxGeneration
      then (w.buffers slot).generation + 1 else (w.buffers slot).generation)
    ∧ cursor.generation ≠ (if (w.buffers slot).generation ≠ maxGeneration
      then (w.buffers slot).generation + 1 else (w.buffers slot).generation)
  split <;> omega

/-- **A buffer in a slot** that presents frozen windows, in a presentation of its own. -/
theorem Sound.replace (h : w.Sound) (hstands : w.Stands f) {slot : Nat} {buffer : Buffer Window}
    {bytes : List UInt8} (hlies : buffer.Lies w.memory)
    (hfrozen : ∀ fragment ∈ buffer.fragments, w.Frozen fragment.storage)
    (hcontent : buffer.content w.memory = bytes)
    (hnew : buffer = w.buffers slot ∨ buffer.generation = (w.buffers slot).invalidate.generation) :
    let next := { w with buffers := update w.buffers slot buffer }
    next.Sound ∧ w.Freezes next ∧ next.Stands (f.set slot bytes) := by
  intro next
  have hhere : next.buffers slot = buffer := update_self ..
  have hother : ∀ {other : Nat}, other ≠ slot → next.buffers other = w.buffers other :=
    fun hne => update_of_ne hne ..
  have hthaw : ∀ {window : Window}, w.Frozen window → next.Frozen window := fun h => ⟨h.valid, h.apart⟩
  refine ⟨⟨h.builders, fun other => ?_, fun other fragment hmem => hthaw (h.built other fragment hmem),
    fun other fragment hmem => ?_, h.distinct⟩, fun window hwindow => ⟨hthaw hwindow, rfl⟩, hstands.builders,
    fun other => ?_, fun other => ⟨(hstands.cursors other).free, fun owner howner => ?_⟩⟩
  · by_cases hsame : other = slot
    · rw [hsame, hhere]
      exact hlies
    · rw [hother hsame]
      exact h.buffers other
  · by_cases hsame : other = slot
    · rw [hsame, hhere] at hmem
      exact hthaw (hfrozen fragment hmem)
    · rw [hother hsame] at hmem
      exact hthaw (h.published other fragment hmem)
  · rw [Flat.set_buffers]
    by_cases hsame : other = slot
    · rw [if_pos hsame, hsame, hhere]
      exact hcontent
    · rw [if_neg hsame, hother hsame]
      exact hstands.buffers other
  · by_cases hsame : owner = slot
    · subst hsame
      rw [hhere]
      rcases hnew with rfl | hgeneration
      · exact (hstands.cursors other).bound owner howner
      · obtain ⟨hle, hne⟩ := (hstands.cursors other).stale howner
        rw [hgeneration]
        exact ⟨hle, ((hstands.cursors other).bound owner howner).2.1, fun hsame => absurd hsame hne⟩
    · rw [hother hsame]
      exact (hstands.cursors other).bound owner howner

theorem Sound.assign (h : w.Sound) (hstands : w.Stands f) {slot : Nat} {buffer : Buffer Window}
    {bytes : List UInt8} (hlies : buffer.Lies w.memory)
    (hfrozen : ∀ fragment ∈ buffer.fragments, w.Frozen fragment.storage)
    (hcontent : buffer.content w.memory = bytes) :
    (w.assign slot buffer).Sound ∧ w.Freezes (w.assign slot buffer)
      ∧ (w.assign slot buffer).Stands (f.set slot bytes) := by
  have hrenewed : Buffer.Lies w.memory { buffer with generation := (w.buffers slot).invalidate.generation } :=
    ⟨⟨hlies.sound.size, hlies.sound.retained, hlies.sound.fragments, hlies.sound.few, hlies.sound.bounded⟩,
      hlies.windows⟩
  exact h.replace hstands hrenewed hfrozen hcontent (.inr rfl)

/-- Fresh blocks: nothing that was there changes. -/
theorem Sound.allocated (h : w.Sound) (hstands : w.Stands f) {later : Memory} (hkeeps : w.memory.Keeps later)
    (hread : ∀ window, w.memory.Valid window → later.read window = w.memory.read window) :
    ({ w with memory := later } : World).Sound ∧ w.Freezes { w with memory := later }
      ∧ ({ w with memory := later } : World).Stands f := by
  have hfreezes : w.Freezes { w with memory := later } :=
    fun window hfrozen => ⟨⟨hfrozen.valid.keeps hkeeps, hfrozen.apart⟩, hread window hfrozen.valid⟩
  refine ⟨⟨fun slot => (h.builders slot).keeps hkeeps, fun slot => ⟨(h.buffers slot).sound,
    fun fragment hmem => ((h.buffers slot).windows fragment hmem).keeps hkeeps⟩,
    fun slot fragment hmem => (hfreezes _ (h.built slot fragment hmem)).1,
    fun slot fragment hmem => (hfreezes _ (h.published slot fragment hmem)).1, h.distinct⟩, hfreezes,
    fun slot => ?_, fun slot => ?_, fun slot => (hstands.cursors slot).of_freezes h hfreezes rfl⟩
  · exact (congrArg List.flatten (hfreezes.content (h.built slot))).trans (hstands.builders slot)
  · exact (congrArg List.flatten (hfreezes.content (h.published slot))).trans (hstands.buffers slot)

/-! ## Every operation -/

/-- What an operation of a world comes to. -/
structure Steps (w : World) (f : Flat) (operation : Operation) : Prop where
  sound : (w.perform operation).2.Sound
  stands : (w.perform operation).2.Stands (w.flatAfter f operation)
  freezes : w.Freezes (w.perform operation).2

theorem Freezes.trans {next last : World} (h : w.Freezes next) (h' : next.Freezes last) : w.Freezes last := by
  intro window hfrozen
  obtain ⟨hnext, hsame⟩ := h window hfrozen
  obtain ⟨hlast, hsame'⟩ := h' window hnext
  exact ⟨hlast, hsame'.trans hsame⟩

variable {operation : Operation}

/-- An operation, by its result and what that does to the byte strings. -/
theorem steps_of {answer : Except Errc (Option ScatterBatch)} {next : World} {after : Flat}
    (hperform : w.perform operation = (answer, next))
    (hafter : w.answered f operation answer next.memory = after)
    (h : next.Sound ∧ w.Freezes next ∧ next.Stands after) : w.Steps f operation := by
  have hflat : w.flatAfter f operation = after := by
    unfold flatAfter
    rw [hperform]
    exact hafter
  refine ⟨?_, ?_, ?_⟩
  · rw [hperform]
    exact h.1
  · rw [hperform, hflat]
    exact h.2.2
  · rw [hperform]
    exact h.2.1

/-- An operation that is refused and changes nothing. -/
theorem Sound.refused (h : w.Sound) (hstands : w.Stands f) {e : Errc}
    (hperform : w.perform operation = (.error e, w)) : w.Steps f operation :=
  steps_of hperform rfl ⟨h, Freezes.refl, hstands⟩

theorem add_nil {slot : Nat} : f.add slot [] = f := by
  unfold Flat.add
  rw [List.append_nil, update_eq_self]

/-- A builder's operation that adds bytes to it, or is refused. -/
theorem Sound.built_steps (h : w.Sound) (hstands : w.Stands f) {slot : Nat}
    {result : Except Errc Unit × Memory × Builder} (hperform : w.perform operation = w.built slot result)
    (hdone : Builder.Done w.memory (w.builders slot) result [] bytes)
    (hflat : ∀ exported, f.apply (w.lengthOf operation) exported operation = f.add slot bytes) :
    w.Steps f operation := by
  refine steps_of hperform ?_ (h.extended hstands hdone.sound hdone.extended nofun)
  obtain ⟨answer, later, b⟩ := result
  cases answer with
  | error e => exact add_nil.symm
  | ok u => exact hflat _

/-- An operation that takes fragments of a buffer over to a builder. -/
theorem Sound.drained_steps (h : w.Sound) (hstands : w.Stands f) {slot source : Nat}
    {result : Except Errc Unit × Memory × Builder} {donated : List (Fragment Window)}
    {bytes rest : List UInt8} {left : Buffer Window}
    (hperform : w.perform operation = w.drain source left (w.built slot result))
    (hdone : Builder.Done w.memory (w.builders slot) result donated bytes)
    (hdonated : ∀ fragment ∈ donated, fragment ∈ (w.buffers source).fragments)
    (hleft : result.1 = .ok () → left.Viewed w.memory (w.buffers source).fragments rest ∧ (left = w.buffers source ∨ left.generation = (w.buffers source).invalidate.generation))
    (hflat : ∀ exported, f.apply (w.lengthOf operation) exported operation = (f.add slot bytes).set source rest)
    : w.Steps f operation := by
  obtain ⟨hsound, hfreezes, hstands'⟩ := h.extended hstands hdone.sound hdone.extended
    fun fragment hmem => h.published source fragment (hdonated fragment hmem)
  obtain ⟨answer, later, b⟩ := result
  cases answer with
  | error e =>
    refine steps_of hperform rfl ⟨hsound, hfreezes, ?_⟩
    have hnothing : f.add slot (Builder.added (.error e : Except Errc Unit) bytes) = f := add_nil
    rw [hnothing] at hstands'
    exact hstands'
  | ok u =>
    obtain ⟨hviewed, hnew⟩ := hleft rfl
    have hfrozen : ∀ fragment ∈ left.fragments, w.Frozen fragment.storage := by
      intro fragment hmem
      obtain ⟨whole, hof, hpart⟩ := hviewed.parts fragment hmem
      exact (h.published source whole hof).part hpart
    have hlies : left.Lies later :=
      ⟨hviewed.lies.sound, fun fragment hmem => (hfreezes _ (hfrozen fragment hmem)).1.valid⟩
    have hcontent : left.content later = rest :=
      (congrArg List.flatten (hfreezes.content hfrozen)).trans hviewed.content
    obtain ⟨hsound', hfreezes', hstands''⟩ := @Sound.replace _ _ hsound hstands' source left rest hlies
      (fun fragment hmem => (hfreezes _ (hfrozen fragment hmem)).1) hcontent hnew
    exact steps_of hperform (hflat _) ⟨hsound', hfreezes.trans hfreezes', hstands''⟩

/-- An operation that gives a buffer made of frozen windows, or is refused. -/
theorem Sound.given_steps (h : w.Sound) (hstands : w.Stands f) {target : Nat}
    {result : Except Errc (Buffer Window)} (hperform : w.perform operation = w.given target result)
    (hgiven : ∀ buffer, result = .ok buffer → ∃ fragments, buffer.Viewed w.memory fragments bytes ∧ ∀ fragment ∈ fragments, w.Frozen fragment.storage)
    (hflat : ∀ exported, f.apply (w.lengthOf operation) exported operation = f.set target bytes) :
    w.Steps f operation := by
  cases result with
  | error e => exact h.refused hstands hperform
  | ok buffer =>
    obtain ⟨fragments, hviewed, hfrozen⟩ := hgiven buffer rfl
    refine steps_of hperform (hflat _) (h.assign hstands hviewed.lies ?_ hviewed.content)
    intro fragment hmem
    obtain ⟨whole, hof, hpart⟩ := hviewed.parts fragment hmem
    exact (hfrozen whole hof).part hpart

/-- An operation that trims a buffer, or is refused. -/
theorem Sound.trimmed_steps (h : w.Sound) (hstands : w.Stands f) {slot : Nat}
    {result : Except Errc Unit × Buffer Window} (hperform : w.perform operation = w.trimmed slot result)
    (htrim : (∃ e, result = (.error e, w.buffers slot)) ∨ ∃ trimmed, result = (.ok (), trimmed) ∧ trimmed.Viewed w.memory (w.buffers slot).fragments bytes ∧ (trimmed = w.buffers slot ∨ trimmed.generation = (w.buffers slot).invalidate.generation))
    (hflat : ∀ exported, f.apply (w.lengthOf operation) exported operation = f.set slot bytes) :
    w.Steps f operation := by
  rcases htrim with ⟨e, rfl⟩ | ⟨trimmed, rfl, hviewed, hnew⟩
  · have hstill : w.trimmed slot (.error e, w.buffers slot) = (.error e, w) := by
      unfold World.trimmed
      rw [update_eq_self]
      rfl
    exact h.refused hstands (hperform.trans hstill)
  · refine steps_of hperform (hflat _) (h.replace hstands hviewed.lies ?_ hviewed.content hnew)
    intro fragment hmem
    obtain ⟨whole, hof, hpart⟩ := hviewed.parts fragment hmem
    exact (h.published slot whole hof).part hpart

theorem Buffer.emptied_viewed {memory : Memory} {buffer : Buffer Window} (fragments : List (Fragment Window)) :
    buffer.emptied.Viewed memory fragments [] :=
  ⟨⟨⟨rfl, rfl, nofun, Nat.zero_le _, Nat.zero_le _⟩, nofun⟩, rfl, nofun⟩

/-- The fragments that are taken, and those that are left, in bytes. -/
theorem Buffer.Lies.split {memory : Memory} {buffer : Buffer Window} (h : buffer.Lies memory) (count : Nat) :
    let taken := sizes (buffer.fragments.take count)
    (contents memory.read (buffer.fragments.take count)).flatten = (buffer.content memory).take taken
      ∧ (contents memory.read (buffer.fragments.drop count)).flatten = (buffer.content memory).drop taken := by
  have hcontent : buffer.content memory = (contents memory.read (buffer.fragments.take count)).flatten
      ++ (contents memory.read (buffer.fragments.drop count)).flatten := by
    unfold Buffer.content contents
    rw [← List.flatten_append, ← List.map_append, List.take_append_drop]
  have hread : Readable memory.read (buffer.fragments.take count) :=
    fun fragment hmem => h.readable fragment (List.mem_of_mem_take hmem)
  dsimp only
  rw [hcontent, hread.sizes_eq, List.take_left, List.drop_left]
  exact ⟨rfl, rfl⟩

/-- What is left of a buffer whose first fragments were taken. -/
theorem Buffer.Lies.without {memory : Memory} {buffer : Buffer Window} (h : buffer.Lies memory) (count : Nat) :
    (buffer.without count).Viewed memory buffer.fragments
        ((buffer.content memory).drop (sizes (buffer.fragments.take count)))
      ∧ (buffer.without count = buffer
        ∨ (buffer.without count).generation = buffer.invalidate.generation) := by
  have hdropped := (Buffer.Lies.split h count).2
  unfold Buffer.without
  by_cases hzero : count = 0
  · rw [if_pos hzero]
    subst hzero
    exact ⟨⟨h, hdropped, PartsOf.refl⟩, .inl rfl⟩
  · rw [if_neg hzero]
    have hsizes := @sizes_split _ _ buffer.fragments count
    have hbacking := @backing_split _ buffer.fragments count
    refine ⟨h.represent (by omega) (by omega) ?_ ?_ ?_ hdropped, .inr rfl⟩
    · exact fun fragment hmem => h.sound.fragments fragment (List.mem_of_mem_drop hmem)
    · rw [List.length_drop]
      exact Nat.sub_le _ _
    · exact fun fragment hmem => ⟨fragment, List.mem_of_mem_drop hmem, Window.Part.refl⟩

/-- A cursor whose export succeeds is new, or bound to this presentation of the buffer; either way it is inside
    it, and what it has exported and what it has left are the buffer. -/
theorem Stands.exporting (hsound : w.Sound) (h : w.Stands f) {slot cursor maxVectors maxBytes : Nat}
    {batch : ScatterBatch} {next : ScatterCursor}
    (hexport : (w.buffers slot).exportScatter slot maxVectors maxBytes (w.cursors cursor) = .ok (batch, next)) :
    (w.cursors cursor).Placed (w.buffers slot)
      ∧ f.taken cursor ++ (w.cursors cursor).left w.memory (w.buffers slot)
        = (w.buffers slot).content w.memory := by
  have htracks := h.cursors cursor
  cases howner : (w.cursors cursor).owner with
  | none =>
    obtain ⟨hcursor, htaken⟩ := htracks.free howner
    rw [hcursor, htaken]
    exact ⟨⟨Nat.zero_le _, Within.zero (hsound.buffers slot).sound.fragments⟩, rfl⟩
  | some owner =>
    unfold Buffer.exportScatter at hexport
    split at hexport
    next => cases hexport
    next =>
      split at hexport
      next => cases hexport
      next hbound =>
        rw [howner] at hbound
        have hsame : owner = slot ∧ (w.cursors cursor).generation = (w.buffers slot).generation := by
          by_contra hother
          refine hbound ⟨Option.some_ne_none owner, ?_⟩
          by_cases howned : owner = slot
          · exact .inr fun hgeneration => hother ⟨howned, hgeneration⟩
          · exact .inl fun hsome => howned (Option.some.inj hsome)
        obtain ⟨rfl, hgeneration⟩ := hsame
        exact (htracks.bound owner howner).2.2 hgeneration

theorem Sound.exports (h : w.Sound) (hstands : w.Stands f) {slot cursor maxVectors maxBytes : Nat} :
    w.Steps f (.exportScatter slot cursor maxVectors maxBytes) := by
  cases hexport : (w.buffers slot).exportScatter slot maxVectors maxBytes (w.cursors cursor) with
  | error e => exact h.refused hstands (by simp only [World.perform, hexport]; rfl)
  | ok given =>
    obtain ⟨batch, next⟩ := given
    have hperform : w.perform (.exportScatter slot cursor maxVectors maxBytes)
        = (.ok (some batch), { w with cursors := update w.cursors cursor next }) := by
      simp only [World.perform, hexport]
    obtain ⟨hplaced, htaken⟩ := hstands.exporting h hexport
    obtain ⟨hbatched, howner, hgeneration, hmax⟩ := (h.buffers slot).exportScatter hplaced hexport
    have hthaw : ∀ {window : Window}, w.Frozen window →
        Frozen { w with cursors := update w.cursors cursor next } window :=
      fun h => ⟨h.valid, h.apart⟩
    refine steps_of hperform rfl ⟨⟨h.builders, h.buffers, fun slot fragment hmem =>
      hthaw (h.built slot fragment hmem), fun slot fragment hmem => hthaw (h.published slot fragment hmem),
      h.distinct⟩, fun window hfrozen => ⟨hthaw hfrozen, rfl⟩, hstands.builders, hstands.buffers, fun other => ?_⟩
    change Tracks _ (update w.cursors cursor next other) (update f.taken cursor
      (f.taken cursor ++ segmentBytes w.memory batch.segments) other)
    rw [update_apply, update_apply]
    by_cases hsame : other = cursor
    · rw [if_pos hsame, if_pos hsame]
      refine ⟨fun hfree => ?_, fun owner hbound => ?_⟩
      · rw [howner] at hfree
        cases hfree
      · rw [howner] at hbound
        cases hbound
        refine ⟨hgeneration.le, hgeneration ▸ hmax, fun _ => ⟨hbatched.placed, ?_⟩⟩
        rw [List.append_assoc, hbatched.bytes]
        exact htaken
    · rw [if_neg hsame, if_neg hsame]
      exact ⟨(hstands.cursors other).free, (hstands.cursors other).bound⟩

/-- A copy: its blocks are new, so nothing has slack in them. -/
theorem Sound.copies (h : w.Sound) (hstands : w.Stands f) {source target : Nat} :
    w.Steps f (.copy source target) := by
  obtain ⟨later, copied, hcopy, hlies, hcontent, hblocks, hkeeps, hread⟩ := (h.buffers source).copy
  have hperform : w.perform (.copy source target)
      = (.ok none, ({ w with memory := later } : World).assign target copied) := by
    change World.given { w with memory := ((w.buffers source).copy w.memory).1 } target
      (.ok ((w.buffers source).copy w.memory).2) = _
    rw [hcopy]
    rfl
  obtain ⟨hsound, hfreezes, hstands'⟩ := h.allocated hstands hkeeps hread
  rw [hstands.buffers] at hcontent
  have hfrozen : ∀ fragment ∈ copied.fragments, Frozen { w with memory := later } fragment.storage := by
    intro fragment hmem
    refine ⟨hlies.windows fragment hmem, fun slot block start hslack hblock => ?_⟩
    have hlt := slack_lt (h.builders slot).toShaped hslack
    have hfresh := hblocks fragment hmem
    omega
  obtain ⟨hsound', hfreezes', hstands''⟩ := @Sound.assign _ _ hsound hstands' target copied _ hlies hfrozen
    hcontent
  exact steps_of hperform rfl ⟨hsound', hfreezes.trans hfreezes', hstands''⟩

/-- Finishing a builder: what it presented is a buffer, and it has nothing. -/
theorem Sound.finishes (h : w.Sound) (hstands : w.Stands f) {slot target : Nat} :
    w.Steps f (.finish slot target) := by
  have hperform : w.perform (.finish slot target)
      = World.given { w with builders := update w.builders slot (w.builders slot).finish.2 } target
        (w.builders slot).finish.1 := rfl
  rcases (h.builders slot).finish with hclosed | ⟨published, hfinish, hviewed⟩
  · rw [hclosed, update_eq_self] at hperform
    exact h.refused hstands hperform
  · rw [hfinish] at hperform
    obtain ⟨hsound, hfreezes, hstands'⟩ := h.reset hstands (h.builders slot).closing rfl
    have hcontent := hviewed.content
    rw [hstands.builders] at hcontent
    have hfrozen : ∀ fragment ∈ published.fragments,
        Frozen { w with builders := update w.builders slot (w.builders slot).closed }
          fragment.storage := by
      intro fragment hmem
      obtain ⟨whole, hof, hpart⟩ := hviewed.parts fragment hmem
      exact (hfreezes _ ((h.built slot whole hof).part hpart)).1
    obtain ⟨hsound', hfreezes', hstands''⟩ := @Sound.assign _ _ hsound hstands' target published _ hviewed.lies
      hfrozen hcontent
    exact steps_of hperform rfl ⟨hsound', hfreezes.trans hfreezes', hstands''⟩

theorem Sound.moves (h : w.Sound) (hstands : w.Stands f) {source target : Nat} :
    w.Steps f (.move source target) := by
  by_cases hsame : source = target
  · refine steps_of (if_pos hsame) ?_ ⟨h, Freezes.refl, hstands⟩
    exact if_pos hsame
  · obtain ⟨hsound, hfreezes, hstands'⟩ := @Sound.assign _ _ h hstands target (w.buffers source) _
      (h.buffers source) (h.published source) (hstands.buffers source)
    have hkept : (w.assign target (w.buffers source)).buffers source = w.buffers source :=
      update_of_ne hsame ..
    obtain ⟨hsound', hfreezes', hstands''⟩ := @Sound.replace _ _ hsound hstands' source
      (w.buffers source).emptied _ (Buffer.emptied_viewed []).lies nofun (Buffer.emptied_viewed []).content
      (.inr (by rw [hkept]; rfl))
    refine steps_of (if_neg hsame) ?_ ⟨hsound', hfreezes.trans hfreezes', hstands''⟩
    exact if_neg hsame

/-- **Every operation** keeps the world sound and does to the byte strings what it does to flat ones. -/
theorem Sound.perform (h : w.Sound) (hstands : w.Stands f) (operation : Operation) : w.Steps f operation := by
  cases operation with
  | build slot config =>
    cases hvalid : config.validate with
    | error e => exact h.refused hstands (by simp only [World.perform, hvalid]; rfl)
    | ok u =>
      have hblank : Builder.Sound w.memory { config } :=
        ⟨⟨Config.validate_eq_ok.mp hvalid, nofun, nofun, fun _ => rfl, rfl, Nat.zero_le _, Nat.zero_le _, nofun,
          nofun⟩, rfl, Nat.zero_le _⟩
      exact steps_of (by simp only [World.perform, hvalid]; rfl) rfl (h.reset hstands hblank rfl)
  | append slot bytes =>
    exact h.built_steps hstands rfl ((h.builders slot).append bytes) fun _ => rfl
  | appendFragmentCopy slot bytes =>
    exact h.built_steps hstands rfl ((h.builders slot).appendFragmentCopy bytes) fun _ => rfl
  | appendBuffer slot source =>
    refine h.drained_steps hstands rfl ((h.builders slot).appendBuffer (h.buffers source) fun fragment hmem =>
      (h.published source fragment hmem).apart slot) (fun _ hmem => hmem)
      (fun _ => ⟨Buffer.emptied_viewed _, .inr rfl⟩) fun _ => ?_
    rw [hstands.buffers]
    rfl
  | appendFragments slot source count =>
    refine h.drained_steps hstands rfl ((h.builders slot).appendFragments (h.buffers source) count)
      (fun _ hmem => List.mem_of_mem_take hmem) (fun _ => Buffer.Lies.without (h.buffers source) count) fun _ => ?_
    rw [(Buffer.Lies.split (h.buffers source) _).1, hstands.buffers]
    rfl
  | reserve slot bytes =>
    exact h.built_steps hstands rfl ((h.builders slot).reserve bytes) fun _ => add_nil.symm
  | reserveFragments slot count =>
    have hperform : w.perform (.reserveFragments slot count)
        = (((w.builders slot).reserveFragments count).map fun _ => none, w) := rfl
    refine steps_of hperform ?_ ⟨h, Freezes.refl, hstands⟩
    cases (w.builders slot).reserveFragments count <;> rfl
  | shareBuilt slot offset length target =>
    refine h.given_steps hstands rfl (fun buffer hshared =>
      ⟨_, (h.builders slot).share hshared, h.built slot⟩) fun _ => ?_
    rw [hstands.builders]
    rfl
  | finish slot target => exact h.finishes hstands
  | shareWhole source target =>
    have hperform : w.perform (.shareWhole source target)
        = w.given target (.ok (w.buffers source).shareWhole) := rfl
    refine h.given_steps hstands hperform (fun buffer hshared => ?_) fun _ => rfl
    cases hshared
    rw [← hstands.buffers]
    exact ⟨_, (h.buffers source).shareWhole, h.published source⟩
  | share source offset length target =>
    refine h.given_steps hstands rfl (fun buffer hshared =>
      ⟨_, (h.buffers source).share hshared, h.published source⟩) fun _ => ?_
    rw [hstands.buffers]
    rfl
  | copy source target => exact h.copies hstands
  | trimFront slot bytes =>
    refine h.trimmed_steps hstands rfl ((h.buffers slot).trimFront bytes) fun _ => ?_
    rw [hstands.buffers]
    rfl
  | trimBack slot bytes =>
    refine h.trimmed_steps hstands rfl ((h.buffers slot).trimBack bytes) fun _ => ?_
    rw [hstands.buffers]
    rfl
  | move source target => exact h.moves hstands
  | aim cursor =>
    have hthaw : ∀ {window : Window}, w.Frozen window →
        Frozen { w with cursors := update w.cursors cursor {} } window := fun h => ⟨h.valid, h.apart⟩
    refine steps_of rfl rfl ⟨⟨h.builders, h.buffers, fun slot fragment hmem =>
      hthaw (h.built slot fragment hmem), fun slot fragment hmem => hthaw (h.published slot fragment hmem),
      h.distinct⟩, fun window hfrozen => ⟨hthaw hfrozen, rfl⟩, hstands.builders, hstands.buffers, fun other => ?_⟩
    change Tracks _ (update w.cursors cursor {} other) (update f.taken cursor [] other)
    rw [update_apply, update_apply]
    by_cases hsame : other = cursor
    · rw [if_pos hsame, if_pos hsame]
      exact ⟨fun _ => ⟨rfl, rfl⟩, fun owner howner => nomatch howner⟩
    · rw [if_neg hsame, if_neg hsame]
      exact ⟨(hstands.cursors other).free, (hstands.cursors other).bound⟩
  | exportScatter slot cursor maxVectors maxBytes => exact h.exports hstands

/-! ## Runs -/

/-- The world after some operations. -/
def after (w : World) (operations : List Operation) : World :=
  operations.foldl (fun w operation => (w.perform operation).2) w

/-- The byte strings after some operations. -/
def flatRun : World → Flat → List Operation → Flat
  | _, f, [] => f
  | w, f, operation :: more => flatRun (w.perform operation).2 (w.flatAfter f operation) more

/-- A run keeps what every operation keeps. -/
theorem Sound.run (h : w.Sound) (hstands : w.Stands f) (operations : List Operation) :
    (w.after operations).Sound ∧ (w.after operations).Stands (w.flatRun f operations)
      ∧ w.Freezes (w.after operations) := by
  induction operations generalizing w f with
  | nil => exact ⟨h, hstands, Freezes.refl⟩
  | cons operation more ih =>
    have hsteps := h.perform hstands operation
    obtain ⟨hsound, hstands', hfreezes⟩ := ih hsteps.sound hsteps.stands
    exact ⟨hsound, hstands', hsteps.freezes.trans hfreezes⟩

theorem Sound.start : ({} : World).Sound ∧ ({} : World).Stands {} := by
  have hblank : ∀ memory, Builder.Sound memory {} := fun memory =>
    ⟨⟨⟨by decide, by decide, by decide, by decide, by decide, by decide, by decide, by decide⟩, nofun, nofun,
      fun _ => rfl, rfl, Nat.zero_le _, Nat.zero_le _, nofun, nofun⟩, rfl, Nat.zero_le _⟩
  refine ⟨⟨fun _ => hblank [], fun _ => ⟨Buffer.Sound.empty, nofun⟩, nofun, nofun, ?_⟩, fun _ => rfl,
    fun _ => rfl, fun _ => ⟨fun _ => ⟨rfl, rfl⟩, fun _ howner => nomatch howner⟩⟩
  intro _ _ _ _ _ _ hslack
  cases hslack

/-! ## Refusals -/

/-- A share is refused only outside the buffer. -/
theorem Sound.share_refused (h : w.Sound) (hstands : w.Stands f) {source offset length target : Nat} :
    (∃ e, (w.perform (.share source offset length target)).1 = .error e)
      ↔ (f.buffers source).length < offset + length := by
  have hlies := h.buffers source
  have hsize : (w.buffers source).size = (f.buffers source).length := by
    rw [hlies.size_eq, hstands.buffers]
  have hperform : w.perform (.share source offset length target)
      = w.given target ((w.buffers source).share offset length) := rfl
  rw [hperform, ← hsize]
  by_cases hrange : offset + length > (w.buffers source).size
  · refine iff_of_true ⟨.outOfRange, ?_⟩ hrange
    unfold Buffer.share
    rw [if_pos hrange]
    rfl
  · refine iff_of_false ?_ (by omega)
    have hok : ∃ shared, (w.buffers source).share offset length = .ok shared := by
      unfold Buffer.share
      rw [if_neg hrange]
      by_cases hzero : length = 0
      · rw [if_pos hzero]
        exact ⟨_, rfl⟩
      · rw [if_neg hzero]
        have hsum := hlies.sound.size
        obtain ⟨hwithin, hfound⟩ := @locate_spec (w.buffers source).fragments offset (by omega)
        have hsplit := @sizes_split _ _ (w.buffers source).fragments
          (locate (w.buffers source).fragments offset).1
        dsimp only
        by_cases hwhole : (locate (w.buffers source).fragments offset).1 = 0
            ∧ (locate (w.buffers source).fragments offset).2 = 0 ∧ length = (w.buffers source).size
        · exact ⟨_, if_pos hwhole⟩
        · exact ⟨_, Buffer.shareFrom_eq hlies.sound hwithin (by omega) hwhole⟩
    obtain ⟨shared, hshared⟩ := hok
    rintro ⟨e, hrefused⟩
    rw [hshared] at hrefused
    cases hrefused

/-- A trim is refused only if it is longer than the buffer. -/
theorem Sound.trims_refused (h : w.Sound) (hstands : w.Stands f) {slot bytes : Nat} :
    ((∃ e, (w.perform (.trimFront slot bytes)).1 = .error e) ↔ (f.buffers slot).length < bytes)
    ∧ ((∃ e, (w.perform (.trimBack slot bytes)).1 = .error e) ↔ (f.buffers slot).length < bytes) := by
  have hsize : (w.buffers slot).size = (f.buffers slot).length := by
    rw [(h.buffers slot).size_eq, hstands.buffers]
  rw [← hsize]
  change ((∃ e, (w.trimmed slot ((w.buffers slot).trimFront bytes)).1 = .error e) ↔ _)
    ∧ ((∃ e, (w.trimmed slot ((w.buffers slot).trimBack bytes)).1 = .error e) ↔ _)
  unfold Buffer.trimFront Buffer.trimBack World.trimmed
  by_cases hrange : bytes > (w.buffers slot).size
  · rw [if_pos hrange, if_pos hrange]
    exact ⟨iff_of_true ⟨_, rfl⟩ hrange, iff_of_true ⟨_, rfl⟩ hrange⟩
  · rw [if_neg hrange, if_neg hrange]
    constructor <;> refine iff_of_false ?_ (by omega) <;> rintro ⟨e, hrefused⟩ <;> split at hrefused <;>
      cases hrefused

/-- A share of a builder is refused only after it has finished, or outside its bytes. -/
theorem Sound.shareBuilt_refused (h : w.Sound) (hstands : w.Stands f) {slot offset length target : Nat} :
    (∃ e, (w.perform (.shareBuilt slot offset length target)).1 = .error e)
      ↔ (w.builders slot).finished = true ∨ (f.builders slot).length < offset + length := by
  have hb := h.builders slot
  have hsize : (w.builders slot).size = (f.builders slot).length := by
    rw [hb.size, hb.toShaped.sizes_eq, hstands.builders]
  have hperform : w.perform (.shareBuilt slot offset length target)
      = w.given target ((w.builders slot).share offset length) := rfl
  rw [hperform, ← hsize]
  unfold Builder.share
  by_cases hfinished : (w.builders slot).finished = true
  · rw [if_pos hfinished]
    exact iff_of_true ⟨_, rfl⟩ (.inl hfinished)
  rw [if_neg hfinished]
  by_cases hrange : offset + length > (w.builders slot).size
  · rw [if_pos hrange]
    exact iff_of_true ⟨_, rfl⟩ (.inr hrange)
  rw [if_neg hrange]
  refine iff_of_false ?_ (not_or.mpr ⟨hfinished, by omega⟩)
  rintro ⟨e, hrefused⟩
  split at hrefused
  next => cases hrefused
  next =>
    have hfew := hb.few.trans hb.config.few
    have hsum := hb.size
    rw [Builder.shareParts_eq (by rw [Builder.used_presented]; omega)
      (by rw [Builder.used_length, List.length_nil]; omega)] at hrefused
    cases hrefused

/-! ## The refinement -/

/-- What a batch is to the byte strings. -/
theorem Stands.batch (hsound : w.Sound) (h : w.Stands f) {slot cursor maxVectors maxBytes : Nat}
    {batch : ScatterBatch}
    (hexport : (w.perform (.exportScatter slot cursor maxVectors maxBytes)).1 = .ok (some batch)) :
    (batch.segments.length ≤ min maxVectors maxScatterVectors ∧ batch.bytes ≤ maxBytes
      ∧ batch.bytes = (segmentBytes w.memory batch.segments).length)
    ∧ (f.taken cursor ≠ f.buffers slot → segmentBytes w.memory batch.segments ≠ [])
    ∧ f.taken cursor ++ segmentBytes w.memory batch.segments <+: f.buffers slot
    ∧ (batch.complete = true ↔ f.taken cursor ++ segmentBytes w.memory batch.segments = f.buffers slot)
    ∧ ∀ segment ∈ batch.segments, w.Frozen segment := by
  simp only [World.perform] at hexport
  cases hgiven : (w.buffers slot).exportScatter slot maxVectors maxBytes (w.cursors cursor) with
  | error e =>
    rw [hgiven] at hexport
    cases hexport
  | ok given =>
    obtain ⟨exported, next⟩ := given
    rw [hgiven] at hexport
    obtain rfl : exported = batch := Option.some.inj (Except.ok.inj hexport)
    obtain ⟨hplaced, htaken⟩ := h.exporting hsound hgiven
    obtain ⟨hbatched, _⟩ := (hsound.buffers slot).exportScatter hplaced hgiven
    have hwhole : f.taken cursor ++ segmentBytes w.memory exported.segments
        ++ next.left w.memory (w.buffers slot) = f.buffers slot := by
      rw [List.append_assoc, hbatched.bytes, htaken, h.buffers]
    refine ⟨⟨hbatched.vectors, hbatched.most, hbatched.count⟩, fun hmore => ?_, ⟨_, hwhole⟩, ?_, ?_⟩
    · refine hbatched.least fun hnone => hmore ?_
      rw [hnone, List.append_nil, h.buffers] at htaken
      exact htaken
    · rw [hbatched.complete, ← hwhole]
      constructor
      · intro hnone
        rw [hnone, List.append_nil]
      · intro hall
        exact List.append_right_eq_self.mp hall.symm
    · intro segment hmem
      obtain ⟨fragment, hof, hpart⟩ := hbatched.parts segment hmem
      exact (hsound.published slot fragment hof).part hpart

/-- **Fragmented buffers refine byte strings.** After every sequence of operations on builders, buffers and
    scatter cursors:

    * every builder and every buffer holds what the same operations give on flat byte strings;
    * an operation that is refused leaves every builder and every buffer with the bytes it had, and those that
      share or trim are refused only outside the bytes there are;
    * what a buffer presents at this moment, and what a batch holds, is never changed by what comes later;
    * sizes and retained bytes are the sums over the fragments, no buffer has an empty fragment, and builders
      keep within their configuration;
    * a batch is within its caps, is not empty while something is left, goes on where the last one ended, and
      is complete exactly when the batches so far are the whole buffer. -/
theorem buffers_refine_strings (operations : List Operation) :
    let w := ({} : World).after operations
    let f := ({} : World).flatRun {} operations
    ((∀ slot, (w.builders slot).content w.memory = f.builders slot)
      ∧ ∀ slot, (w.buffers slot).content w.memory = f.buffers slot)
    ∧ (∀ operation e, (w.perform operation).1 = .error e →
      (∀ slot, ((w.perform operation).2.builders slot).content (w.perform operation).2.memory
        = (w.builders slot).content w.memory)
      ∧ ∀ slot, ((w.perform operation).2.buffers slot).content (w.perform operation).2.memory
        = (w.buffers slot).content w.memory)
    ∧ ((∀ slot offset length target, (∃ e, (w.perform (.shareBuilt slot offset length target)).1 = .error e)
        ↔ (w.builders slot).finished = true ∨ (f.builders slot).length < offset + length)
      ∧ (∀ source offset length target, (∃ e, (w.perform (.share source offset length target)).1 = .error e)
        ↔ (f.buffers source).length < offset + length)
      ∧ ∀ slot bytes,
        ((∃ e, (w.perform (.trimFront slot bytes)).1 = .error e) ↔ (f.buffers slot).length < bytes)
        ∧ ((∃ e, (w.perform (.trimBack slot bytes)).1 = .error e) ↔ (f.buffers slot).length < bytes))
    ∧ (∀ slot, ∀ fragment ∈ (w.buffers slot).fragments, ∀ more,
      (w.after more).memory.read fragment.storage = w.memory.read fragment.storage)
    ∧ (∀ slot, (w.buffers slot).size = sizes (w.buffers slot).fragments
      ∧ (w.buffers slot).size = (f.buffers slot).length
      ∧ (w.buffers slot).retainedBytes = backing (w.buffers slot).fragments
      ∧ ∀ fragment ∈ (w.buffers slot).fragments, 0 < fragment.size)
    ∧ (∀ slot, (w.builders slot).size = sizes (w.builders slot).presented
      ∧ (w.builders slot).size = (f.builders slot).length
      ∧ (w.builders slot).retainedBytes = backing (w.builders slot).fragments
      ∧ (w.builders slot).size ≤ (w.builders slot).config.maxTotalBytes
      ∧ (w.builders slot).retainedBytes ≤ (w.builders slot).config.maxRetainedBytes
      ∧ (w.builders slot).fragments.length ≤ (w.builders slot).config.maxFragments)
    ∧ ∀ slot cursor maxVectors maxBytes batch,
      (w.perform (.exportScatter slot cursor maxVectors maxBytes)).1 = .ok (some batch) →
      (batch.segments.length ≤ min maxVectors maxScatterVectors ∧ batch.bytes ≤ maxBytes
        ∧ batch.bytes = (segmentBytes w.memory batch.segments).length)
      ∧ (f.taken cursor ≠ f.buffers slot → segmentBytes w.memory batch.segments ≠ [])
      ∧ f.taken cursor ++ segmentBytes w.memory batch.segments <+: f.buffers slot
      ∧ (batch.complete = true ↔ f.taken cursor ++ segmentBytes w.memory batch.segments = f.buffers slot)
      ∧ ∀ segment ∈ batch.segments, ∀ more, (w.after more).memory.read segment = w.memory.read segment := by
  intro w f
  obtain ⟨hsound, hstands, _⟩ := Sound.start.1.run Sound.start.2 operations
  have hfixed : ∀ {window : Window}, w.Frozen window → ∀ more,
      (w.after more).memory.read window = w.memory.read window :=
    fun hfrozen more => ((hsound.run hstands more).2.2 _ hfrozen).2
  refine ⟨⟨hstands.builders, hstands.buffers⟩, ?_, ⟨fun slot offset length target =>
    hsound.shareBuilt_refused hstands, fun source offset length target => hsound.share_refused hstands,
    fun slot bytes => hsound.trims_refused hstands⟩, ?_, ?_, ?_, ?_⟩
  · intro operation e hrefused
    have hafter := (hsound.perform hstands operation).stands
    have hsame : w.flatAfter f operation = f := by
      unfold flatAfter
      rw [hrefused]
      rfl
    rw [hsame] at hafter
    exact ⟨fun slot => (hafter.builders slot).trans (hstands.builders slot).symm,
      fun slot => (hafter.buffers slot).trans (hstands.buffers slot).symm⟩
  · intro slot fragment hmem more
    exact hfixed (hsound.published slot fragment hmem) more
  · intro slot
    have hlies := hsound.buffers slot
    refine ⟨hlies.sound.size, ?_, hlies.sound.retained, fun fragment hmem =>
      (hlies.sound.fragments fragment hmem).nonempty⟩
    rw [hlies.size_eq, hstands.buffers]
  · intro slot
    have hb := hsound.builders slot
    refine ⟨hb.size, ?_, hb.retained, hb.total, hb.backed, hb.few⟩
    rw [hb.size, hb.toShaped.sizes_eq, hstands.builders]
  · intro slot cursor maxVectors maxBytes batch hexport
    obtain ⟨hcaps, hsome, hfront, hcomplete, hfrozen⟩ := hstands.batch hsound hexport
    exact ⟨hcaps, hsome, hfront, hcomplete, fun segment hmem more => hfixed (hfrozen segment hmem) more⟩

end World

end KwaqueStorage.Bytes
