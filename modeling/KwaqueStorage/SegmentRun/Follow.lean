import KwaqueStorage.SegmentRun.Take

/-!
# Where the feed stands

The run that is filling ends at the place up to which groups were taken, and the groups that wait go
on from there, except after one that was not kept (`Waits`). Giving a run up at such a gap is what
keeps a run from spanning it. `Goes` is kept by the feed's own work, by a reader that catches up, and
by whatever the segment's writer makes, kept or not.
-/

namespace KwaqueStorage.SegmentRun

open Scan Extent

variable {codec : RunCodec} {history : History}

/-! ## Where the feed stands -/

/-- What is handed over are the oldest runs, and the one that fills is not among them. -/
theorem publishable_left {readable : Nat} {pending : List FedRun} :
    (∀ r ∈ (Feed.publishable readable pending).2, r ∈ pending)
      ∧ (∀ r, pending.getLast? = some r → r.closed = false →
        (Feed.publishable readable pending).2.getLast? = some r)
      ∧ ∀ r, (Feed.publishable readable pending).2.getLast? = some r →
        pending.getLast? = some r := by
  induction pending with
  | nil => simp [Feed.publishable]
  | cons oldest rest ih =>
    unfold Feed.publishable
    split
    next => exact ⟨fun _ h => h, fun _ h _ => h, fun _ h => h⟩
    next hready =>
      simp only [not_or, Bool.not_eq_false] at hready
      obtain ⟨h₁, h₂, h₃⟩ := ih
      have hlast : ∀ r, rest.getLast? = some r → (oldest :: rest).getLast? = some r := by
        intro r hr
        rw [List.getLast?_cons, hr]
        rfl
      refine ⟨fun r hr => List.mem_cons_of_mem _ (h₁ r hr), ?_, fun r hr => hlast r (h₃ r hr)⟩
      intro r hr hopen
      apply h₂ r _ hopen
      cases rest with
      | nil =>
        obtain rfl : oldest = r := by simpa using hr
        exact absurd hready.1 (by simp [hopen])
      | cons next rest => rwa [List.getLast?_cons_cons] at hr

/-- **Where the feed stands**, with the file made so far. -/
structure Stands (objs : List (Obj codec history)) (f : Feed) (place : Nat) : Prop where
  has : Has objs f.published f.pending place
  filling : Filling f place
  rests : Rests f
  begun : Begun f

section Stands

variable {objs : List (Obj codec history)} {f : Feed} {place place' : Nat}

theorem Stands.publish (h : Stands objs f place) : Stands objs f.publish place := by
  obtain ⟨hmem, hkeeps, hlast⟩ := @publishable_left f.readable f.pending
  refine ⟨h.has.publish, ?_, ?_, ?_⟩
  · intro hskip hfin
    obtain ⟨r, hr, hopen, hend⟩ := h.filling hskip hfin
    exact ⟨r, hkeeps r hr hopen, hopen, hend⟩
  · intro hskip r hr
    exact h.rests hskip r (hmem r hr)
  · intro hskip hfin r hr
    exact h.begun hskip hfin r (hlast r hr)

/-- The runs that wait are given up. -/
theorem Has.unheld {published : List Published} {pending : List FedRun}
    (h : Has objs published pending place) : Has objs published [] place := by
  refine ⟨h.delivered, by simp, ?_, ?_, by simp⟩
  · rw [List.map_nil, List.append_nil]
    exact (List.pairwise_append.mp h.ordered).1
  · intro run hr
    rw [List.map_nil, List.append_nil] at hr
    exact h.before run (List.mem_append_left _ hr)

/-- A feed that gave its run up stands anywhere further on. -/
theorem Has.stands_abandon (h : Has objs f.published f.pending place) :
    Stands objs f.abandon place := by
  refine ⟨h.abandon, ?_, fun _ => h.abandon_closed, ?_⟩
  · intro hskip
    exact absurd hskip (by simp [Feed.abandon])
  · intro hskip
    exact absurd hskip (by simp [Feed.abandon])

theorem Stands.more (h : Stands objs f place) (later : List (Obj codec history)) :
    Stands (objs ++ later) f place :=
  ⟨h.has.more later, h.filling, h.rests, h.begun⟩

/-- A feed whose run does not fill stands anywhere further on. -/
theorem Stands.mono (h : Stands objs f place) (hskip : f.skipping = true) (hle : place ≤ place') :
    Stands objs f place' := by
  refine ⟨h.has.mono hle, ?_, h.rests, h.begun⟩
  intro hno
  exact absurd (hskip.symm.trans hno) (by simp)

/-- Only the runs, and whether one fills, say where the feed stands. -/
theorem Stands.congr {f' : Feed} (h : Stands objs f place) (hp : f'.published = f.published)
    (hq : f'.pending = f.pending) (hs : f'.skipping = f.skipping)
    (hf : f'.finished = f.finished) : Stands objs f' place := by
  refine ⟨by rw [hp, hq]; exact h.has, ?_, ?_, ?_⟩
  · intro h₁ h₂
    rw [hq]
    exact h.filling (hs ▸ h₁) (hf ▸ h₂)
  · intro h₁
    rw [hq]
    exact h.rests (hs ▸ h₁)
  · intro h₁ h₂
    rw [hq]
    exact h.begun (hs ▸ h₁) (hf ▸ h₂)

end Stands

/-- A group of the file, whichever. -/
def GroupOf (objs : List (Obj codec history)) (group : Group) : Prop :=
  ∃ pre post blocks footer, Of objs pre post group blocks footer ∧ group.blocks = notedOf blocks

theorem GroupOf.more {objs : List (Obj codec history)} {group : Group} (h : GroupOf objs group)
    (later : List (Obj codec history)) : GroupOf (objs ++ later) group := by
  obtain ⟨pre, post, blocks, footer, hof, hblocks⟩ := h
  refine ⟨pre, post ++ later, blocks, footer, ⟨?_, hof.begin_, hof.bytes⟩, hblocks⟩
  rw [hof.file]
  simp

/-- **The groups that wait go on from a place**, each from the one before it unless one between them
    was not kept; `linked` says that a run ends at the place. -/
def Waits (objs : List (Obj codec history)) (gap : Bool) (end_ : Nat) :
    Nat → Prop → List Group → Prop
  | place, linked, [] => place ≤ end_ ∧ (gap = false → linked → place = end_)
  | place, linked, group :: rest =>
    place ≤ group.begin_ ∧ GroupOf objs group
      ∧ (group.afterGap = false → linked → place = group.begin_)
      ∧ Waits objs gap end_ (group.begin_ + group.bytes.length) True rest

section Waits

variable {objs : List (Obj codec history)} {gap : Bool} {end_ : Nat} {waiting : List Group}

theorem Waits.weaken {place : Nat} {linked linked' : Prop}
    (h : Waits objs gap end_ place linked waiting) (hl : linked' → linked) :
    Waits objs gap end_ place linked' waiting := by
  cases waiting with
  | nil => exact ⟨h.1, fun hg hk => h.2 hg (hl hk)⟩
  | cons group rest => exact ⟨h.1, h.2.1, fun hg hk => h.2.2.1 hg (hl hk), h.2.2.2⟩

/-- More is made that the feed is not to have. -/
theorem Waits.unkept (later : List (Obj codec history)) {end' : Nat} (hend : end_ ≤ end') :
    ∀ {waiting : List Group} {place : Nat} {linked : Prop},
      Waits objs gap end_ place linked waiting →
      Waits (objs ++ later) true end' place linked waiting := by
  intro waiting
  induction waiting with
  | nil =>
    intro place linked h
    exact ⟨h.1.trans hend, by simp⟩
  | cons group rest ih =>
    intro place linked h
    exact ⟨h.1, h.2.1.more later, h.2.2.1, ih h.2.2.2⟩

/-- A group is handed over. -/
theorem Waits.push (later : List (Obj codec history)) {group : Group}
    (hgroup : GroupOf (objs ++ later) group) (hbegin : group.begin_ = end_)
    (hgap : group.afterGap = gap) {end' : Nat}
    (hend : group.begin_ + group.bytes.length = end') :
    ∀ {waiting : List Group} {place : Nat} {linked : Prop},
      Waits objs gap end_ place linked waiting →
      Waits (objs ++ later) false end' place linked (waiting ++ [group]) := by
  intro waiting
  induction waiting with
  | nil =>
    intro place linked h
    refine ⟨h.1.trans hbegin.ge, hgroup, ?_, hend.le, fun _ _ => hend⟩
    intro hafter hlinked
    rw [hbegin]
    exact h.2 (hgap ▸ hafter) hlinked
  | cons first rest ih =>
    intro place linked h
    exact ⟨h.1, h.2.1.more later, h.2.2.1, ih h.2.2.2⟩

end Waits

/-! ## The feed's own work -/

section Work

variable {objs : List (Obj codec history)} {f f' : Feed} {config : Config} {gap : Bool}
  {end_ place : Nat} {answers : List Answer}

theorem publish_same : f.publish = { f with
    published := f.publish.published, pending := f.publish.pending } := rfl

/-- Taking a group changes the groups and the runs that wait, and what was handed over, alone. -/
theorem takeFront_same : f.takeFront config answers = { f with
    waiting := f.waiting.tail
    skipping := (f.takeFront config answers).skipping
    pending := (f.takeFront config answers).pending
    published := (f.takeFront config answers).published } := by
  unfold Feed.takeFront
  cases hw : f.waiting with
  | nil =>
    obtain ⟨⟩ := f
    obtain rfl := hw
    rfl
  | cons group rest =>
    simp only [List.tail_cons]
    obtain ⟨g, hg⟩ : ∃ g, (if group.afterGap then { f with waiting := rest }.abandon
        else { f with waiting := rest }) = g := ⟨_, rfl⟩
    have hsame : ({ f with waiting := rest } : Feed).SameBut g := by
      rw [← hg]
      split
      next => exact Feed.abandon_same
      next => rfl
    rw [hg]
    have htaken := hsame.trans
      (@Feed.takeBlocks_same config group group.blocks [] 0 answers g)
    split
    next =>
      have hall := htaken.trans Feed.abandon_same
      rw [publish_same, hall]
    next => rw [publish_same, htaken]

/-- **Taking the group in front** leaves the feed at its end. -/
theorem takeFront_stands (hall : Whole objs) (hfin : f.finished = false)
    (hs : Stands objs f place) {group : Group} {rest : List Group}
    (hfront : f.waiting = group :: rest)
    (hw : Waits objs gap end_ place (f.skipping = false) f.waiting) :
    Stands objs (f.takeFront config answers) (group.begin_ + group.bytes.length) := by
  rw [hfront] at hw
  obtain ⟨hle, ⟨pre, post, blocks, footer, hof, hblocks⟩, hlinked, _⟩ := hw
  obtain ⟨g, hg⟩ : ∃ g, (if group.afterGap then { f with waiting := rest }.abandon
      else { f with waiting := rest }) = g := ⟨_, rfl⟩
  -- a run that does not end where the group begins is given up, or none fills
  have hat : Stands objs g group.begin_ ∧ g.finished = false := by
    rw [← hg]
    cases hafter : group.afterGap with
    | true =>
      simp only [if_true]
      exact ⟨(Has.stands_abandon (f := { f with waiting := rest }) hs.has).mono rfl hle, hfin⟩
    | false =>
      simp only [Bool.false_eq_true, if_false]
      refine ⟨?_, hfin⟩
      have hs' : Stands objs { f with waiting := rest } place := hs.congr rfl rfl rfl rfl
      by_cases hskip : f.skipping = true
      · exact hs'.mono hskip hle
      · rw [← hlinked hafter (by simpa using hskip)]
        exact hs'
  obtain ⟨hat, hgfin⟩ := hat
  have htook := @takeBlocks_has codec history objs config group hall pre post footer blocks [] []
    answers g (by simpa using hof) hgfin hat.has hat.filling hat.rests
    (fun _ => hat.begun)
  have hgoal : f.takeFront config answers
      = (if (Feed.takeBlocks config group group.blocks [] 0 answers g).2
          then (Feed.takeBlocks config group group.blocks [] 0 answers g).1.abandon
          else (Feed.takeBlocks config group group.blocks [] 0 answers g).1).publish := by
    unfold Feed.takeFront
    simp only [hfront, hg]
  rw [hgoal, hblocks]
  apply Stands.publish
  split
  next => exact htook.1.stands_abandon
  next hgoes =>
    obtain ⟨h₁, h₂, h₃⟩ := htook.2 (eq_false_of_ne_true hgoes)
    exact ⟨htook.1, h₁, h₂, h₃⟩

/-- **The feed goes on from where it stands**: with the groups that wait, it has what follows the
    last run, or knows that it does not. -/
structure Goes (objs : List (Obj codec history)) (end_ : Nat) (f : Feed) : Prop where
  stands : ∃ place, Stands objs f place ∧ Waits objs f.gap end_ place (f.skipping = false) f.waiting
  /-- A feed that is not wanted misses what is made. -/
  idle : f.wanted = false → f.gap = true ∨ f.sealed_ = true ∨ (f.waiting = [] ∧ f.skipping = true)
  last : f.finished = true → f.waiting = [] ∧ f.sealed_ = true

theorem Goes.publish (h : Goes objs end_ f) : Goes objs end_ f.publish := by
  obtain ⟨place, hs, hw⟩ := h.stands
  exact ⟨⟨place, hs.publish, hw⟩, h.idle, h.last⟩

/-- A feed that was not read for long gives its run up. -/
theorem Goes.lapse (h : Goes objs end_ f) : Goes objs end_ { f with lapsed := false }.abandon := by
  obtain ⟨place, hs, hw⟩ := h.stands
  refine ⟨⟨place, Has.stands_abandon (f := { f with lapsed := false }) hs.has, ?_⟩, ?_, h.last⟩
  · exact hw.weaken (fun hno => absurd hno (by simp [Feed.abandon]))
  · intro hwanted
    rcases h.idle hwanted with hgap | hsealed | ⟨hempty, _⟩
    · exact .inl hgap
    · exact .inr (.inl hsealed)
    · exact .inr (.inr ⟨hempty, rfl⟩)

theorem Goes.takeFront (hall : Whole objs) (h : Goes objs end_ f) :
    Goes objs end_ (f.takeFront config answers) := by
  cases hfront : f.waiting with
  | nil =>
    have hnone : f.takeFront config answers = f := by
      unfold Feed.takeFront
      simp only [hfront]
    rw [hnone]
    exact h
  | cons group rest =>
    obtain ⟨place, hs, hw⟩ := h.stands
    have hfin : f.finished = false := by
      apply eq_false_of_ne_true
      intro hfin
      exact absurd hfront (by simp [(h.last hfin).1])
    have hsame := @takeFront_same f config answers
    have hstands := @takeFront_stands codec history objs f config f.gap end_ place answers hall hfin
      hs group rest hfront hw
    rw [hfront] at hw
    refine ⟨⟨_, hstands, ?_⟩, ?_, ?_⟩
    · have hgap : (f.takeFront config answers).gap = f.gap := by rw [hsame]
      have hwaiting : (f.takeFront config answers).waiting = rest := by
        rw [hsame, hfront]
        rfl
      rw [hgap, hwaiting]
      exact hw.2.2.2.weaken (fun _ => trivial)
    · intro hwanted
      rw [hsame] at hwanted ⊢
      rcases h.idle hwanted with hgap | hsealed | ⟨hempty, _⟩
      · exact .inl hgap
      · exact .inr (.inl hsealed)
      · exact absurd hfront (by simp [hempty])
    · intro hdone
      rw [hsame] at hdone
      exact absurd hdone (by simp [hfin])

/-- The last run of a sealed segment is complete, or is given up. -/
theorem Goes.finish (h : Goes objs end_ f) (hempty : f.waiting = []) (hsealed : f.sealed_ = true)
    (hfin : f.finished = false) :
    Goes objs end_ (if f.gap ∨ f.skipping then { f with finished := true }.abandon
      else { f with finished := true }.closeFilling) := by
  obtain ⟨place, hs, hw⟩ := h.stands
  split
  next =>
    refine ⟨⟨place, Has.stands_abandon (f := { f with finished := true }) hs.has, ?_⟩, ?_, ?_⟩
    · exact hw.weaken (fun hno => absurd hno (by simp [Feed.abandon]))
    · intro _
      exact .inr (.inl hsealed)
    · intro _
      exact ⟨hempty, hsealed⟩
  next hfills =>
    simp only [not_or, Bool.not_eq_true] at hfills
    obtain ⟨hhas, _⟩ := hs.has.closeFilling hfills.2 hfin hs.filling hs.begun
    have hsame := @Feed.closeFilling_same { f with finished := true }
    have hruns : Has objs ({ f with finished := true } : Feed).closeFilling.published
        ({ f with finished := true } : Feed).closeFilling.pending place := by
      unfold Feed.closeFilling at hhas ⊢
      cases hlast : f.pending.getLast? with
      | none => simpa [hlast] using hhas
      | some last => simpa [hlast] using hhas
    have hskip : ({ f with finished := true } : Feed).closeFilling.skipping = false := by
      unfold Feed.closeFilling
      split <;> exact hfills.2
    have hdone : ({ f with finished := true } : Feed).closeFilling.finished = true := by rw [hsame]
    refine ⟨⟨place, ⟨hruns, ?_, ?_, ?_⟩, ?_⟩, ?_, ?_⟩
    · intro _ hno
      exact absurd (hdone.symm.trans hno) (by simp)
    · intro hyes
      exact absurd (hskip.symm.trans hyes) (by simp)
    · intro _ hno
      exact absurd (hdone.symm.trans hno) (by simp)
    · rw [hsame]
      exact hw.weaken (fun _ => hfills.2)
    · intro _
      rw [hsame]
      exact .inr (.inl hsealed)
    · intro _
      rw [hsame]
      exact ⟨hempty, hsealed⟩

/-- **A turn of the feed's own work.** -/
theorem Goes.copy (hall : Whole objs) (h : Goes objs end_ f) :
    Goes objs end_ (f.copy config answers) := by
  obtain ⟨g, hg⟩ : ∃ g, (if f.lapsed then { f with lapsed := false }.abandon else f) = g := ⟨_, rfl⟩
  have hgoes : Goes objs end_ g := by
    rw [← hg]
    split
    next => exact h.lapse
    next => exact h
  unfold Feed.copy
  simp only [hg]
  split
  next hempty =>
    split
    next hseal => exact (hgoes.finish hempty hseal.1 hseal.2).publish
    next => exact hgoes.publish
  next => exact hgoes.takeFront hall

theorem Goes.catchUpLoop (hall : Whole objs) :
    ∀ {left : Nat} {answers : List (List Answer)} {f : Feed}, Goes objs end_ f →
      Goes objs end_ (Feed.catchUpLoop config left answers f) := by
  intro left
  induction left with
  | zero =>
    intro answers f h
    exact h
  | succ left ih =>
    intro answers f h
    cases answers with
    | nil => exact h
    | cons first more =>
      unfold Feed.catchUpLoop
      split
      next => exact h
      next =>
        split
        next => exact h
        next => exact ih (h.takeFront hall)

/-- A reader takes the groups it cannot wait for. -/
theorem Goes.catchUp (hall : Whole objs) {target : Nat} {answers : List (List Answer)}
    (h : Goes objs end_ f) : Goes objs end_ (f.catchUp config target answers) := by
  unfold Feed.catchUp
  split
  next => exact h
  next =>
    simp only
    split
    next => exact h
    next =>
      split
      next => exact h
      next => exact h.catchUpLoop hall

/-- **What does not touch the runs**: a feed that is wanted again, is no longer, or whose segment was
    sealed, goes on as before once it knows what it will miss. -/
theorem Goes.flags (h : Goes objs end_ f)
    (hruns : f'.published = f.published ∧ f'.pending = f.pending ∧ f'.skipping = f.skipping
      ∧ f'.finished = f.finished ∧ f'.waiting = f.waiting)
    (hgap : f'.gap = true ∨ f'.gap = f.gap) (hsealed : f.sealed_ = true → f'.sealed_ = true)
    (hidle : f'.wanted = false → f'.gap = true ∨ f'.sealed_ = true ∨ f.wanted = false) :
    Goes objs end_ f' := by
  obtain ⟨hp, hq, hs, hf, hw⟩ := hruns
  obtain ⟨place, hstands, hwaits⟩ := h.stands
  refine ⟨⟨place, hstands.congr hp hq hs hf, ?_⟩, ?_, ?_⟩
  · rw [hw, hs]
    rcases hgap with hgap | hgap
    · have hmore := hwaits.unkept [] le_rfl
      rwa [List.append_nil, ← hgap] at hmore
    · rwa [hgap]
  · intro hwanted
    rcases hidle hwanted with hyes | hyes | hno
    · exact .inl hyes
    · exact .inr (.inl hyes)
    · rcases h.idle hno with hyes | hyes | hyes
      · rcases hgap with hgap | hgap
        · exact .inl hgap
        · exact .inl (hgap.trans hyes)
      · exact .inr (.inl (hsealed hyes))
      · rw [hw, hs]
        exact .inr (.inr hyes)
  · intro hdone
    obtain ⟨hempty, hyes⟩ := h.last (hf ▸ hdone)
    exact ⟨hw.trans hempty, hsealed hyes⟩

theorem takeFront_closing : (f.takeFront config answers).closing = f.closing := by
  rw [takeFront_same]

theorem copy_closing : (f.copy config answers).closing = f.closing := by
  obtain ⟨g, hg⟩ : ∃ g, (if f.lapsed then { f with lapsed := false }.abandon else f) = g := ⟨_, rfl⟩
  have hsame : g.closing = f.closing := by
    rw [← hg]
    split <;> rfl
  unfold Feed.copy
  simp only [hg]
  rw [← hsame]
  split
  next =>
    split
    next =>
      split
      next => rfl
      next =>
        rw [publish_same, @Feed.closeFilling_same { g with finished := true }]
    next => rfl
  next => exact takeFront_closing

theorem catchUpLoop_closing {left : Nat} :
    ∀ {answers : List (List Answer)} {f : Feed},
      (Feed.catchUpLoop config left answers f).closing = f.closing := by
  induction left with
  | zero =>
    intro answers f
    rfl
  | succ left ih =>
    intro answers f
    cases answers with
    | nil => rfl
    | cons first more =>
      unfold Feed.catchUpLoop
      split
      next => rfl
      next =>
        split
        next => rfl
        next => exact ih.trans takeFront_closing

theorem catchUp_closing {target : Nat} {answers : List (List Answer)} :
    (f.catchUp config target answers).closing = f.closing := by
  unfold Feed.catchUp
  split
  next => rfl
  next =>
    simp only
    split
    next => rfl
    next =>
      split
      next => rfl
      next => exact catchUpLoop_closing

/-! ## What the writer makes -/

variable {later : List (Obj codec history)} {end' : Nat}

/-- A group that is not kept leaves a gap. -/
theorem Goes.drop (h : Goes objs end_ f) (hend : end_ ≤ end') :
    Goes (objs ++ later) end' f.drop := by
  obtain ⟨place, hs, hw⟩ := h.stands
  refine ⟨⟨place, (hs.more later).congr rfl rfl rfl rfl, hw.unkept later hend⟩, ?_, h.last⟩
  intro _
  exact .inl rfl

/-- A group nobody wanted is passed by; the feed has no run that it would go on. -/
theorem Goes.passed (h : Goes objs end_ f) (hend : end_ ≤ end') (hwanted : f.wanted = false)
    (hopen : f.sealed_ = false) : Goes (objs ++ later) end' f := by
  obtain ⟨place, hs, hw⟩ := h.stands
  refine ⟨⟨place, hs.more later, ?_⟩, h.idle, h.last⟩
  rcases h.idle hwanted with hgap | hsealed | ⟨hempty, hskip⟩
  · rw [hgap]
    exact hw.unkept later hend
  · exact absurd (hopen.symm.trans hsealed) (by simp)
  · rw [hempty] at hw ⊢
    refine ⟨hw.1.trans hend, ?_⟩
    intro _ hno
    exact absurd (hskip.symm.trans hno) (by simp)

/-- **A group handed over** waits behind the others. -/
theorem Goes.feed (h : Goes objs end_ f) (hopen : f.sealed_ = false)
    (hwanted : f.wanted = true) {blocks : List (Laid codec history × Bool)}
    {footer : Option (LaidFooter codec)} {idle kept : Bool}
    (hnoted : f.torn = false → f.noted = notedOf blocks)
    (hend : end_ = history.dataStart + (flat objs).length) :
    Goes (objs ++ (blockObjs blocks ++ footerObjs footer))
      (end_ + (flat (blockObjs blocks ++ footerObjs footer : List (Obj codec history))).length)
      (f.feed config end_ (flat (blockObjs blocks ++ footerObjs footer)) idle kept) := by
  obtain ⟨place, hs, hw⟩ := h.stands
  unfold Feed.feed
  split
  next =>
    have hlapsed : Goes objs end_ { f with gap := true, wanted := false, lapsed := true } :=
      h.flags ⟨rfl, rfl, rfl, rfl, rfl⟩ (.inl rfl) id (fun _ => .inl rfl)
    exact hlapsed.drop (Nat.le_add_right _ _)
  next =>
    split
    next => exact h.drop (Nat.le_add_right _ _)
    next htaken =>
      split
      next => exact h.drop (Nat.le_add_right _ _)
      next =>
        have hgroup : GroupOf (objs ++ (blockObjs blocks ++ footerObjs footer))
            ⟨end_, flat (blockObjs blocks ++ footerObjs footer), f.noted, f.gap⟩ := by
          refine ⟨objs, [], blocks, footer, ⟨by simp, hend, rfl⟩, hnoted ?_⟩
          simpa using (not_or.mp htaken).1
        refine ⟨⟨place, (hs.more _).congr rfl rfl rfl rfl, ?_⟩, ?_, ?_⟩
        · exact hw.push _ hgroup rfl rfl rfl
        · intro hno
          exact absurd (hwanted.symm.trans hno) (by simp)
        · intro hdone
          exact absurd (hopen.symm.trans (h.last hdone).2) (by simp)

theorem feed_closing {begin_ : Nat} {bytes : List UInt8} {idle kept : Bool} :
    (f.feed config begin_ bytes idle kept).closing = f.closing := by
  unfold Feed.feed
  split
  next => rfl
  next =>
    split
    next => rfl
    next =>
      split
      next => rfl
      next => rfl

/-- **What the writer makes**, wanted or not. -/
theorem Goes.made (h : Goes objs end_ f) (hopen : f.sealed_ = false)
    {blocks : List (Laid codec history × Bool)} {footer : Option (LaidFooter codec)}
    {torn idle kept : Bool} (hend : end_ = history.dataStart + (flat objs).length) :
    let noted := f.note (notedOf blocks) torn
    Goes (objs ++ (blockObjs blocks ++ footerObjs footer))
      (end_ + (flat (blockObjs blocks ++ footerObjs footer : List (Obj codec history))).length)
      (if noted.wanted then
        noted.feed config end_ (flat (blockObjs blocks ++ footerObjs footer)) idle kept
      else noted) := by
  intro noted
  have hnoted : Goes objs end_ noted :=
    h.flags ⟨rfl, rfl, rfl, rfl, rfl⟩ (.inr rfl) id (fun hno => .inr (.inr hno))
  split
  next hwanted =>
    apply hnoted.feed hopen hwanted _ hend
    intro hwhole
    have hwanted' : f.wanted = true := hwanted
    have hwhole' : torn = false := by
      have : (f.wanted && torn) = false := hwhole
      simpa [hwanted'] using this
    show (if f.wanted && !torn then notedOf blocks else []) = notedOf blocks
    simp [hwanted', hwhole']
  next hwanted =>
    exact hnoted.passed (Nat.le_add_right _ _) (eq_false_of_ne_true hwanted) hopen

end Work

end KwaqueStorage.SegmentRun
