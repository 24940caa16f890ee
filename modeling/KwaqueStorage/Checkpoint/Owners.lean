import KwaqueStorage.Checkpoint.Safe

/-!
# What each kind of step keeps

One lemma for each kind of thing a step of the two owners touches: the run alone, a bundle or a
WAL file that may go, a sequence, the turn of the control, and the records when a rename is asked
for and when it is durable. Each says that `Owned` holds of the device and process after it.
-/

namespace KwaqueStorage.Checkpoint

variable {d : Device} {p : Process} {k k' : Checkpointer} {u : Update}

/-- Whether a run waits for its update of the control. -/
def Phase.updates : Phase → Bool
  | .updating _ _ => true
  | _ => false

/-! ## The run alone -/

theorem Head.updates_of_moving {h : Head} (hm : h.moving = true) : h.updates = true := by
  unfold Head.moving at hm
  unfold Head.updates
  cases ht : h.turn with
  | none => simp [ht] at hm
  | some u =>
    simp only [ht, Option.any_some, Bool.and_eq_true] at hm ⊢
    exact hm.1

/-- The update of the checkpoint, where it has the turn. -/
theorem Owned.own (h : Owned d p) (hu : p.head.updates = true) :
    ∃ u, p.head.turn = some u ∧ u.owner = .checkpoint ∧ u.Own p.head p.checkpointer := by
  unfold Head.updates at hu
  cases ht : p.head.turn with
  | none => simp [ht] at hu
  | some u =>
    simp only [ht, Option.any_some, decide_eq_true_eq] at hu
    exact ⟨u, rfl, hu, (h.turn u ht).own hu⟩

/-- The checkpoint's update has the turn only while its run waits for it. -/
theorem Owned.not_updates (h : Owned d p) (hk : ∀ k, p.checkpointer = some k →
    k.phase.updates = false) : p.head.updates = false := by
  by_contra hu
  obtain ⟨u, _, _, k, cut, reference, hc, hphase, _⟩ := h.own (by simpa using hu)
  have := hk k hc
  rw [hphase] at this
  simp [Phase.updates] at this

theorem Owned.not_moving (h : Owned d p) (hk : ∀ k, p.checkpointer = some k →
    k.phase.updates = false) : p.head.moving = false := by
  cases hm : p.head.moving with
  | false => rfl
  | true => exact absurd (Head.updates_of_moving hm) (by simp [h.not_updates hk])

/-- **The run changes alone.** While its update has the turn it only waits, and an owner that
    ended stays so. -/
theorem Owned.setRun (h : Owned d p) (hk : p.checkpointer = some k)
    (hs : k'.Sound d p.head p.ids)
    (hw : p.head.updates = true → k'.phase = k.phase ∧ k'.publishing = k.publishing
      ∧ (k.holds = [] → k'.holds = []))
    (hd : k.failed = true → k.phase = .idle → k'.failed = true ∧ k'.phase = .idle) :
    Owned d { p with checkpointer := some k' } := by
  refine ⟨h.known, ?_, ?_, ?_, ?_⟩
  · intro u hu
    have hsound := h.turn u hu
    refine { hsound with own := ?_ }
    intro ho
    obtain ⟨k₀, cut, reference, hk₀, hphase, hpub, hholds, hrest⟩ := hsound.own ho
    obtain rfl : k = k₀ := by simpa [hk] using hk₀
    have hupd : p.head.updates = true := by
      have hturn : p.head.turn = some u := hu
      simp [Head.updates, hturn, ho]
    obtain ⟨h₁, h₂, h₃⟩ := hw hupd
    exact ⟨k', cut, reference, rfl, h₁.trans hphase, h₂.trans hpub, h₃ hholds, hrest⟩
  · intro hdiv
    apply h.alike
    simp only [Process.divided, hk, Option.any_some, Bool.or_eq_false_iff, Bool.and_eq_false_iff,
      decide_eq_false_iff_not] at hdiv ⊢
    refine ⟨hdiv.1, ?_⟩
    by_contra hboth
    simp only [not_or, Bool.not_eq_false, not_not] at hboth
    obtain ⟨hf, hi⟩ := hd hboth.1 hboth.2
    rcases hdiv.2 with h' | h'
    · exact absurd hf (by simp [h'])
    · exact h' hi
  · intro w hw'
    have hnone := h.sweep w hw'
    cases w <;> simp [Sweep.Sound, hk] at hnone
  · intro k₀ hk₀
    obtain rfl : k' = k₀ := by simpa using hk₀
    exact hs

/-- A run that waits for something else than its update goes on. -/
theorem Owned.goOn (h : Owned d p) (hk : p.checkpointer = some k) (hi : k.phase ≠ .idle)
    (hu : k.phase.updates = false) (hs : k'.Sound d p.head p.ids) :
    Owned d { p with checkpointer := some k' } := by
  have hno : p.head.updates = false := by
    apply h.not_updates
    intro k₀ hk₀
    obtain rfl : k = k₀ := by simpa [hk] using hk₀
    exact hu
  refine h.setRun hk hs ?_ fun _ hidle => absurd hidle hi
  simp [hno]

/-! ## What a run removes and adds -/

/-- **What a run knows outlives a change** that keeps every disposable bundle so, the end of the
    durable checkpoint and, for a run that waits for its update, the bundle it is about. -/
theorem Checkpointer.Sound.mono {d d' : Device} {head head' : Head} {ids ids' : Range}
    (h : k.Sound d head ids)
    (hdisp : ∀ q, Disposable d head.current ids q → Disposable d' head'.current ids' q)
    (he : head'.checkpointEnd = head.checkpointEnd)
    (hupd : ∀ cut reference, k.phase = .updating cut reference →
      d'.bundles reference.sequence = d.bundles reference.sequence
      ∧ (head'.moving = false → head.moving = false
        ∧ (d.Unnamed reference.sequence → d'.Unnamed reference.sequence))) :
    k.Sound d' head' ids' := by
  refine ⟨fun q hq => hdisp q (h.debts q hq), ?_⟩
  have hphase := h.phase
  cases hp : k.phase with
  | idle => trivial
  | pinning cut =>
    rw [hp] at hphase
    exact hphase
  | allocating cut =>
    rw [hp] at hphase
    exact hphase
  | encoding cut sequence =>
    rw [hp] at hphase
    exact ⟨hphase.1, hdisp _ hphase.2.1, hphase.2.2⟩
  | bundling cut reference =>
    rw [hp] at hphase
    exact ⟨hphase.1, hdisp _ hphase.2.1, hphase.2.2⟩
  | updating cut reference =>
    rw [hp] at hphase
    obtain ⟨hb, hm⟩ := hupd cut reference hp
    refine ⟨hphase.1, hb.trans hphase.2.1, ?_, hphase.2.2.2⟩
    intro hm'
    exact (hm hm').2 (hphase.2.2.1 (hm hm').1)
  | retiring sequence =>
    rw [hp] at hphase
    exact hdisp _ hphase
  | settling kept todo =>
    rw [hp] at hphase
    exact fun q hq => hdisp q (hphase q hq)
  | reclaiming cutoff =>
    rw [hp] at hphase
    exact he.trans hphase

/-- A bundle that no record names comes or goes. -/
theorem Owned.setBundle (h : Owned d p) {sequence : Nat} (hq : d.Unnamed sequence)
    (b : Option Bundle) (hs : b.isSome → Spent p.head.current p.ids sequence)
    (hrun : ∀ k, p.checkpointer = some k → k.phase.updates = false) :
    Owned { d with bundles := Function.update d.bundles sequence b } p := by
  refine ⟨h.known.setBundle hq b hs, ?_, h.alike, h.sweep, ?_⟩
  · intro u hu
    have hsound := h.turn u hu
    exact ⟨hsound.progress, hsound.same, hsound.reserves, hsound.own, hsound.renamed⟩
  · intro k hk
    refine (h.run k hk).mono (fun _ hq => hq) rfl ?_
    intro cut reference hphase
    exact absurd (hrun k hk) (by simp [hphase, Phase.updates])

theorem Owned.removeBundle (h : Owned d p) {sequence : Nat} (hq : d.Unnamed sequence)
    (r : Removal) (hrun : ∀ k, p.checkpointer = some k → k.phase.updates = false) :
    Owned (d.removeBundle sequence r) p := by
  unfold Device.removeBundle
  split
  next => exact h.setBundle hq none (by simp) hrun
  next => exact h

/-- A WAL file goes that the durable cutoff left behind. -/
theorem Owned.removeWal (h : Owned d p) (hdiv : p.divided = false) {cutoff : Cursor}
    (hcut : p.head.checkpointEnd = some cutoff) {i : Nat} (hi : i < cutoff.incarnation)
    (r : Removal) : Owned (d.removeWal i r) p := by
  have hknown := h.known.removeWal (h.alike hdiv) hcut hi r
  unfold Device.removeWal at hknown ⊢
  split
  next hr =>
    rw [if_pos hr] at hknown
    refine ⟨hknown, ?_, h.alike, h.sweep, ?_⟩
    · intro u hu
      have hsound := h.turn u hu
      exact ⟨hsound.progress, hsound.same, hsound.reserves, hsound.own, hsound.renamed⟩
    · intro k hk
      exact ⟨(h.run k hk).debts, (h.run k hk).phase⟩
  next => exact h

/-- Only the oldest files below the cutoff's own are counted. -/
theorem below_oldest {oldest n : Nat} {rest : List Nat} {cutoff : Cursor}
    (h : below (oldest :: rest) cutoff = n + 1) : oldest < cutoff.incarnation := by
  cases rest with
  | nil => simp [below] at h
  | cons next rest =>
    unfold below at h
    split at h
    next hlt => exact hlt
    next => simp at h

/-! ## Sequences -/

/-- An object takes a sequence. -/
theorem Owned.next (h : Owned d p) :
    Owned d { p with ids := ⟨p.ids.current + 1, p.ids.remaining - 1⟩ } :=
  ⟨h.known.next, h.turn, h.alike, h.sweep, fun k hk =>
    (h.run k hk).mono (fun _ hq => hq.next) rfl fun _ _ _ => ⟨rfl, fun hm => ⟨hm, id⟩⟩⟩

/-! ## The turn of the control -/

theorem Process.divided_setHead {head' : Head} (hm : head'.moving = p.head.moving) :
    Process.divided { p with head := head' } = p.divided := by
  simp only [Process.divided, hm]

/-- **The turn changes alone.** -/
theorem Owned.setHead (h : Owned d p) {head' : Head} (hc : head'.current = p.head.current)
    (he : head'.checkpointEnd = p.head.checkpointEnd) (hm : head'.moving = p.head.moving)
    (ht : ∀ u, head'.turn = some u → u.Sound d head' p.checkpointer) :
    Owned d { p with head := head' } := by
  refine ⟨?_, ht, ?_, ?_, ?_⟩
  · show Known d head'.current head'.checkpointEnd p.ids
    rw [hc, he]
    exact h.known
  · intro hdiv
    rw [Process.divided_setHead hm] at hdiv
    show ∀ c ∈ d.records, c.checkpoint = head'.current.checkpoint
    rw [hc]
    exact h.alike hdiv
  · intro w hw
    have hsweep := h.sweep w hw
    cases w <;> simpa only [Sweep.Sound, hc, he] using hsweep
  · intro k hk
    refine (h.run k hk).mono (fun q hq => hc ▸ hq) he ?_
    intro cut reference _
    exact ⟨rfl, fun hm' => ⟨hm ▸ hm', id⟩⟩

theorem Head.not_moving_of_stage {h : Head} (ht : h.turn = some u) (hs : u.stage ≠ .renamed) :
    h.moving = false := by
  simp [Head.moving, ht, hs]

theorem objectHigh_progress {before after : Control} (h : controlProgress before after = true) :
    before.objectHigh ≤ after.objectHigh := by
  simp only [controlProgress, Bool.and_eq_true, decide_eq_true_eq] at h
  exact h.1.1.1.1.1.1.2

variable {reference : Reference}

/-- The run after an update of its own that touched nothing: its bundle is one more to remove. -/
theorem Checkpointer.Sound.untouched {head : Head} {ids : Range} (h : k.Sound d head ids) {cut : Cut}
    (hphase : k.phase = .updating cut reference) (hm : head.moving = false)
    (hspent : Spent head.current ids reference.sequence) (fenced : Bool)
    : (k.untouched reference fenced).Sound d head ids := by
  have hsound := h.phase
  rw [hphase] at hsound
  unfold Checkpointer.untouched
  cases fenced with
  | true => exact ⟨h.debts, trivial⟩
  | false => exact ⟨h.debts, hsound.2.2.1 hm, hspent⟩

/-- The bundle a run waits to name is one of its own sequences. -/
theorem Owned.updating_spent (h : Owned d p) (hk : p.checkpointer = some k) {cut : Cut}
    (hphase : k.phase = .updating cut reference) :
    Spent p.head.current p.ids reference.sequence := by
  have hsound := (h.run k hk).phase
  rw [hphase] at hsound
  exact h.known.served _ _ hsound.2.1

/-- An update ends before its rename was asked for. -/
theorem Owned.untouched (h : Owned d p) (ht : p.head.turn = some u) (hs : u.stage ≠ .renamed)
    (fences : Bool) : Owned d (p.untouched u fences) := by
  have hm := Head.not_moving_of_stage ht hs
  have hfree : Owned d
      { p with head := { p.head with turn := none, fenced := p.head.fenced || fences } } :=
    h.setHead rfl rfl (by rw [hm]; rfl) (by simp)
  unfold Process.untouched
  cases ho : u.owner with
  | allocator start count => exact hfree
  | other => exact hfree
  | checkpoint =>
    obtain ⟨k, cut, reference, hk, hphase, _⟩ := (h.turn u ht).own ho
    simp only [hk, hphase]
    refine hfree.setRun hk ?_ (by simp [Head.updates]) (by simp [hphase])
    exact (hfree.run k hk).untouched hphase rfl (hfree.updating_spent hk hphase) _

/-- Another owner's edit leaves the checkpoint, and reserves from where the record stands. -/
theorem Edit.apply_spec {fields candidate : Control} {edit : Edit}
    (h : edit.apply fields = some candidate) :
    candidate.checkpoint = fields.checkpoint ∧ edit.owner fields ≠ .checkpoint
      ∧ ∀ start count, edit.owner fields = .allocator start count →
        start = fields.objectHigh ∧ candidate.objectHigh = start + count := by
  cases edit with
  | reserveObjects count =>
    cases h
    refine ⟨rfl, by simp [Edit.owner], ?_⟩
    intro start count' ho
    obtain ⟨rfl, rfl⟩ : fields.objectHigh = start ∧ count = count' := by simpa [Edit.owner] using ho
    exact ⟨rfl, rfl⟩
  | walHead old head =>
    simp only [Edit.apply] at h
    split at h
    next => simp at h
    next =>
      cases h
      exact ⟨rfl, by simp [Edit.owner], by simp [Edit.owner]⟩
  | _ =>
    cases h
    exact ⟨rfl, by simp [Edit.owner], by simp [Edit.owner]⟩

/-- Another owner's update gets the turn. -/
theorem Owned.ask (h : Owned d p) (ht : p.head.turn = none) {edit : Edit} {candidate : Control}
    (he : edit.apply p.head.current = some candidate)
    (hp : controlProgress p.head.current candidate = true) :
    Owned d { p with head := { p.head with
      turn := some { owner := edit.owner p.head.current, candidate } } } := by
  obtain ⟨hsame, howner, hres⟩ := Edit.apply_spec he
  refine h.setHead rfl rfl ?_ ?_
  · simp [Head.moving, ht]
  · intro u hu
    cases hu
    exact ⟨hp, fun _ => ⟨hsame, rfl⟩, hres, fun ho => absurd ho howner, by simp⟩

/-- The checkpoint's own update gets the turn: nothing is held, and from here nothing will be. -/
theorem Owned.takeTurn (h : Owned d p) (ht : p.head.turn = none) (hk : p.checkpointer = some k) {cut : Cut}
    (hphase : k.phase = .updating cut reference) {candidate : Control}
    (he : k.edit cut reference p.head.current = some candidate)
    (hp : controlProgress p.head.current candidate = true) :
    Owned d { p with
      head := { p.head with turn := some { owner := .checkpoint, candidate } }
      checkpointer := some { k with publishing := true } } := by
  have hrun := h.run k hk
  have hwait := hrun.phase
  rw [hphase] at hwait
  have hnot : p.head.moving = false := by simp [Head.moving, ht]
  have hrun' : Owned d { p with checkpointer := some { k with publishing := true } } :=
    h.setRun hk ⟨hrun.debts, hrun.phase⟩ (by simp [Head.updates, ht]) fun hf hi => ⟨hf, hi⟩
  unfold Checkpointer.edit at he
  split at he
  next => simp at he
  next hrep =>
    split at he
    next => simp at he
    next hholds =>
      cases he
      refine hrun'.setHead rfl rfl ?_ ?_
      · simp [Head.moving, ht]
      · intro u hu
        cases hu
        refine ⟨hp, by simp, by simp, ?_, by simp⟩
        intro _
        refine ⟨_, cut, reference, rfl, hphase, rfl, not_not.mp hholds, (not_not.mp hrep).symm, ?_,
          rfl, by simp⟩
        intro r hr
        exact hwait.2.2.1 hnot _ h.known.possible r hr

/-- The end that an update carries from its dependencies on. -/
theorem Head.continued_spec {head : Head} {candidate : Control} {ok : Bool}
    {end_ : Option Cursor} (h : head.continued d candidate ok = some end_) :
    (candidate.checkpoint = head.current.checkpoint → end_ = none)
      ∧ ∀ r b, candidate.checkpoint = some r → head.current.checkpoint ≠ some r →
        d.bundles r.sequence = some b → end_ = some b.root.end_
          ∧ ∀ e, head.checkpointEnd = some e → b.root.begin_ = e := by
  unfold Head.continued at h
  split at h
  next hsame =>
    refine ⟨?_, fun r b hr hne => absurd (hsame.symm.trans hr) hne⟩
    split at h <;> simp_all
  next hdiff =>
    refine ⟨fun heq => absurd heq hdiff, ?_⟩
    intro r b hr _ hb
    simp only [hr, Device.root, hb] at h
    split at h
    next => simp at h
    next root hroot =>
      split at hroot
      next =>
        cases hroot
        split at h
        next => simp at h
        next hbegin =>
          cases h
          refine ⟨rfl, ?_⟩
          intro e he
          simpa [he] using hbegin
      next => simp at hroot

/-- The dependencies of an update are loaded. -/
theorem Owned.loaded (h : Owned d p) (ht : p.head.turn = some u) (hs : u.stage = .edited)
    {ok : Bool} {end_ : Option Cursor} (hl : p.head.continued d u.candidate ok = some end_) :
    Owned d { p with head := { p.head with turn := some { u with end_, stage := .loaded } } } := by
  have hsound := h.turn u ht
  obtain ⟨hl₁, hl₂⟩ := Head.continued_spec hl
  refine h.setHead rfl rfl ?_ ?_
  · simp [Head.moving, ht, hs]
  · intro u' hu'
    cases hu'
    refine ⟨hsound.progress, ?_, hsound.reserves, ?_, by simp⟩
    · intro ho
      exact ⟨(hsound.same ho).1, hl₁ (hsound.same ho).1⟩
    · intro ho
      obtain ⟨k, cut, reference, hk, hphase, hpub, hholds, hrep, hne, hcand, _⟩ := hsound.own ho
      have hwait := (h.run k hk).phase
      rw [hphase] at hwait
      refine ⟨k, cut, reference, hk, hphase, hpub, hholds, hrep, hne, hcand, fun _ => ?_⟩
      exact hl₂ reference _ (by rw [hcand]) (fun heq => hne _ heq rfl) hwait.2.1

/-! ## The records -/

/-- What an update may make durable is backed, and needs no WAL file that is gone. -/
theorem Owned.candidate_kept (h : Owned d p) (ht : p.head.turn = some u)
    (hs : u.stage ≠ .edited) :
    (∀ r, u.candidate.checkpoint = some r → ∃ root, d.bundles r.sequence = some ⟨r, root, true⟩)
      ∧ ∀ i ∈ d.removed, ∃ cutoff, d.cutoff u.candidate = some cutoff ∧ i < cutoff.incarnation := by
  have hsound := h.turn u ht
  by_cases ho : u.owner = .checkpoint
  · obtain ⟨k, cut, reference, hk, hphase, _, _, _, _, hcand, hend⟩ := hsound.own ho
    have hrun := (h.run k hk).phase
    rw [hphase] at hrun
    refine ⟨?_, ?_⟩
    · intro r hr
      obtain rfl : reference = r := by simpa [hcand] using hr
      exact ⟨_, hrun.2.1⟩
    · -- the cut begins where the durable checkpoint ends, so it needs no more than that one does
      intro i hi
      obtain ⟨cutoff, hcutoff, hlt⟩ := h.known.kept.needed _ h.known.possible i hi
      refine ⟨cut.end_, by simp [Device.cutoff, hcand, hrun.2.1], ?_⟩
      have hbegin := (hend hs).2 cutoff (h.known.ended.trans hcutoff)
      exact hlt.trans_le (incarnation_mono (hbegin ▸ hrun.1))
  · obtain ⟨hsame, _⟩ := hsound.same ho
    refine ⟨?_, ?_⟩
    · intro r hr
      exact h.known.kept.backed _ h.known.possible r (hsame ▸ hr)
    · rw [Device.cutoff_congr hsame fun _ _ => rfl]
      exact h.known.kept.needed _ h.known.possible

/-- The rename of an update's record is asked for. -/
theorem Owned.rename (h : Owned d p) (ht : p.head.turn = some u) (hs : u.stage = .loaded) :
    Owned { d with records := u.candidate :: d.records }
      { p with head := { p.head with turn := some { u with stage := .renamed } } } := by
  have hsound := h.turn u ht
  have hm := Head.not_moving_of_stage ht (by simp [hs])
  obtain ⟨hbacked, hneeded⟩ := h.candidate_kept ht (by simp [hs])
  have hknown := h.known.rename (objectHigh_progress hsound.progress) hbacked hneeded
  refine ⟨hknown, ?_, ?_, h.sweep, ?_⟩
  · intro u' hu'
    obtain rfl : { u with stage := Stage.renamed } = u' := by simpa using hu'
    refine ⟨hsound.progress, hsound.same, hsound.reserves, ?_, fun _ => List.mem_cons_self⟩
    intro ho
    obtain ⟨k, cut, reference, h₁, h₂, h₃, h₄, h₅, h₆, h₇, h₈⟩ := hsound.own ho
    exact ⟨k, cut, reference, h₁, h₂, h₃, h₄, h₅, h₆, h₇, fun _ => h₈ (by simp [hs])⟩
  · -- only another owner's rename leaves the records alike
    intro hdiv
    simp only [Process.divided, Head.moving, Option.any_some, decide_true, Bool.and_true,
      Bool.or_eq_false_iff, decide_eq_false_iff_not] at hdiv
    have hold := h.alike (by simp only [Process.divided, hm, Bool.false_or]; exact hdiv.2)
    intro c hc
    rcases List.mem_cons.mp hc with rfl | hc
    · exact (hsound.same hdiv.1).1
    · exact hold c hc
  · intro k hk
    by_cases ho : u.owner = .checkpoint
    · obtain ⟨k₀, cut, reference, hk₀, hphase, _, _, _, _, hcand, _⟩ := hsound.own ho
      obtain rfl : k₀ = k := by simpa [hk₀] using hk
      have hrun := h.run k₀ hk₀
      have hwait := hrun.phase
      rw [hphase] at hwait
      refine ⟨?_, ?_⟩
      · intro q hq
        refine ⟨?_, (hrun.debts q hq).2⟩
        intro c hc r hr
        rcases List.mem_cons.mp hc with rfl | hc
        · obtain rfl : reference = r := by simpa [hcand] using hr
          exact fun heq => hwait.2.2.2 (heq ▸ hq)
        · exact (hrun.debts q hq).1 c hc r hr
      · rw [hphase]
        exact ⟨hwait.1, hwait.2.1, by simp [Head.moving, ho], hwait.2.2.2⟩
    · have hun : ∀ q, d.Unnamed q →
          Device.Unnamed { d with records := u.candidate :: d.records } q := by
        intro q hq c hc r hr
        rcases List.mem_cons.mp hc with rfl | hc
        · exact hq _ h.known.possible r ((hsound.same ho).1 ▸ hr)
        · exact hq c hc r hr
      refine (h.run k hk).mono (fun q hq => ⟨hun q hq.1, hq.2⟩) rfl ?_
      intro cut reference _
      exact ⟨rfl, fun _ => ⟨hm, hun _⟩⟩

/-- A sequence spent under a record is spent under one that reserved no less. -/
theorem Spent.mono {current current' : Control} {ids : Range} {q : Nat}
    (h : Spent current ids q) (hh : current.objectHigh ≤ current'.objectHigh) :
    Spent current' ids q :=
  ⟨h.high.trans hh, h.served⟩

/-- The process after another owner's update is durable. -/
theorem Owned.commitOther (h : Owned d p) (ht : p.head.turn = some u) (hs : u.stage = .renamed)
    (ho : u.owner ≠ .checkpoint) {ids' : Range}
    (hrange : ids'.remaining ≠ 0 → ids'.current + ids'.remaining ≤ u.candidate.objectHigh)
    (hspent : ∀ q, Spent p.head.current p.ids q → Spent u.candidate ids' q) (fenced : Bool) :
    Owned { d with records := [u.candidate] }
      { p with
        head := ⟨u.candidate, u.end_.or p.head.checkpointEnd, fenced, none⟩
        ids := ids' } := by
  have hsound := h.turn u ht
  obtain ⟨hsame, hend⟩ := hsound.same ho
  have hcut : u.end_.or p.head.checkpointEnd = d.cutoff u.candidate := by
    rw [hend, Option.none_or, h.known.ended, Device.cutoff_congr hsame fun _ _ => rfl]
  have hmoving : p.head.moving = false := by simp [Head.moving, ht, ho]
  have hun : ∀ q, d.Unnamed q → Device.Unnamed { d with records := [u.candidate] } q := by
    intro q hq c hc r hr
    obtain rfl := List.mem_singleton.mp hc
    exact hq _ h.known.possible r (hsame ▸ hr)
  refine ⟨?_, by simp, ?_, ?_, ?_⟩
  · show Known _ u.candidate (u.end_.or p.head.checkpointEnd) ids'
    rw [hcut]
    exact h.known.commit (hsound.renamed hs) hrange hspent
  · intro _ c hc
    obtain rfl := List.mem_singleton.mp hc
    rfl
  · intro w hw
    have hsweep := h.sweep w hw
    cases w with
    | bundles kept => exact ⟨hsweep.1, hsweep.2.trans hsame.symm⟩
    | wal durable => exact ⟨hsweep.1, by rw [hsweep.2, hend, Option.none_or]⟩
  · intro k hk
    refine (h.run k hk).mono (fun q hq => ⟨hun q hq.1, hspent q hq.2⟩) ?_ ?_
    · show u.end_.or p.head.checkpointEnd = _
      rw [hend, Option.none_or]
    · intro cut reference _
      exact ⟨rfl, fun _ => ⟨hmoving, hun _⟩⟩

theorem mem_owe {debts : List Nat} {sequence q : Nat} (h : q ∈ owe debts sequence) :
    q ∈ debts ∨ q = sequence := by
  unfold owe at h
  rcases List.mem_append.mp h with h | h
  · split at h
    next => exact .inl (List.mem_of_mem_tail h)
    next => exact .inl h
  · exact .inr (List.mem_singleton.mp h)

/-- The process after the checkpoint's own update is durable: what it replaced is named no more,
    and neither is what was owed before. -/
theorem Owned.commitOwn (h : Owned d p) (ht : p.head.turn = some u) (hs : u.stage = .renamed)
    (ho : u.owner = .checkpoint) {cut : Cut} (hk : p.checkpointer = some k)
    (hphase : k.phase = .updating cut reference) (fenced clean : Bool) (adopted : Bool) :
    Owned { d with records := [u.candidate] }
      { p with
        head := ⟨u.candidate, u.end_.or p.head.checkpointEnd, fenced, none⟩
        checkpointer := some (if clean then k.moved cut reference adopted else k.ended) } := by
  have hsound := h.turn u ht
  obtain ⟨k₀, cut₀, reference₀, hk₀, hphase₀, _, _, hrep, hne, hcand, hend⟩ := hsound.own ho
  obtain rfl : k₀ = k := by simpa [hk₀] using hk
  obtain ⟨rfl, rfl⟩ : cut₀ = cut ∧ reference₀ = reference := by simpa [hphase₀] using hphase
  have hrun := h.run k₀ hk₀
  have hwait := hrun.phase
  rw [hphase₀] at hwait
  obtain ⟨hu, _⟩ := hend (by simp [hs])
  have hcut : u.end_.or p.head.checkpointEnd = d.cutoff u.candidate := by
    simp [hu, Device.cutoff, hcand, hwait.2.1]
  have hspent : ∀ q, Spent p.head.current p.ids q → Spent u.candidate p.ids q :=
    fun q hq => hq.mono (objectHigh_progress hsound.progress)
  have hdisp : ∀ q, q ≠ reference₀.sequence → Spent p.head.current p.ids q →
      Disposable { d with records := [u.candidate] } u.candidate p.ids q := by
    intro q hq hqs
    refine ⟨?_, hspent q hqs⟩
    intro c hc r hr
    obtain rfl := List.mem_singleton.mp hc
    obtain rfl : reference₀ = r := by simpa [hcand] using hr
    exact hq.symm
  have hold : ∀ q ∈ k₀.debts, Disposable { d with records := [u.candidate] } u.candidate p.ids q :=
    fun q hq => hdisp q (fun heq => hwait.2.2.2 (heq ▸ hq)) (hrun.debts q hq).2
  have hnew : ∀ q ∈ cut₀.replaced.elim k₀.debts (fun r => owe k₀.debts r.sequence),
      Disposable { d with records := [u.candidate] } u.candidate p.ids q := by
    intro q hq
    cases hr : cut₀.replaced with
    | none =>
      rw [hr] at hq
      exact hold q hq
    | some r =>
      rw [hr] at hq
      rcases mem_owe hq with hq | rfl
      · exact hold q hq
      · have hname : p.head.current.checkpoint = some r := hrep.symm.trans hr
        obtain ⟨root, hroot⟩ := h.known.kept.backed _ h.known.possible r hname
        exact hdisp _ (hne r hname) (h.known.served _ _ hroot)
  refine ⟨?_, by simp, ?_, ?_, ?_⟩
  · show Known _ u.candidate (u.end_.or p.head.checkpointEnd) p.ids
    rw [hcut]
    refine h.known.commit (hsound.renamed hs) ?_ hspent
    intro hr
    exact (h.known.range hr).trans (objectHigh_progress hsound.progress)
  · intro _ c hc
    obtain rfl := List.mem_singleton.mp hc
    rfl
  · intro w hw
    have hsweep := h.sweep w hw
    cases w <;> simp [Sweep.Sound, hk₀] at hsweep
  · intro k hk
    cases hk
    cases clean with
    | true => exact ⟨hnew, by simpa [Checkpointer.moved, Phase.Sound] using hnew⟩
    | false => exact ⟨hold, trivial⟩

/-- An update ends after its rename was asked for. -/
theorem Owned.published (h : Owned d p) (ht : p.head.turn = some u) (hs : u.stage = .renamed)
    (answer : RenameAnswer) (adopted : Bool) :
    Owned (if answer = .uncertain then d else { d with records := [u.candidate] })
      (p.published u answer adopted) := by
  have hsound := h.turn u ht
  have hhigh := objectHigh_progress hsound.progress
  cases answer with
  | uncertain =>
    rw [if_pos rfl]
    unfold Process.published
    cases ho : u.owner with
    | checkpoint =>
      -- the records disagree from here on, and the owner that would remove anything has ended
      obtain ⟨k, cut, reference, hk, hphase, _⟩ := hsound.own ho
      simp only [hk]
      refine ⟨h.known, by simp, ?_, ?_, ?_⟩
      · simp [Process.divided, Checkpointer.ended]
      · intro w hw
        have hsweep := h.sweep w hw
        cases w <;> simp [Sweep.Sound, hk] at hsweep
      · intro k' hk'
        cases hk'
        exact ⟨(h.run k hk).debts, trivial⟩
    | allocator start count =>
      exact h.setHead rfl rfl (by simp [Head.moving, ht, ho]) (by simp)
    | other =>
      exact h.setHead rfl rfl (by simp [Head.moving, ht, ho]) (by simp)
  | durable clean =>
    rw [if_neg (by simp)]
    unfold Process.published
    have hsame : Owned { d with records := [u.candidate] }
        { p with head := ⟨u.candidate, u.end_.or p.head.checkpointEnd, p.head.fenced || !clean,
          none⟩ } ∨ u.owner = .checkpoint := by
      by_cases ho : u.owner = .checkpoint
      · exact .inr ho
      · refine .inl (h.commitOther ht hs ho ?_ (fun q hq => hq.mono hhigh) _)
        exact fun hr => (h.known.range hr).trans hhigh
    cases ho : u.owner with
    | checkpoint =>
      obtain ⟨k, cut, reference, hk, hphase, _⟩ := hsound.own ho
      simp only [hk, hphase]
      exact h.commitOwn ht hs ho hk hphase _ clean adopted
    | other => exact hsame.resolve_right (by simp [ho])
    | allocator start count =>
      obtain ⟨rfl, hcount⟩ := hsound.reserves start count ho
      cases clean with
      | false => exact hsame.resolve_right (by simp [ho])
      | true =>
        refine h.commitOther ht hs (by simp [ho]) (fun _ => hcount.ge) ?_ _
        intro q hq
        exact ⟨hq.high.trans hhigh, fun _ => hq.high⟩

/-! ## The stretches of a run -/

/-- A cutoff does not go back. -/
theorem checkpointCutoff_ge {o : Obligations} {held : Option Cursor} {previous end_ : Cursor}
    (h : checkpointCutoff o held previous = .ok end_) : previous ≤ end_ := by
  unfold checkpointCutoff at h
  simp only at h
  split at h
  next => simp at h
  next hle =>
    cases h
    exact le_of_not_gt hle

/-- **What the cut can do**: leave the run where it was, go on to what is owed, or wait for the
    pins of a cut that does not go back. -/
theorem Checkpointer.cut_cases (head : Head) (walRecovered : Bool) (a : CutAnswer) :
    ∃ phase, k.cut head walRecovered a = { k with lettingGo := false, phase }
      ∧ (phase = k.phase ∨ k.failed = false ∧ (phase = .settling [] k.debts
        ∨ ∃ cut, phase = .pinning cut ∧ cut.begin_ ≤ cut.end_)) := by
  unfold Checkpointer.cut
  by_cases hf : k.failed = true
  · exact ⟨k.phase, by simp [hf], .inl rfl⟩
  simp only [hf, Bool.false_eq_true, if_false]
  cases a.obligations with
  | none => exact ⟨k.phase, rfl, .inl rfl⟩
  | some o =>
    simp only
    split
    next => exact ⟨k.phase, rfl, .inl rfl⟩
    next =>
      split
      next => exact ⟨k.phase, rfl, .inl rfl⟩
      next =>
        split
        next => exact ⟨k.phase, rfl, .inl rfl⟩
        next end_ hend =>
          have hle := checkpointCutoff_ge hend
          split
          next => exact ⟨k.phase, rfl, .inl rfl⟩
          next =>
            split
            next => exact ⟨_, rfl, .inr ⟨trivial, .inl rfl⟩⟩
            next =>
              split
              next => exact ⟨k.phase, rfl, .inl rfl⟩
              next => exact ⟨_, rfl, .inr ⟨trivial, .inr ⟨_, rfl, hle⟩⟩⟩

theorem Owned.cut (h : Owned d p) (hk : p.checkpointer = some k) (hi : k.phase = .idle)
    (a : CutAnswer) :
    Owned d { p with checkpointer := some (k.cut p.head p.walRecovered a) } := by
  have hno : p.head.updates = false := by
    apply h.not_updates
    intro k₀ hk₀
    obtain rfl : k = k₀ := by simpa [hk] using hk₀
    rw [hi]
    rfl
  have hrun := h.run k hk
  obtain ⟨phase, hcut, hphase⟩ := k.cut_cases p.head p.walRecovered a
  rw [hcut]
  refine h.setRun hk ⟨hrun.debts, ?_⟩ (by simp [hno]) ?_
  · rcases hphase with rfl | ⟨_, rfl | ⟨cut, rfl, hle⟩⟩
    · exact hrun.phase
    · intro q hq
      exact hrun.debts q (by simpa using hq)
    · exact hle
  · intro hf _
    rcases hphase with rfl | ⟨hf', _⟩
    · exact ⟨hf, hi⟩
    · exact absurd hf (by simp [hf'])

/-- The publication of a bundle ends: it is there for the update to name, or owed. -/
theorem Owned.bundled (h : Owned d p) (hk : p.checkpointer = some k) {cut : Cut}
    (hphase : k.phase = .bundling cut reference) :
    Owned (d.addBundle reference.sequence ⟨reference, ⟨cut.begin_, cut.end_⟩, true⟩)
        (p.withPhase k (.updating cut reference))
      ∧ ∀ b, Owned (d.addBundle reference.sequence b)
        (p.withPhase { k with debts := owe k.debts reference.sequence } .idle) := by
  have hrun := h.run k hk
  have hwait := hrun.phase
  rw [hphase] at hwait
  obtain ⟨hle, hdisp, hnot⟩ := hwait
  have hthere : ∀ b, Owned (d.addBundle reference.sequence b) p := by
    intro b
    apply h.setBundle hdisp.1 (some b) fun _ => hdisp.2
    intro k₀ hk₀
    obtain rfl : k = k₀ := by simpa [hk] using hk₀
    rw [hphase]
    rfl
  have hi : k.phase ≠ .idle := by simp [hphase]
  have hu : k.phase.updates = false := by rw [hphase]; rfl
  refine ⟨?_, ?_⟩
  · apply (hthere _).goOn hk hi hu
    refine ⟨hrun.debts, hle, ?_, fun _ => hdisp.1, hnot⟩
    exact Function.update_self ..
  · intro b
    apply (hthere b).goOn hk hi hu
    refine ⟨?_, trivial⟩
    intro q hq
    rcases mem_owe hq with hq | rfl
    · exact hrun.debts q hq
    · exact hdisp

/-! ## The WAL, a reopen's passes and the owner's requests -/

/-- The oldest file of the WAL goes, while the durable cutoff lies in a later one. -/
theorem Owned.reclaimed (h : Owned d p) (hk : p.checkpointer = some k) {cutoff : Cursor}
    (hphase : k.phase = .reclaiming cutoff) {oldest n : Nat} {rest : List Nat}
    (hold : p.retained = oldest :: rest) (hbelow : below p.retained cutoff = n + 1) (r : Removal) :
    Owned (d.removeWal oldest r) p := by
  have hwait := (h.run k hk).phase
  rw [hphase] at hwait
  have hmoving : p.head.moving = false := by
    apply h.not_moving
    intro k₀ hk₀
    obtain rfl : k = k₀ := by simpa [hk] using hk₀
    rw [hphase]
    rfl
  refine h.removeWal ?_ hwait (below_oldest (hold ▸ hbelow)) r
  simp [Process.divided, hmoving, hk, hphase]

/-- A pass of a reopen runs before there is a checkpoint owner, so the records agree. -/
theorem Owned.not_divided_of_sweep (h : Owned d p) (hc : p.checkpointer = none) :
    p.divided = false := by
  have hmoving : p.head.moving = false := h.not_moving (by simp [hc])
  simp [Process.divided, hmoving, hc]

/-- The retained files are the run's own business. -/
theorem Owned.setRetained (h : Owned d p) (retained : List Nat) : Owned d { p with retained } :=
  ⟨h.known, h.turn, h.alike, h.sweep, h.run⟩

theorem Owned.setSweep (h : Owned d p) (sweep : Option Sweep)
    (hs : ∀ w, sweep = some w → w.Sound p.head p.checkpointer) : Owned d { p with sweep } :=
  { h with sweep := hs }

/-- `local_checkpoint::make`. -/
theorem Owned.make (h : Owned d p) (origin : Cursor)
    (hfree : p.checkpointer = none ∧ p.sweep = none) :
    Owned d { p with checkpointer := some { origin } } := by
  refine ⟨h.known, ?_, ?_, ?_, ?_⟩
  · intro u hu
    have hsound := h.turn u hu
    refine { hsound with own := ?_ }
    intro ho
    obtain ⟨k, _, _, hk, _⟩ := hsound.own ho
    simp [hfree.1] at hk
  · intro _
    exact h.alike (h.not_divided_of_sweep hfree.1)
  · intro w hw
    exact absurd hw (by simp [hfree.2])
  · intro k hk
    cases hk
    exact ⟨by simp, trivial⟩

/-- What others ask of the owner while it runs. -/
theorem Owned.asked (h : Owned d p) (hk : p.checkpointer = some k)
    (hdebts : k'.debts = k.debts) (hphase : k'.phase = k.phase)
    (hpub : k'.publishing = k.publishing) (hfail : k.failed = true → k'.failed = true)
    (hholds : p.head.updates = true → k.holds = [] → k'.holds = []) :
    Owned d { p with checkpointer := some k' } := by
  have hrun := h.run k hk
  refine h.setRun hk ⟨hdebts ▸ hrun.debts, ?_⟩ (fun hu => ⟨hphase, hpub, hholds hu⟩) ?_
  · rw [hphase, hdebts]
    exact hrun.phase
  · intro hf hi
    exact ⟨hfail hf, hphase.trans hi⟩

/-- A run that waits for no update of its own ends. -/
theorem Owned.ends (h : Owned d p) (hk : p.checkpointer = some k)
    (hu : p.head.updates = false) : Owned d (p.withPhase k .idle) :=
  h.setRun hk ⟨(h.run k hk).debts, trivial⟩ (by simp [hu]) fun hf _ => ⟨hf, rfl⟩

/-- An update of the run's own that never had the turn. -/
theorem Owned.refused (h : Owned d p) (hk : p.checkpointer = some k) {cut : Cut}
    (hphase : k.phase = .updating cut reference) (hu : p.head.updates = false) (fenced : Bool) :
    Owned d { p with checkpointer := some (k.untouched reference fenced) } := by
  have hm : p.head.moving = false := by
    cases hm : p.head.moving with
    | false => rfl
    | true => exact absurd (Head.updates_of_moving hm) (by simp [hu])
  refine h.setRun hk ?_ (by simp [hu]) (by simp [hphase])
  exact (h.run k hk).untouched hphase hm (h.updating_spent hk hphase) fenced

end KwaqueStorage.Checkpoint
